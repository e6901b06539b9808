import Mathlib.Data.List.Sort
import Mathlib.Data.Set.List
import TxIndex.Proofs.Cursor.Paging
import TxIndex.Repository

/-!
# What is read in the order of the keys

The two indexes and the marker share one ordered table, and nothing but the keys keeps them apart.

* `Store.Apart`: what is read under the tag of an index belongs to that index, by whatever scan and
  by whatever cursor (`apart_of_ne_metadata`).
* `Store.HeightsFrom`: in a store whose batches lie at the keys of heights, the entries from a
  height on are the batches of the heights from there on, in the order of the numbers
  (`exists_heightsFrom`).

`keys_ordered_and_apart` puts these beside the laws of the keys from which they follow.
-/

namespace TxIndex

variable {s : Store} {space : Space}

/-! ## The entries of one index -/

/-- What is read under the tag of the space belongs to the space. -/
structure Store.Apart (s : Store) (space : Space) : Prop where
  scan : ∀ start limit, ∀ e ∈ s.scan start space.tag limit,
    e.key ≠ Key.marker ∧ ∀ other ≠ space, ∀ suffix, e.key ≠ other.key suffix
  /-- Whatever fails, a cursor answers with entries that the store has under the tag. -/
  cursor : ∀ suffix pageSize faults calls m, ∃ answers c calls',
    (Cursor.start space suffix pageSize).ask m faults ⟨s, calls⟩ = .ok (answers, c) ⟨s, calls'⟩ ∧
      ∀ e, Cursor.Yield.entry e ∈ answers → s.get? (space.key e.key) = some e.value

/-- What is among so many answers is one of the answers to come, or what is answered when there are
none. -/
theorem mem_or_eq_of_mem_takeD {l : List α} {a d : α} {n : Nat} (h : a ∈ l.takeD n d) :
    a ∈ l ∨ a = d := by
  induction n generalizing l with
  | zero => cases h
  | succ n ih =>
    rcases List.mem_cons.1 h with rfl | h
    · cases l with
      | nil => exact .inr rfl
      | cons b l => exact .inl List.mem_cons_self
    · exact (ih h).imp_left List.mem_of_mem_tail

/-- **An index is apart from all that is not its own.** A scan is given the tag as the prefix, and
no other key begins with it; a cursor answers with entries of the space, whatever has failed in
between. -/
theorem apart_of_ne_metadata (s : Store) (hindex : space ≠ .metadata) : s.Apart space where
  scan start limit e he := by
    obtain ⟨-, -, suffix, hkey⟩ := Store.mem_view_of_mem_scan he
    have hkey : e.key = space.key suffix := hkey.symm
    rw [hkey]
    constructor
    · exact fun heq => hindex (Space.key_eq_key_iff.1 heq).1
    · exact fun other hother suffix' heq => hother (Space.key_eq_key_iff.1 heq).1.symm
  cursor suffix pageSize faults calls m := by
    obtain ⟨good, failure, hlook⟩ := Cursor.Outlook.exists_of_faults faults (calls.store .scan)
      ((space.suffixes suffix s.view).length / max 1 pageSize + 1)
    obtain ⟨c, calls', hask, -⟩ := Cursor.gives_of_start hlook m
    refine ⟨_, c, calls', hask, fun e he => ?_⟩
    -- The answers are entries from the beginning of the index, a failure, and nothing.
    rcases mem_or_eq_of_mem_takeD he with he | he
    · rcases List.mem_append.1 he with he | he
      · obtain ⟨e', he', heq⟩ := List.mem_map.1 he
        cases heq
        obtain ⟨hget, -⟩ := Space.mem_suffixes_iff.1 (List.mem_of_mem_take he')
        rwa [Store.get?_view] at hget
      · cases failure with
        | none => cases he
        | some cause => exact nomatch List.mem_singleton.1 he
    · cases he

/-! ## Heights in their order -/

/-- Whatever lies under the tag of the batches lies at the key of a height. -/
def Store.KeyedByHeight (s : Store) : Prop :=
  ∀ key, Space.txsByHeight.tag <+: key → s.get? key ≠ none → ∃ h : Height, key = Key.height h

/-- The heights from the first on that have a batch, in increasing order, and under each packed
height the batch. -/
structure Store.HeightsFrom (s : Store) (first : Height) (heights : List Height)
    (entries : List Entry) : Prop where
  increasing : heights.Pairwise (· < ·)
  mem_iff : ∀ h, h ∈ heights ↔ first ≤ h ∧ s.get? (Key.height h) ≠ none
  keys : entries.map Entry.key = heights.map Height.pack
  values : ∀ e ∈ entries, s.get? (Space.txsByHeight.key e.key) = some e.value

/-- What follows the tag is a packed height in every entry. -/
theorem exists_map_pack_eq (hkeyed : s.KeyedByHeight) (start : Bytes) :
    ∃ heights, List.map Height.pack heights =
      (Space.txsByHeight.suffixes start s.view).map Entry.key := by
  rw [← Set.mem_range, Set.range_list_map]
  intro key hkey
  obtain ⟨e, he, rfl⟩ := List.mem_map.1 hkey
  obtain ⟨hget, -⟩ := Space.mem_suffixes_iff.1 he
  rw [Store.get?_view] at hget
  have hpresent : s.get? (Space.txsByHeight.key e.key) ≠ none := by simp [hget]
  obtain ⟨h, hheight⟩ := hkeyed _ (List.prefix_append ..) hpresent
  exact ⟨h, (Space.key_inj.1 hheight).symm⟩

/-- The packed heights that are listed are those from the first on that have a batch. Before the
first there are none, because packed heights are in order. -/
theorem mem_suffixes_pack_iff {first h : Height} :
    h.pack ∈ (Space.txsByHeight.suffixes first.pack s.view).map Entry.key ↔
      first ≤ h ∧ s.get? (Key.height h) ≠ none := by
  have hle : ¬ h.pack < first.pack ↔ first ≤ h := by
    rw [Height.pack_lt_pack_iff, UInt64.not_lt]
  rw [List.mem_map, ← hle]
  constructor
  · rintro ⟨e, he, hkey⟩
    obtain ⟨hget, hge⟩ := Space.mem_suffixes_iff.1 he
    rw [hkey] at hget hge
    rw [Store.get?_view] at hget
    exact ⟨hge, by simp [Key.height, hget]⟩
  · rintro ⟨hge, hpresent⟩
    obtain ⟨value, hget⟩ := Option.ne_none_iff_exists'.1 hpresent
    rw [← Store.get?_view] at hget
    exact ⟨⟨h.pack, value⟩, Space.mem_suffixes_iff.2 ⟨hget, hge⟩, rfl⟩

/-- **Batches are listed in the order of the heights.** The order of the entries is that of their
keys, these are the packed heights, and packed heights stand in the order of the numbers. -/
theorem exists_heightsFrom (hkeyed : s.KeyedByHeight) (first : Height) :
    ∃ heights, s.HeightsFrom first heights (Space.txsByHeight.suffixes first.pack s.view) := by
  obtain ⟨heights, hheights⟩ := exists_map_pack_eq hkeyed first.pack
  refine ⟨heights, ?_, fun h => ?_, hheights.symm, fun e he => ?_⟩
  · -- The entries ascend by their keys, which are the packed heights.
    have hkeys : (List.map Height.pack heights).Pairwise (· < ·) := by
      rw [hheights, List.pairwise_map]
      exact Space.ascending_suffixes .txsByHeight first.pack s.view
    rw [List.pairwise_map] at hkeys
    exact hkeys.imp Height.pack_lt_pack_iff.1
  · -- A height is listed if its packed form is, for this tells it.
    have hinj : Function.Injective Height.pack := fun _ _ heq => Height.pack_inj.1 heq
    rw [← List.mem_map_of_injective hinj, hheights]
    exact mem_suffixes_pack_iff
  · obtain ⟨hget, -⟩ := Space.mem_suffixes_iff.1 he
    rwa [Store.get?_view] at hget

namespace Repository

/-- **The keys keep the spaces apart and the heights in order.** A key tells its space and what
follows the tag. In one space the keys are ordered as what follows the tag, and at the keys of
heights as the numbers, all 2^64 of them; a height is unpacked from its packed form alone. So where
the batches lie at keys of heights, going through them from a packed height on gives the heights
from there on that have a batch, in the order of the numbers and whatever the size of the pages. And
a scan or a cursor in one index, wherever it starts and however many entries it takes at a time,
meets neither the marker nor an entry of the other index. -/
theorem keys_ordered_and_apart :
    (∀ (space space' : Space) (a b : Bytes),
      space.key a = space'.key b ↔ space = space' ∧ a = b) ∧
    (∀ (space : Space) (key suffix : Bytes),
      space.strip? key = some suffix ↔ key = space.key suffix) ∧
    (∀ (space : Space) (a b : Bytes), space.key a < space.key b ↔ a < b) ∧
    (∀ h h' : Height, Key.height h < Key.height h' ↔ h.toNat < h'.toNat) ∧
    (∀ (bytes : Bytes) (h : Height), Height.unpack bytes = .ok h ↔ bytes = h.pack) ∧
    (∀ s : Store, s.KeyedByHeight → ∀ first : Height, ∃ heights entries,
      s.HeightsFrom first heights entries ∧ ∀ r : Repository,
        (r.iterateByHeight first.pack).Pages s (max 1 r.config.scanPageSize) entries) ∧
    ∀ (s : Store) (space : Space), space ≠ .metadata → s.Apart space := by
  refine ⟨fun space space' a b => Space.key_eq_key_iff, fun space key suffix =>
    Space.strip?_eq_some_iff, fun space a b => Space.key_lt_key_iff, fun h h' => ?_,
    fun bytes h => Height.unpack_eq_ok_iff, fun s hkeyed first => ?_,
    fun s space hindex => apart_of_ne_metadata s hindex⟩
  · rw [Key.height_lt_height_iff, UInt64.lt_iff_toNat_lt]
  · -- A cursor gives what follows the tags in pages, and here these are packed heights.
    obtain ⟨heights, hheights⟩ := exists_heightsFrom hkeyed first
    exact ⟨heights, _, hheights, fun r => Cursor.pages_of_suffixes .txsByHeight first.pack _ s⟩

/-- One height has been staged and the others committed, one of them below the first height asked
for and one of two bytes. -/
theorem keys_ordered_and_apart_past_one_byte :
    let committed := ((Table.empty.insert (Key.height 256) [2]).insert (Key.height 3) [1]).insert
      Key.marker (Marker.complete 256).encode
    let s : Store := { committed, staged := Table.empty.insert (Key.height 255) [4] }
    s.KeyedByHeight ∧ Space.txsByHeight ≠ .metadata ∧ s.Apart .txsByHeight ∧
      ∃ entries, s.HeightsFrom 4 [255, 256] entries ∧ ∀ r : Repository,
        (r.iterateByHeight (Height.pack 4)).Pages s (max 1 r.config.scanPageSize) entries := by
  intro committed s
  -- Four keys are there, whichever of the two tables they are in.
  have hstored (key : Bytes) : s.get? key ≠ none ↔ key = Key.height 255 ∨ key = Key.marker ∨
      key = Key.height 3 ∨ key = Key.height 256 := by
    have hinsert (t : Table) (other value : Bytes) :
        (t.insert other value).get? key ≠ none ↔ key = other ∨ t.get? key ≠ none := by
      rw [Table.get?_insert]
      by_cases heq : other = key
      · simp [heq]
      · simp [heq, Ne.symm heq]
    rw [← Store.get?_view]
    show (committed.insert (Key.height 255) [4]).get? key ≠ none ↔ _
    simp only [committed, hinsert, Table.get?_empty, ne_eq, not_true, or_false]
  have hkeyed : s.KeyedByHeight := by
    intro key htag hpresent
    rcases (hstored key).1 hpresent with rfl | rfl | rfl | rfl
    · exact ⟨255, rfl⟩
    · exact absurd (Space.tag_prefix_key_iff.1 htag) (by decide)
    · exact ⟨3, rfl⟩
    · exact ⟨256, rfl⟩
  obtain ⟨-, -, -, -, -, hlisted, hapart⟩ := keys_ordered_and_apart
  obtain ⟨heights, entries, hheights, hpages⟩ := hlisted s hkeyed 4
  -- The heights that are listed are determined by their members, because they ascend.
  have hmem (h : Height) : h ∈ heights ↔ h ∈ [(255 : Height), 256] := by
    rw [hheights.mem_iff, hstored]
    simp only [Key.height_inj, Key.height_ne_marker, List.mem_cons, List.not_mem_nil]
    constructor
    · rintro ⟨hge, rfl | h | rfl | rfl⟩
      · exact .inl rfl
      · cases h
      · exact absurd hge (by decide)
      · exact .inr (.inl rfl)
    · rintro (rfl | rfl | h)
      · exact ⟨by decide, .inl rfl⟩
      · exact ⟨by decide, .inr (.inr (.inr rfl))⟩
      · cases h
  have heq : heights = [255, 256] := hheights.increasing.eq_of_mem_iff (by decide) hmem
  subst heq
  exact ⟨hkeyed, by decide, hapart s _ (by decide), entries, hheights, hpages⟩

end Repository

end TxIndex

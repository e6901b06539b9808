import Mathlib.Data.List.Sort
import TxIndex.Table.Lemmas

/-!
# Parts of ordered tables

What a scan returns is cut out of a table twice: by the keys that lie in a range, and by a bound on
their number. Both cuts are described here on the entries.

* `Table.insertAll` is many insertions, `insertAll_induct` the way to reason about them.
* `Table.filter` keeps the keys of a family, `Table.take` the first few; `range_eq_take_filter` says that a
  range is one after the other.
* `filter_overlay`: the keys of a family can be cut out before or after an overlay.
* `take_overlay`: the first `n` entries of an overlay can be found among the first `n` of each side,
  even where one side hides entries of the other.
-/

namespace TxIndex

/-! ## Strings that begin with the same bytes

In the order of byte strings they stand together, behind the string of those bytes alone. -/

/-- What stands between a prefix and a string with this prefix has the prefix too. So a scan may
stop at the first key without it. -/
theorem Bytes.prefix_of_between {pre a b : Bytes} (hge : ¬ a < pre) (hlt : a < b)
    (hb : pre <+: b) : pre <+: a := by
  induction pre generalizing a b with
  | nil => exact List.nil_prefix
  | cons c pre ih =>
    obtain ⟨rest, rfl⟩ := hb
    cases a with
    | nil => exact absurd (List.nil_lt_cons c pre) hge
    | cons d a =>
      rw [List.cons_append, List.cons_lt_cons_iff] at hlt
      rw [List.cons_lt_cons_iff] at hge
      -- The first byte is not smaller than that of the prefix, and not greater than that of a
      -- string with it.
      have hdc : d = c := by
        rcases hlt with hlt | ⟨heq, _⟩
        · exact absurd (.inl hlt) hge
        · exact heq
      subst hdc
      have hge' : ¬ a < pre := fun h => hge (.inr ⟨rfl, h⟩)
      have hlt' : a < pre ++ rest := by
        rcases hlt with hlt | ⟨_, hlt⟩
        · exact absurd (.inl hlt) hge
        · exact hlt
      exact (List.prefix_cons_inj d).2 (ih hge' hlt' (List.prefix_append pre rest))

namespace Table

instance : Std.Irrefl Entry.Before := ⟨fun e => Bytes.lt_irrefl e.key⟩

instance : Std.Antisymm Entry.Before := ⟨fun _ _ h h' => absurd h' (Bytes.lt_asymm h)⟩

/-! ## Two insertions -/

theorem insert_comm (t : Table) {k k' v v' : Bytes} (hne : k ≠ k') :
    (t.insert k v).insert k' v' = (t.insert k' v').insert k v := by
  refine ext_get? fun key => ?_
  rw [get?_insert, get?_insert, get?_insert, get?_insert]
  by_cases hk : k = key
  · have hk' : k' ≠ key := fun heq => hne (hk.trans heq.symm)
    rw [if_neg hk', if_pos hk, if_pos hk]
  · rw [if_neg hk, if_neg hk]

/-- Of two insertions under one key the later one counts. -/
theorem insert_insert (t : Table) (k v v' : Bytes) : (t.insert k v).insert k v' = t.insert k v' := by
  refine ext_get? fun key => ?_
  rw [get?_insert, get?_insert, get?_insert]
  by_cases hk : k = key
  · rw [if_pos hk, if_pos hk]
  · rw [if_neg hk, if_neg hk, if_neg hk]

/-! ## Many insertions -/

/-- The entries inserted one after the other. -/
def insertAll (t : Table) (entries : List Entry) : Table :=
  entries.foldl (fun t e => t.insert e.key e.value) t

theorem insertAll_cons (t : Table) (e : Entry) (entries : List Entry) :
    t.insertAll (e :: entries) = (t.insert e.key e.value).insertAll entries := rfl

theorem insertAll_append (t : Table) (first second : List Entry) :
    t.insertAll (first ++ second) = (t.insertAll first).insertAll second :=
  List.foldl_append

/-- What each of the insertions keeps, all of them keep. The properties of a write that is
interrupted are proved with this, put by put. -/
theorem insertAll_induct {P : Table → Prop} {t : Table} {entries : List Entry}
    (hstep : ∀ t, ∀ e ∈ entries, P t → P (t.insert e.key e.value)) (ht : P t) :
    P (t.insertAll entries) := by
  induction entries generalizing t with
  | nil => exact ht
  | cons e entries ih =>
    have hrest : ∀ u, ∀ d ∈ entries, P u → P (u.insert d.key d.value) :=
      fun u d hd => hstep u d (List.mem_cons_of_mem _ hd)
    exact ih hrest (hstep t e List.mem_cons_self ht)

theorem get?_insertAll_of_ne {t : Table} {entries : List Entry} {key : Bytes}
    (h : ∀ e ∈ entries, e.key ≠ key) : (t.insertAll entries).get? key = t.get? key := by
  refine insertAll_induct (P := fun u => u.get? key = t.get? key) (fun u e he hu => ?_) rfl
  rw [get?_insert, if_neg (h e he), hu]

/-- What is found after many insertions is one of them, or was there before. -/
theorem mem_or_get?_of_get?_insertAll {t : Table} {entries : List Entry} {key value : Bytes}
    (h : (t.insertAll entries).get? key = some value) :
    ⟨key, value⟩ ∈ entries ∨ t.get? key = some value := by
  refine insertAll_induct
    (P := fun u => u.get? key = some value → ⟨key, value⟩ ∈ entries ∨ t.get? key = some value)
    (fun u e he hu hget => ?_) .inr h
  rw [get?_insert] at hget
  split at hget
  · next hkey =>
    cases hget
    subst hkey
    exact .inl he
  · exact hu hget

/-- A key that one of them inserts has something after all of them. -/
theorem exists_get?_insertAll {t : Table} {entries : List Entry} {key : Bytes}
    (h : ∃ e ∈ entries, e.key = key) : ∃ value, (t.insertAll entries).get? key = some value := by
  induction entries generalizing t with
  | nil =>
    obtain ⟨e, he, -⟩ := h
    exact absurd he List.not_mem_nil
  | cons e entries ih =>
    -- A later insertion of the key decides, or the first one stays.
    by_cases hrest : ∃ d ∈ entries, d.key = key
    · exact ih hrest
    · have hkey : e.key = key := by
        obtain ⟨d, hd, hkey⟩ := h
        rcases List.mem_cons.1 hd with rfl | hd
        · exact hkey
        · exact absurd ⟨d, hd, hkey⟩ hrest
      have hne : ∀ d ∈ entries, d.key ≠ key := fun d hd heq => hrest ⟨d, hd, heq⟩
      refine ⟨e.value, ?_⟩
      rw [insertAll_cons, get?_insertAll_of_ne hne, hkey, get?_insert_self]

/-- Where no key is inserted twice, every insertion stays: those behind it are under other keys. -/
theorem get?_insertAll_of_mem {t : Table} {entries : List Entry} {e : Entry}
    (hnodup : (entries.map Entry.key).Nodup) (he : e ∈ entries) :
    (t.insertAll entries).get? e.key = some e.value := by
  induction entries generalizing t with
  | nil => exact absurd he List.not_mem_nil
  | cons first entries ih =>
    rw [List.map_cons, List.nodup_cons] at hnodup
    rw [insertAll_cons]
    rcases List.mem_cons.1 he with rfl | hrest
    · have hne : ∀ d ∈ entries, d.key ≠ e.key :=
        fun d hd heq => hnodup.1 (heq ▸ List.mem_map_of_mem hd)
      rw [get?_insertAll_of_ne hne, get?_insert_self]
    · exact ih hnodup.2 hrest

/-! ## The keys of a family -/

/-- The part of the table with the keys of a family. -/
def filter (t : Table) (p : Bytes → Bool) : Table :=
  ⟨t.entries.filter fun e => p e.key, t.ascending.sublist List.filter_sublist⟩

theorem mem_entries_filter {t : Table} {p : Bytes → Bool} {e : Entry} :
    e ∈ (t.filter p).entries ↔ e ∈ t.entries ∧ p e.key = true := by
  simp [filter]

/-- A key of the family is found in the part as in the table, and no other key is. -/
theorem get?_filter (t : Table) (p : Bytes → Bool) (key : Bytes) :
    (t.filter p).get? key = if p key then t.get? key else none := by
  apply Option.ext
  intro value
  rw [← mem_entries_iff, mem_entries_filter, mem_entries_iff]
  by_cases hp : p key = true
  · simp [hp]
  · simp [hp]

/-- A family can be cut out before or after an overlay, for an overlay looks at each key by
itself. -/
theorem filter_overlay (base top : Table) (p : Bytes → Bool) :
    (base.filter p).overlay (top.filter p) = (base.overlay top).filter p :=
  ext_get? fun key => by
    rw [get?_overlay, get?_filter, get?_filter, get?_filter, get?_overlay]
    by_cases hp : p key = true
    · simp [hp]
    · simp [hp]

/-! ## The first few entries -/

/-- The part with the first `n` entries. -/
def take (t : Table) (n : Nat) : Table :=
  ⟨t.entries.take n, t.ascending.sublist (List.take_sublist n _)⟩

/-- How many keys stand before `key`. -/
def rank (t : Table) (key : Bytes) : Nat :=
  (t.entries.filter fun e => decide (e.key < key)).length

/-- The first `n` entries are those with fewer than `n` keys before them. In this form the place of
an entry is told by the keys, and can be compared between tables. -/
theorem mem_take_iff {t : Table} {n : Nat} {e : Entry} :
    e ∈ t.entries.take n ↔ e ∈ t.entries ∧ t.rank e.key < n := by
  obtain ⟨entries, ascending⟩ := t
  simp only [rank]
  induction ascending generalizing n with
  | nil => simp
  | @cons first rest hfirst hrest ih =>
    -- Nothing stands before the first entry, and it stands before all others.
    have hnone : (first :: rest).filter (fun d => decide (d.key < first.key)) = [] := by
      refine List.filter_eq_nil_iff.2 fun d hd => ?_
      rcases List.mem_cons.1 hd with rfl | hd
      · simp
      · simpa using Bytes.lt_asymm (hfirst d hd)
    cases n with
    | zero => simp
    | succ n =>
      rw [List.take_succ_cons, List.mem_cons, ih, List.mem_cons]
      by_cases heq : e = first
      · subst heq
        simp [hnone]
      · have hcount (hmem : e ∈ rest) :
            ((first :: rest).filter fun d => decide (d.key < e.key)).length =
              (rest.filter fun d => decide (d.key < e.key)).length + 1 := by
          have hlt : first.key < e.key := hfirst e hmem
          rw [List.filter_cons_of_pos (by simpa using hlt), List.length_cons]
        constructor
        · rintro (h | ⟨hmem, hlt⟩)
          · exact absurd h heq
          · exact ⟨.inr hmem, by rw [hcount hmem]; omega⟩
        · rintro ⟨h | hmem, hlt⟩
          · exact absurd h heq
          · rw [hcount hmem] at hlt
            exact .inr ⟨hmem, by omega⟩

theorem nodup_keys (t : Table) : (t.entries.map Entry.key).Nodup := by
  rw [List.nodup_iff_pairwise_ne, List.pairwise_map]
  exact t.ascending.imp fun h => Bytes.ne_of_lt h

/-- Where all keys of one table are keys of another, no more of them stand before a key. They are
counted as sets of keys, for the values may differ. -/
theorem rank_le_rank {s t : Table} (h : ∀ key, s.get? key ≠ none → t.get? key ≠ none)
    (key : Bytes) : s.rank key ≤ t.rank key := by
  have hsub : (s.entries.filter fun e => decide (e.key < key)).map Entry.key ⊆
      (t.entries.filter fun e => decide (e.key < key)).map Entry.key := by
    intro k hk
    obtain ⟨e, he, rfl⟩ := List.mem_map.1 hk
    obtain ⟨hmem, hlt⟩ := List.mem_filter.1 he
    have hs : s.get? e.key = some e.value := mem_entries_iff.1 hmem
    obtain ⟨value, ht⟩ := Option.ne_none_iff_exists'.1 (h e.key (by simp [hs]))
    exact List.mem_map.2 ⟨⟨e.key, value⟩, List.mem_filter.2 ⟨mem_entries_iff.2 ht, hlt⟩, rfl⟩
  have hnodup : ((s.entries.filter fun e => decide (e.key < key)).map Entry.key).Nodup :=
    s.nodup_keys.sublist (List.filter_sublist.map _)
  -- The keys on the one side are among those on the other, and none is there twice.
  have hlen := (List.subperm_of_subset hnodup hsub).length_le
  rwa [List.length_map, List.length_map] at hlen

/-- Where all keys of one table are keys of another, the other has no fewer of them. -/
theorem size_le_size {s t : Table} (h : ∀ key, s.get? key ≠ none → t.get? key ≠ none) :
    s.size ≤ t.size := by
  have hsub : s.entries.map Entry.key ⊆ t.entries.map Entry.key := by
    intro k hk
    obtain ⟨e, hmem, rfl⟩ := List.mem_map.1 hk
    have hs : s.get? e.key = some e.value := mem_entries_iff.1 hmem
    obtain ⟨value, ht⟩ := Option.ne_none_iff_exists'.1 (h e.key (by simp [hs]))
    exact List.mem_map.2 ⟨⟨e.key, value⟩, mem_entries_iff.2 ht, rfl⟩
  have hlen := (List.subperm_of_subset s.nodup_keys hsub).length_le
  rwa [List.length_map, List.length_map] at hlen

/-- A key is found in the first part if fewer than `n` stand before it. -/
theorem get?_take_eq_some_iff {t : Table} {n : Nat} {key value : Bytes} :
    (t.take n).get? key = some value ↔ t.get? key = some value ∧ t.rank key < n := by
  rw [← mem_entries_iff, ← mem_entries_iff]
  exact mem_take_iff

theorem get?_take_of_rank_lt {t : Table} {n : Nat} {key : Bytes} (h : t.rank key < n) :
    (t.take n).get? key = t.get? key := by
  apply Option.ext
  intro value
  rw [get?_take_eq_some_iff]
  exact ⟨fun hv => hv.1, fun hv => ⟨hv, h⟩⟩

/-! ## The first entries of an overlay

A key among the first `n` of the overlay has fewer than `n` keys before it on either side, so each
side still holds it after the cut. Nothing else can get in front of it: what is cut away only makes
room. -/

/-- What is found in the overlay of two first parts is found in the overlay of the wholes. The value
may be another one, hidden by what was cut away. -/
theorem get?_overlay_take_ne_none {base top : Table} {n : Nat} {key : Bytes}
    (h : ((base.take n).overlay (top.take n)).get? key ≠ none) :
    (base.overlay top).get? key ≠ none := by
  rw [get?_overlay] at h ⊢
  obtain ⟨value, hv⟩ := Option.ne_none_iff_exists'.1 h
  rcases Option.or_eq_some_iff.1 hv with htop | ⟨_, hbase⟩
  · simp [(get?_take_eq_some_iff.1 htop).1]
  · simp [(get?_take_eq_some_iff.1 hbase).1]

/-- The first entries of the whole overlay are among the first ones of the cut overlay, with their
values. -/
theorem take_overlay_subset (base top : Table) (n : Nat) :
    (base.overlay top).entries.take n ⊆ ((base.take n).overlay (top.take n)).entries.take n := by
  intro e he
  obtain ⟨hmem, hrank⟩ := mem_take_iff.1 he
  -- Each side has no more keys in front of it than the overlay has.
  have hbase : base.rank e.key < n := by
    refine Nat.lt_of_le_of_lt (rank_le_rank (fun key h => ?_) e.key) hrank
    rw [get?_overlay]
    cases top.get? key <;> simp_all
  have htop : top.rank e.key < n := by
    refine Nat.lt_of_le_of_lt (rank_le_rank (fun key h => ?_) e.key) hrank
    rw [get?_overlay]
    cases htop : top.get? key <;> simp_all
  have hget : ((base.take n).overlay (top.take n)).get? e.key = some e.value := by
    rw [get?_overlay, get?_take_of_rank_lt hbase, get?_take_of_rank_lt htop, ← get?_overlay]
    exact mem_entries_iff.1 hmem
  have hle : ((base.take n).overlay (top.take n)).rank e.key ≤ (base.overlay top).rank e.key :=
    rank_le_rank (fun _ => get?_overlay_take_ne_none) e.key
  exact mem_take_iff.2 ⟨mem_entries_iff.2 hget, by omega⟩

/-- **Both sides of an overlay may be cut before its first entries are taken.** They are a sublist
of what comes out of the cut sides, and these have no more entries to give, so they are all of
it. -/
theorem take_overlay (base top : Table) (n : Nat) :
    ((base.take n).overlay (top.take n)).entries.take n = (base.overlay top).entries.take n := by
  have hwhole := ((base.overlay top).take n).ascending
  have hcut := (((base.take n).overlay (top.take n)).take n).ascending
  have hnodup : ((base.overlay top).entries.take n).Nodup := hwhole.nodup
  have hsub := List.sublist_of_subperm_of_pairwise
    (List.subperm_of_subset hnodup (take_overlay_subset base top n)) hwhole hcut
  have hsize : ((base.take n).overlay (top.take n)).size ≤ (base.overlay top).size :=
    size_le_size fun _ => get?_overlay_take_ne_none
  refine (hsub.eq_of_length_le ?_).symm
  unfold size at hsize
  rw [List.length_take, List.length_take]
  omega

/-! ## Ranges -/

/-- The keys from `start` on that begin with `pre`. -/
def inRange (start pre key : Bytes) : Bool :=
  !decide (key < start) && pre.isPrefixOf key

/-- In an ordered list, to leave out entries as long as they are before the start is to leave out
all of them. -/
theorem dropWhile_lt_eq_filter {entries : List Entry} (h : entries.Pairwise Entry.Before)
    (start : Bytes) :
    (entries.dropWhile fun e => decide (e.key < start)) =
      entries.filter fun e => !decide (e.key < start) := by
  induction h with
  | nil => rfl
  | @cons first rest hfirst _ ih =>
    rw [List.dropWhile_cons, List.filter_cons]
    by_cases hlt : first.key < start
    · simp [hlt, ih]
    · -- The first entry is kept, so those behind it, with greater keys, are too.
      have hall : ∀ e ∈ rest, ¬ e.key < start := fun e he hlt' =>
        hlt (Bytes.lt_trans (hfirst e he) hlt')
      have hrest : (rest.filter fun e => !decide (e.key < start)) = rest :=
        List.filter_eq_self.2 fun e he => by simp [hall e he]
      simp [hlt, hrest]

/-- Behind the start, to take entries as long as they have the prefix is to take all of them: those
with the prefix stand together. -/
theorem takeWhile_prefix_eq_filter {entries : List Entry} (h : entries.Pairwise Entry.Before)
    {pre : Bytes} (hge : ∀ e ∈ entries, ¬ e.key < pre) :
    (entries.takeWhile fun e => pre.isPrefixOf e.key) =
      entries.filter fun e => pre.isPrefixOf e.key := by
  induction h with
  | nil => rfl
  | @cons first rest hfirst _ ih =>
    have hfge : ¬ first.key < pre := hge first List.mem_cons_self
    rw [List.takeWhile_cons, List.filter_cons]
    by_cases hp : pre.isPrefixOf first.key = true
    · rw [if_pos hp, if_pos hp, ih fun e he => hge e (List.mem_cons_of_mem _ he)]
    · -- Behind a key that does not begin with `pre` there is none that does.
      have hnone : (rest.filter fun e => pre.isPrefixOf e.key) = [] := by
        refine List.filter_eq_nil_iff.2 fun e he hpe => hp ?_
        exact List.isPrefixOf_iff_prefix.2 <|
          Bytes.prefix_of_between hfge (hfirst e he) (List.isPrefixOf_iff_prefix.1 hpe)
      rw [if_neg hp, if_neg hp, hnone]

/-- A range that does not start before its family is cut out by the keys. The start is needed to be
in the family or behind it, since a range stops at the first key that is not in it. -/
theorem range_eq_take_filter (t : Table) {start pre : Bytes} (h : ¬ start < pre) (limit : Nat) :
    t.range start pre limit = (t.filter (inRange start pre)).take limit := by
  -- What is not before the start is not before the prefix, either.
  have hge : ∀ e ∈ t.entries.filter fun e => !decide (e.key < start), ¬ e.key < pre := by
    intro e he hlt
    have hstart : ¬ e.key < start := by simpa using (List.mem_filter.1 he).2
    exact h (Bytes.lt_of_not_lt_of_lt hstart hlt)
  have hasc := t.ascending.sublist (List.filter_sublist (p := fun e => !decide (e.key < start)))
  have hentries : (t.range start pre limit).entries =
      ((t.filter (inRange start pre)).take limit).entries := by
    show (List.takeWhile _ (List.dropWhile _ t.entries)).take limit = (t.entries.filter _).take limit
    rw [dropWhile_lt_eq_filter t.ascending, takeWhile_prefix_eq_filter hasc hge,
      List.filter_filter]
    simp only [inRange, Bool.and_comm]
  cases hrange : t.range start pre limit
  rw [hrange] at hentries
  cases hentries
  rfl

end Table

end TxIndex

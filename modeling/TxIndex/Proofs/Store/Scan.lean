import TxIndex.Proofs.Table.Parts
import TxIndex.Space
import TxIndex.Store.Lemmas

/-!
# Scans read the view

A scan reads only the first few entries of the committed data and of the staged writes, from a
start that it may have moved up. What it returns is nevertheless told by the view alone: the first
few entries of its `Table.listing` (`scan_eq_take_listing`).

A reader goes on behind the last entry that it was given. `listing_successor_of_last` says that it
then finds what it has not been given.

`exists_lists_scan` says the same without the view: what a scan is the beginning of are the answers
of `Store.get?` for the keys in the range.
-/

namespace TxIndex

/-! ## The key behind a key -/

/-- The successor of a key stands directly behind it: whatever is greater than the key is not before
the successor. -/
theorem Key.not_lt_successor_iff {key other : Bytes} :
    ¬ other < Key.successor key ↔ key < other := by
  refine ⟨fun h => ?_, fun h hlt => ?_⟩
  · exact Bytes.lt_of_lt_of_not_lt (Bytes.lt_append_cons key 0 []) h
  · -- Something between them would begin with the key and go on before a zero.
    unfold Key.successor at hlt
    induction key generalizing other with
    | nil =>
      cases other with
      | nil => exact Bytes.lt_irrefl [] h
      | cons d other =>
        rcases List.cons_lt_cons_iff.1 hlt with hd | ⟨_, hrest⟩
        · exact absurd hd (by simp)
        · exact absurd hrest (List.not_lt_nil other)
    | cons c key ih =>
      cases other with
      | nil => exact absurd h (List.not_lt_nil _)
      | cons d other =>
        rcases List.cons_lt_cons_iff.1 hlt with hdc | ⟨rfl, hrest⟩
        · rcases List.cons_lt_cons_iff.1 h with hcd | ⟨rfl, _⟩
          · exact absurd (UInt8.lt_trans hdc hcd) (UInt8.lt_irrefl d)
          · exact absurd hdc (UInt8.lt_irrefl _)
        · exact ih (List.cons_lt_cons_self.1 h) hrest

namespace Table

/-! ## Listings -/

/-- The entries from `start` on whose keys begin with `pre`. -/
def listing (start pre : Bytes) (t : Table) : List Entry :=
  t.entries.filter fun e => inRange start pre e.key

variable {start pre : Bytes} {t : Table}

theorem mem_listing_iff {e : Entry} :
    e ∈ t.listing start pre ↔ e ∈ t.entries ∧ ¬ e.key < start ∧ pre <+: e.key := by
  unfold listing inRange
  simp [List.mem_filter]

theorem ascending_listing (start pre : Bytes) (t : Table) :
    (t.listing start pre).Pairwise Entry.Before :=
  t.ascending.sublist List.filter_sublist

theorem length_listing_le (start pre : Bytes) (t : Table) : (t.listing start pre).length ≤ t.size :=
  List.length_filter_le ..

/-- The listing from a later start on is part of the listing. -/
theorem listing_later {later : Bytes} (h : ¬ later < start) :
    t.listing later pre = (t.listing start pre).filter fun e => !decide (e.key < later) := by
  unfold listing
  rw [List.filter_filter]
  refine List.filter_congr fun e _ => ?_
  by_cases hlt : e.key < start
  · have hlater : e.key < later := Bytes.lt_of_lt_of_not_lt hlt h
    simp [inRange, hlt, hlater]
  · simp [inRange, hlt]

/-- From the key of an entry on stand that entry and those behind it. -/
theorem listing_key {first rest : List Entry} {e : Entry}
    (h : t.listing start pre = first ++ e :: rest) : t.listing e.key pre = e :: rest := by
  have hasc := ascending_listing start pre t
  have hge : ¬ e.key < start := (mem_listing_iff.1 (h ▸ by simp : e ∈ t.listing start pre)).2.1
  rw [h] at hasc
  obtain ⟨-, hrest, hcross⟩ := List.pairwise_append.1 hasc
  -- The entries ascend, so none of the first ones is left, and all of the others are.
  have hbefore : first.filter (fun d => !decide (d.key < e.key)) = [] := by
    refine List.filter_eq_nil_iff.2 fun d hd => ?_
    have hlt : d.key < e.key := hcross d hd e List.mem_cons_self
    simp [hlt]
  have hbehind : (e :: rest).filter (fun d => !decide (d.key < e.key)) = e :: rest := by
    refine List.filter_eq_self.2 fun d hd => ?_
    rcases List.mem_cons.1 hd with rfl | hd
    · simp [Bytes.lt_irrefl]
    · have hlt : e.key < d.key := (List.pairwise_cons.1 hrest).1 d hd
      simp [Bytes.lt_asymm hlt]
  rw [listing_later hge, h, List.filter_append, hbefore, hbehind, List.nil_append]

/-- From the successor of a key on stand the entries behind that of the key. -/
theorem listing_successor {first rest : List Entry} {e : Entry}
    (h : t.listing start pre = first ++ e :: rest) :
    t.listing (Key.successor e.key) pre = rest := by
  have hkey := listing_key h
  have hasc := ascending_listing e.key pre t
  rw [hkey] at hasc
  have hlt : e.key < Key.successor e.key := Bytes.lt_append_cons e.key 0 []
  rw [listing_later (Bytes.lt_asymm hlt), hkey, List.filter_cons_of_neg (by simp [hlt])]
  refine List.filter_eq_self.2 fun d hd => ?_
  have hd : e.key < d.key := (List.pairwise_cons.1 hasc).1 d hd
  simp [Key.not_lt_successor_iff.2 hd]

/-- A reader that goes on behind the last entry of a page finds the rest. The place to go on from is
the last key with a zero behind it, and no key is between the two. -/
theorem listing_successor_of_last {n : Nat} {e : Entry}
    (h : ((t.listing start pre).take n).getLast? = some e) :
    t.listing (Key.successor e.key) pre = (t.listing start pre).drop n := by
  obtain ⟨first, hfirst⟩ := List.getLast?_eq_some_iff.1 h
  have hsplit : t.listing start pre = first ++ e :: (t.listing start pre).drop n := by
    rw [List.append_cons, ← hfirst, List.take_append_drop]
  exact listing_successor hsplit

/-- A page that is shorter than asked for is the whole rest. -/
theorem take_listing_of_short {n : Nat} (h : ((t.listing start pre).take n).length < n) :
    (t.listing start pre).take n = t.listing start pre := by
  rw [List.length_take] at h
  exact List.take_of_length_le (by omega)

/-! ## Scans -/

/-- No key with the beginning `pre` stands before `pre`, so a start before it may be moved up
without leaving anything out. -/
theorem inRange_clamp (start pre key : Bytes) :
    inRange (if start < pre then pre else start) pre key = inRange start pre key := by
  unfold inRange
  by_cases hp : pre.isPrefixOf key = true
  · have hge : ¬ key < pre := Bytes.not_lt_of_prefix (List.isPrefixOf_iff_prefix.1 hp)
    by_cases hlt : start < pre
    · have hstart : ¬ key < start := fun h => hge (Bytes.lt_trans h hlt)
      simp [hlt, hge, hstart]
    · simp [hlt]
  · simp [hp]

end Table

namespace Store

/-- **A scan is the beginning of a listing of the view.** It cuts both sides at the limit before it
overlays them, which loses nothing (`take_overlay`), and it starts behind the start where nothing
has the prefix before, which leaves nothing out (`inRange_clamp`). -/
theorem scan_eq_take_listing (s : Store) (start pre : Bytes) (limit : Nat) :
    s.scan start pre limit = (s.view.listing start pre).take limit := by
  have hlower : ¬ (if start < pre then pre else start) < pre := by
    split
    · exact Bytes.lt_irrefl pre
    · assumption
  simp only [scan]
  rw [Table.range_eq_take_filter _ hlower, Table.range_eq_take_filter _ hlower,
    Table.take_overlay, Table.filter_overlay]
  show (s.view.entries.filter _).take limit = (s.view.entries.filter _).take limit
  simp only [Table.inRange_clamp]

/-! ## Scans and look-ups -/

/-- The entries are every key that is staged or committed, with what `get?` finds there, as far as
it is not before `start` and begins with `pre`; their keys ascend strictly. -/
structure Lists (s : Store) (start pre : Bytes) (entries : List Entry) : Prop where
  ascending : entries.Pairwise Entry.Before
  mem_iff : ∀ key value, ⟨key, value⟩ ∈ entries ↔
    (s.staged.get? key ≠ none ∨ s.committed.get? key ≠ none) ∧ s.get? key = some value ∧
      ¬ key < start ∧ pre <+: key

theorem lists_listing (s : Store) (start pre : Bytes) :
    s.Lists start pre (s.view.listing start pre) where
  ascending := Table.ascending_listing start pre s.view
  mem_iff key value := by
    rw [Table.mem_listing_iff, Table.mem_entries_iff, get?_view]
    refine ⟨fun h => ⟨?_, h⟩, fun h => h.2⟩
    -- A key that is found has been found on one of the two sides.
    rcases Option.or_eq_some_iff.1 h.1 with hstaged | ⟨-, hcommitted⟩
    · exact .inl (by simp [hstaged])
    · exact .inr (by simp [hcommitted])

/-- The order and the members leave no choice: two such lists are the entries of two tables that
hold the same. -/
theorem Lists.unique {s : Store} {start pre : Bytes} {entries other : List Entry}
    (h : s.Lists start pre entries) (h' : s.Lists start pre other) : other = entries := by
  have htable : (⟨other, h'.ascending⟩ : Table) = ⟨entries, h.ascending⟩ := by
    refine Table.ext_get? fun key => Option.ext fun value => ?_
    rw [← Table.mem_entries_iff, ← Table.mem_entries_iff]
    exact (h'.mem_iff key value).trans (h.mem_iff key value).symm
  exact congrArg Table.entries htable

/-- **Scans agree with look-ups.** Whatever is committed and whatever is staged over it, there is
one list of what `get?` finds from `start` on under the prefix, and a scan with a limit returns as
many of its first entries. -/
theorem exists_lists_scan (s : Store) (start pre : Bytes) :
    ∃ entries, (∀ other, s.Lists start pre other ↔ other = entries) ∧
      ∀ limit, s.scan start pre limit = entries.take limit := by
  have hlists := lists_listing s start pre
  refine ⟨s.view.listing start pre, fun other => ⟨fun h => hlists.unique h, ?_⟩,
    scan_eq_take_listing s start pre⟩
  rintro rfl
  exact hlists

end Store

end TxIndex

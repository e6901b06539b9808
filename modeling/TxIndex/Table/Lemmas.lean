import TxIndex.Table.Basic

/-!
# Laws of ordered tables

A table is determined by its look-ups (`ext_get?`), and each operation is described by what it does
to them:

* `get?_insert`: an insertion changes the look-up of its own key alone;
* `get?_overlay`: in an overlay the upper table answers first;
* `mem_entries_iff`: the entries are the successful look-ups;
* `mem_of_mem_range`: a range holds entries of the table that lie in the range.
-/

namespace TxIndex.Table

/-! ## Entries and look-ups -/

/-- A key occurs once: in an ascending list an entry before or behind another has a different
key. -/
theorem eq_of_mem_of_key_eq {entries : List Entry} (h : entries.Pairwise Entry.Before)
    {d e : Entry} (hd : d ∈ entries) (he : e ∈ entries) (hkey : d.key = e.key) : d = e := by
  induction h with
  | nil => cases hd
  | @cons first rest hfirst _ ih =>
    rcases List.mem_cons.1 hd with hd' | hd' <;> rcases List.mem_cons.1 he with he' | he'
    · rw [hd', he']
    · exact absurd hkey (Bytes.ne_of_lt (hd' ▸ hfirst e he'))
    · exact absurd hkey.symm (Bytes.ne_of_lt (he' ▸ hfirst d hd'))
    · exact ih hd' he'

/-- The entries of a table are its successful look-ups. -/
theorem mem_entries_iff {t : Table} {key value : Bytes} :
    ⟨key, value⟩ ∈ t.entries ↔ t.get? key = some value := by
  unfold get?
  constructor
  · intro hmem
    cases hfind : t.entries.find? fun e => e.key == key with
    | none =>
      have hne := List.find?_eq_none.1 hfind _ hmem
      simp at hne
    | some e =>
      have hkey : e.key = key := by simpa using List.find?_some hfind
      -- The search stops at the first entry with the key, and there is no other one.
      have he := eq_of_mem_of_key_eq t.ascending (List.mem_of_find?_eq_some hfind) hmem hkey
      simp [he]
  · intro hget
    obtain ⟨e, hfind, rfl⟩ := Option.map_eq_some_iff.1 hget
    have hkey : e.key = key := by simpa using List.find?_some hfind
    subst hkey
    exact List.mem_of_find?_eq_some hfind

/-- Two tables that answer every look-up alike are equal. -/
theorem ext_get? {s t : Table} (h : ∀ key, s.get? key = t.get? key) : s = t := by
  -- The look-ups fix the members, and the order fixes their arrangement.
  have hmem : ∀ e, e ∈ s.entries ↔ e ∈ t.entries := by
    intro e
    have hs := @mem_entries_iff s e.key e.value
    rw [h, ← mem_entries_iff] at hs
    exact hs
  have hnodup : ∀ u : Table, u.entries.Nodup := fun u => by
    refine u.ascending.imp ?_
    intro d e hlt heq
    exact Bytes.ne_of_lt hlt (congrArg Entry.key heq)
  have hperm : s.entries.Perm t.entries :=
    (List.perm_ext_iff_of_nodup (hnodup s) (hnodup t)).2 hmem
  have hentries : s.entries = t.entries :=
    hperm.eq_of_pairwise
      (fun _ _ _ _ hde hed => absurd hed (Bytes.lt_asymm hde)) s.ascending t.ascending
  cases s
  cases t
  cases hentries
  rfl

@[simp] theorem get?_empty (key : Bytes) : empty.get? key = none := rfl

/-! ## Insertion -/

/-- Looking up in a list after an insertion, case by case along the insertion. It is stated of
lists, for there the induction can be made; `get?_insert` says it of tables. -/
theorem find?_insertEntry (new : Entry) (entries : List Entry)
    (h : entries.Pairwise Entry.Before) (key : Bytes) :
    (insertEntry new entries).find? (fun e => e.key == key) =
      if new.key = key then some new else entries.find? fun e => e.key == key := by
  induction entries with
  | nil =>
    by_cases heq : new.key = key <;> simp [insertEntry, heq]
  | cons e rest ih =>
    obtain ⟨hfirst, hrest⟩ := List.pairwise_cons.1 h
    unfold insertEntry
    split
    · by_cases heq : new.key = key <;> simp [heq]
    · next hnlt =>
      split
      · next hgt =>
        -- The new entry goes further back, so the first one is found as before.
        have hne : new.key ≠ e.key := (Bytes.ne_of_lt hgt).symm
        by_cases hkey : e.key = key
        · have hnew : new.key ≠ key := hkey ▸ hne
          simp [hkey, hnew]
        · simp [hkey, ih hrest]
      · next hngt =>
        -- It takes the place of the first one, and with it the key.
        have heq : new.key = e.key := Bytes.eq_of_not_lt hnlt hngt
        by_cases hkey : new.key = key
        · simp [hkey]
        · have hkey' : e.key ≠ key := heq ▸ hkey
          simp [hkey, hkey']

/-- An insertion changes the look-up of its own key alone. -/
theorem get?_insert (t : Table) (key value other : Bytes) :
    (t.insert key value).get? other = if key = other then some value else t.get? other := by
  simp only [get?, insert, find?_insertEntry _ _ t.ascending]
  split <;> simp

/-- What has been inserted is found. -/
@[simp] theorem get?_insert_self (t : Table) (key value : Bytes) :
    (t.insert key value).get? key = some value := by
  simp [get?_insert]

/-- An insertion leaves the entries of every family that its key is not in. -/
theorem filter_entries_insert (t : Table) (key value : Bytes) (p : Entry → Bool)
    (hnew : p ⟨key, value⟩ = false) (hold : ∀ e : Entry, e.key = key → p e = false) :
    (t.insert key value).entries.filter p = t.entries.filter p := by
  simp only [insert]
  generalize t.entries = entries
  induction entries with
  | nil => simp [insertEntry, hnew]
  | cons e rest ih =>
    unfold insertEntry
    split
    · simp [hnew]
    · next hnlt =>
      split
      · simp only [List.filter_cons, ih]
      · next hngt =>
        -- The entry whose place is taken is not in the family, either.
        simp [hnew, hold e (Bytes.eq_of_not_lt hnlt hngt).symm]

/-! ## Overlay -/

/-- In an overlay the upper table answers first. -/
theorem get?_overlay (base top : Table) (key : Bytes) :
    (base.overlay top).get? key = (top.get? key).or (base.get? key) := by
  obtain ⟨entries, ascending⟩ := top
  unfold overlay
  induction ascending generalizing base with
  | nil => rfl
  | @cons first rest hfirst hrest ih =>
    simp only [List.foldl_cons, ih, get?_insert]
    by_cases hkey : first.key = key
    · -- The keys behind the first entry are larger, so none of them answers in its place.
      have hrest : rest.find? (fun e => e.key == key) = none := by
        refine List.find?_eq_none.2 fun e he => ?_
        have hne : first.key ≠ e.key := Bytes.ne_of_lt (hfirst e he)
        simpa [hkey] using hne.symm
      simp [get?, hkey, hrest]
    · simp [get?, hkey]

/-- Nothing written over a table leaves it. -/
@[simp] theorem overlay_empty (base : Table) : base.overlay empty = base := rfl

/-- Inserting into the upper table is inserting into the overlay. -/
theorem overlay_insert (base top : Table) (key value : Bytes) :
    base.overlay (top.insert key value) = (base.overlay top).insert key value :=
  ext_get? fun other => by
    simp only [get?_overlay, get?_insert]
    split <;> simp

/-! ## Ranges -/

/-- What is left behind the keys before `start` does not stand before `start`. It takes the order:
in another list smaller keys could come later. -/
theorem le_of_mem_dropWhile {start : Bytes} {entries : List Entry}
    (h : entries.Pairwise Entry.Before) {e : Entry}
    (he : e ∈ entries.dropWhile fun d => decide (d.key < start)) : ¬ e.key < start := by
  induction h with
  | nil => cases he
  | @cons first rest hfirst _ ih =>
    rw [List.dropWhile_cons] at he
    split at he
    · exact ih he
    · next hstart =>
      -- The first entry stays, and those behind it have greater keys.
      have hge : ¬ first.key < start := by simpa using hstart
      rcases List.mem_cons.1 he with rfl | he
      · exact hge
      · exact fun hlt => hge (Bytes.lt_trans (hfirst e he) hlt)

/-- A range holds entries of the table, from the start on and of the family asked for. How many
there are, and that none between them is left out, is said of scans (`Store.scan`). -/
theorem mem_of_mem_range {t : Table} {start pre : Bytes} {limit : Nat} {e : Entry}
    (h : e ∈ (t.range start pre limit).entries) :
    e ∈ t.entries ∧ ¬ e.key < start ∧ pre <+: e.key := by
  have hwhile := List.mem_of_mem_take h
  have hdrop := (List.takeWhile_sublist _).subset hwhile
  refine ⟨(List.dropWhile_sublist _).subset hdrop, le_of_mem_dropWhile t.ascending hdrop, ?_⟩
  exact List.isPrefixOf_iff_prefix.1 (List.all_eq_true.1 List.all_takeWhile e hwhile)

end TxIndex.Table

import TxIndex.Proofs.Backfill.Entries

/-!
# What is durable while records are merged

Between two checkpoints a backfill stages what it merges; a checkpoint commits it together with the
position. So at any moment the committed data is either what the run started from, or the merge of
the records up to one of them with the marker at that record, and nothing behind it
(`Reached`, `reached_mergeList`). The handle itself reads the merge of all records so far.
-/

namespace TxIndex

namespace Backfill

variable {codec : Codec} {config : Config} {s s₁ s' : Store} {p p' : Progress}

/-- The table with the progress marker at a cursor, over whatever marker is there. -/
def markedAt (t : Table) (cursor : TxId) : Table :=
  t.insert Key.marker (Marker.inProgress cursor).encode

/-- From the store `s`, the records `done` have been merged, and `s'` is what that has left. -/
inductive Reached (codec : Codec) (version : UInt16) (s : Store) (done : List Entry) (s' : Store) :
    Prop where
  | unsaved (hmerge : mergeAll codec version s.view done = .ok s'.view)
      (hcommitted : s'.committed = s.committed)
  /-- The last checkpoint was made after the record `e`. -/
  | saved {upto behind : List Entry} {e : Entry} {cursor : TxId} {t t' : Table}
      (hdone : done = upto ++ e :: behind) (hkey : e.key = Key.tx cursor)
      (hsaved : mergeAll codec version s.view (upto ++ [e]) = .ok t)
      (hcommitted : s'.committed = markedAt t cursor)
      (hmerge : mergeAll codec version s.view done = .ok t') (hview : s'.view = markedAt t' cursor)

/-- A later checkpoint takes the place of an earlier one. -/
theorem markedAt_markedAt (t : Table) (cursor cursor' : TxId) :
    markedAt (markedAt t cursor) cursor' = markedAt t cursor' :=
  Table.insert_insert ..

/-- A record is merged into a table with a marker as into one without. So a merge that has made
checkpoints comes to the same batches as one that has made none. -/
theorem mergeInto_markedAt {version : UInt16} {t u : Table} {e : Entry} {cursor : TxId}
    (h : mergeInto codec version (markedAt t cursor) e = .ok u) :
    ∃ t', mergeInto codec version t e = .ok t' ∧ u = markedAt t' cursor := by
  unfold markedAt at h
  rw [mergeInto_insert_marker] at h
  obtain ⟨t', hone, rfl⟩ := Except.map_eq_ok_iff.1 h
  exact ⟨t', hone, rfl⟩

/-- An entry that has been merged is staged, or else committed with everything before it. In the
second case the marker of the checkpoint is on top. -/
theorem mergeInto_of_mergeOne {e : Entry} (h : mergeOne codec config e p s = (.ok p', s')) :
    ∃ cursor t, e.key = Key.tx cursor ∧ mergeInto codec config.codecVersion s.view e = .ok t ∧
      (s'.view = t ∧ s'.committed = s.committed ∨
        s'.view = markedAt t cursor ∧ s'.committed = markedAt t cursor) := by
  obtain ⟨item, batch?, hitem, hext, -, rfl⟩ := exists_of_mergeOne h
  have hkey : e.key = Key.tx item.cursor := Key.txId_eq_ok_iff.1 (readItem_eq_ok_iff.1 hitem).1
  refine ⟨item.cursor, extend s.view item.record.height batch?, hkey,
    mergeInto_eq_ok_iff.2 ⟨item, batch?, hitem, hext, rfl⟩, ?_⟩
  have hview := view_settle config item batch? p s
  by_cases hdue : isDue config p item.record.payload.length = true
  · -- A commit leaves the view as it is and makes it the committed data.
    rw [if_pos hdue] at hview
    refine .inr ⟨hview, ?_⟩
    rw [← show _ = markedAt _ _ from hview]
    unfold settle
    rw [if_pos hdue]
    rfl
  · rw [if_neg hdue] at hview
    refine .inl ⟨hview, ?_⟩
    unfold settle
    rw [if_neg hdue, committed_stage]

/-- **One record more.** It is staged behind what is there, or it makes a checkpoint and with that
everything before it durable. The cases are: nothing has been saved so far, or the last checkpoint
was made further back; and in each of them, whether this record makes one. -/
theorem Reached.concat {done : List Entry} {e : Entry}
    (h : Reached codec config.codecVersion s done s₁)
    (hone : mergeOne codec config e p s₁ = (.ok p', s')) :
    Reached codec config.codecVersion s (done ++ [e]) s' := by
  obtain ⟨cursor, u, hkey, hinto, hcase⟩ := mergeInto_of_mergeOne hone
  cases h with
  | unsaved hmerge hcommitted =>
    have hmore := mergeAll_concat hmerge hinto
    rcases hcase with ⟨hview, hsame⟩ | ⟨hview, hsaved⟩
    · exact .unsaved (hview ▸ hmore) (hsame.trans hcommitted)
    · exact .saved rfl hkey hmore hsaved hmore hview
  | @saved upto behind last cursor' t t' hdone hkey' hsaved hcommitted hmerge hview' =>
    -- The marker of the last checkpoint is in the view; the merge does not see it.
    rw [hview'] at hinto
    obtain ⟨t'', hplain, rfl⟩ := mergeInto_markedAt hinto
    have hmore := mergeAll_concat hmerge hplain
    rcases hcase with ⟨hview, hsame⟩ | ⟨hview, hsave⟩
    · have hdone' : done ++ [e] = upto ++ last :: (behind ++ [e]) := by
        rw [hdone, List.append_assoc, List.cons_append]
      exact .saved hdone' hkey' hsaved (hsame.trans hcommitted) hmore hview
    · rw [markedAt_markedAt] at hview hsave
      exact .saved rfl hkey hmore hsave hmore hview

/-- A list of records more, by induction on it: each record is merged into what those before it have
made. -/
theorem Reached.append {done entries : List Entry}
    (h : Reached codec config.codecVersion s done s₁)
    (hmerge : mergeList codec config entries p s₁ = (.ok p', s')) :
    Reached codec config.codecVersion s (done ++ entries) s' := by
  induction entries generalizing done p s₁ with
  | nil =>
    cases hmerge
    rw [List.append_nil]
    exact h
  | cons e entries ih =>
    obtain ⟨p₁, s₂, hone, hrest⟩ := mergeList_cons_eq_ok_iff.1 hmerge
    rw [List.append_cons]
    exact ih (h.concat hone) hrest

/-- **What is durable behind a list of records.** A list that has been merged has reached what
`Reached` says, since nothing has been reached before it begins. -/
theorem reached_mergeList {done : List Entry}
    (h : mergeList codec config done p s = (.ok p', s')) :
    Reached codec config.codecVersion s done s' := by
  have hempty : Reached codec config.codecVersion s [] s := .unsaved rfl rfl
  exact hempty.append h

/-! ## Consequences -/

/-- The handle reads the merge of all records, but for the marker. Where the checkpoints have been
made cannot be seen from the batches. -/
theorem Reached.view {version : UInt16} {done : List Entry}
    (h : Reached codec version s done s') :
    ∃ t, mergeAll codec version s.view done = .ok t ∧
      ∀ value, s'.view.insert Key.marker value = t.insert Key.marker value := by
  cases h with
  | unsaved hmerge _ => exact ⟨s'.view, hmerge, fun _ => rfl⟩
  | saved _ _ _ _ hmerge hview =>
    refine ⟨_, hmerge, fun value => ?_⟩
    rw [hview]
    exact Table.insert_insert ..

/-- Records that can be merged into the table can be merged in the store, checkpoints or not: what a
checkpoint adds to the view is the marker, and no record is read from there. -/
theorem exists_mergeList {entries : List Entry} {t : Table}
    (h : mergeAll codec config.codecVersion s.view entries = .ok t) :
    ∃ p' s', mergeList codec config entries p s = (.ok p', s') := by
  induction entries generalizing p s t with
  | nil => exact ⟨p, s, rfl⟩
  | cons e entries ih =>
    obtain ⟨u, hone, h⟩ := mergeAll_cons_eq_ok_iff.1 h
    obtain ⟨item, batch?, hitem, hext, rfl⟩ := mergeInto_eq_ok_iff.1 hone
    have hmerge := mergeOne_of_extension (p := p) hitem hext
    -- A checkpoint puts the marker into the view, and the merge of the rest does not see it.
    obtain ⟨u', hrest⟩ : ∃ u', mergeAll codec config.codecVersion
        (settle config item batch? p s).view entries = .ok u' := by
      rw [view_settle]
      split
      · rw [mergeAll_insert_marker]
        exact ⟨_, Except.map_eq_ok_iff.2 ⟨t, h, rfl⟩⟩
      · exact ⟨t, h⟩
    obtain ⟨p', s', hlist⟩ := ih (p := advance config item batch? p) hrest
    refine ⟨p', s', ?_⟩
    rw [mergeList_cons, hmerge]
    exact hlist

end Backfill

end TxIndex

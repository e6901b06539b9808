import Mathlib.Algebra.Ring.Nat
import TxIndex.Proofs.Backfill.Journal

/-!
# Where checkpoints are made

A backfill counts the bytes of the payloads since its last commit and makes a checkpoint when they
exceed the cap. So the sizes of all payloads are cut greedily: a segment ends with the entry that
takes its sum over the cap (`Greedy`, of which there is one for any sizes, `Greedy.unique`).

Read from left to right, a journal tells at any moment which records are durable and which are only
staged (`Ledger`). The bound on the staged ones holds for every beginning of a `plan`
(`Ledger.within_of_prefix`), and so at every moment of every run; and the committed data is that of
the durable ones (`Durable`).
-/

namespace TxIndex

open Access (Noted)

namespace Backfill

/-! ## Greedy segments -/

/-- Sizes are cut right behind each one with which the sum since the last cut exceeds the cap. What
is behind the last cut is `rest`. -/
structure Greedy (cap : Nat) (sizes : List Nat) (segments : List (List Nat)) (rest : List Nat) :
    Prop where
  whole : sizes = segments.flatten ++ rest
  exceeds : ∀ segment ∈ segments, cap < segment.sum ∧ segment.dropLast.sum ≤ cap
  within : rest.sum ≤ cap

theorem sum_le_of_extends {a b : List Nat} (h : a <+: b) : a.sum ≤ b.sum := by
  obtain ⟨tail, rfl⟩ := h
  rw [List.sum_append]
  exact Nat.le_add_right ..

/-- A beginning of a list is the list, or it is a beginning of the list without its last item. -/
theorem prefix_dropLast_or_eq {a b : List Nat} (h : a <+: b) : a <+: b.dropLast ∨ a = b := by
  obtain ⟨tail, rfl⟩ := h
  cases htail : tail with
  | nil => exact .inr (List.append_nil a).symm
  | cons n tail' =>
    rw [List.dropLast_append_of_ne_nil (by simp)]
    exact .inl (List.prefix_append ..)

/-- Two segments with which the same sizes begin are one: of the two, one begins the other, and
without its last size a segment is within the cap. -/
theorem segment_eq {cap : Nat} {a b as bs : List Nat} (heq : a ++ as = b ++ bs)
    (ha : cap < a.sum ∧ a.dropLast.sum ≤ cap) (hb : cap < b.sum ∧ b.dropLast.sum ≤ cap) :
    a = b := by
  have hprefix : a <+: b ∨ b <+: a :=
    List.prefix_or_prefix_of_prefix (List.prefix_append a as) (heq ▸ List.prefix_append b bs)
  -- A proper beginning of a segment is within the cap.
  rcases hprefix with h | h
  · rcases prefix_dropLast_or_eq h with h | h
    · have hsum := sum_le_of_extends h
      omega
    · exact h
  · rcases prefix_dropLast_or_eq h with h | h
    · have hsum := sum_le_of_extends h
      omega
    · exact h.symm

/-- Sizes that are within the cap altogether are not cut. -/
theorem Greedy.segments_eq_nil {cap : Nat} {sizes rest : List Nat} {segments : List (List Nat)}
    (h : Greedy cap sizes segments rest) (hcap : sizes.sum ≤ cap) : segments = [] := by
  cases segments with
  | nil => rfl
  | cons segment segments =>
    have hwhole := h.whole
    rw [List.flatten_cons, List.append_assoc] at hwhole
    have hsum := sum_le_of_extends (hwhole ▸ List.prefix_append segment _)
    have hexceeds := (h.exceeds segment List.mem_cons_self).1
    exact absurd (hexceeds.trans_le hsum) (Nat.not_lt_of_le hcap)

theorem Greedy.sum_le {cap : Nat} {sizes rest : List Nat} (h : Greedy cap sizes [] rest) :
    sizes.sum ≤ cap := by
  rw [h.whole]
  exact h.within

/-- **There is one greedy segmentation.** The induction is on the segments of one of them: the first
segment of the other is the same, and what is behind it is segmented alike. -/
theorem Greedy.unique {cap : Nat} {sizes rest rest' : List Nat} {segments segments' : List (List Nat)}
    (h : Greedy cap sizes segments rest) (h' : Greedy cap sizes segments' rest') :
    segments' = segments ∧ rest' = rest := by
  induction segments generalizing sizes segments' with
  | nil =>
    have hnil := h'.segments_eq_nil h.sum_le
    subst hnil
    exact ⟨rfl, h'.whole.symm.trans h.whole⟩
  | cons segment segments ih =>
    cases segments' with
    | nil => exact absurd (h.segments_eq_nil h'.sum_le) (List.cons_ne_nil _ _)
    | cons segment' segments' =>
      have hwhole := h'.whole.symm.trans h.whole
      rw [List.flatten_cons, List.flatten_cons, List.append_assoc, List.append_assoc] at hwhole
      -- Both first segments end where the cap is exceeded for the first time.
      have hsegment := segment_eq hwhole (h'.exceeds segment' List.mem_cons_self)
        (h.exceeds segment List.mem_cons_self)
      subst hsegment
      have hrest : Greedy cap (segments.flatten ++ rest) segments rest :=
        ⟨rfl, fun s hs => h.exceeds s (List.mem_cons_of_mem _ hs), h.within⟩
      have hrest' : Greedy cap (segments.flatten ++ rest) segments' rest' :=
        ⟨(List.append_cancel_left hwhole).symm, fun s hs => h'.exceeds s (List.mem_cons_of_mem _ hs),
          h'.within⟩
      obtain ⟨rfl, rfl⟩ := ih hrest hrest'
      exact ⟨rfl, rfl⟩

/-- The plan of a merge commits once for each segment of the sizes. The sizes `before` are those
that have been merged since the last cut. -/
theorem exists_greedy_of_plan (cap : Nat) (entries : List Entry) :
    ∀ before : List Nat, before.sum ≤ cap →
      ∃ segments rest, Greedy cap (before ++ entries.map payloadSize) segments rest ∧
        (plan cap before.sum entries).count .committed = segments.length := by
  -- The sizes since the last cut are carried along until the segment is whole.
  induction entries with
  | nil =>
    intro before hbefore
    exact ⟨[], before, ⟨List.append_nil _, fun _ h => absurd h List.not_mem_nil, hbefore⟩, rfl⟩
  | cons e entries ih =>
    intro before hbefore
    have hsum : (before ++ [payloadSize e]).sum = before.sum + payloadSize e := by
      rw [List.sum_append, List.sum_singleton]
    rw [List.map_cons, List.append_cons]
    by_cases hdue : cap < before.sum + payloadSize e
    · -- With this entry the segment is whole, and the next one begins.
      rw [plan_cons_of_due hdue]
      obtain ⟨segments, rest, hgreedy, hcount⟩ := ih [] (Nat.zero_le cap)
      refine ⟨(before ++ [payloadSize e]) :: segments, rest, ⟨?_, ?_, hgreedy.within⟩, ?_⟩
      · rw [List.flatten_cons, List.append_assoc (before ++ [payloadSize e]), ← hgreedy.whole]
        rfl
      · refine List.forall_mem_cons.2 ⟨⟨hsum ▸ hdue, ?_⟩, hgreedy.exceeds⟩
        rw [List.dropLast_concat]
        exact hbefore
      · rw [List.length_cons, ← hcount]
        simp
    · -- The entry is one more of the segment that has begun.
      rw [plan_cons_of_not_due hdue]
      obtain ⟨segments, rest, hgreedy, hcount⟩ := ih (before ++ [payloadSize e]) (by omega)
      refine ⟨segments, rest, hgreedy, ?_⟩
      rw [← hcount, hsum]
      simp

/-! ## What a journal tells -/

/-- The records that a journal tells of: those merged before its last commit, and those merged
since. -/
structure Ledger where
  saved : List Entry := []
  unsaved : List Entry := []
  deriving DecidableEq

namespace Ledger

/-- A record that is merged is not durable yet; a commit makes all of them durable. -/
def enter (ledger : Ledger) : Milestone → Ledger
  | .merged e => { ledger with unsaved := ledger.unsaved ++ [e] }
  | .committed => { saved := ledger.saved ++ ledger.unsaved, unsaved := [] }

/-- A journal is read from left to right. -/
def ofJournal (journal : List Milestone) : Ledger :=
  journal.foldl enter {}

theorem ofJournal_append (first second : List Milestone) :
    ofJournal (first ++ second) = second.foldl enter (ofJournal first) :=
  List.foldl_append

/-- The payloads since the last commit are within the cap if the last of them is left out. -/
def Within (cap : Nat) (ledger : Ledger) : Prop :=
  (ledger.unsaved.dropLast.map payloadSize).sum ≤ cap

theorem within_of_sum_le {cap : Nat} {ledger : Ledger}
    (h : (ledger.unsaved.map payloadSize).sum ≤ cap) : ledger.Within cap := by
  have hprefix : ledger.unsaved.dropLast.map payloadSize <+: ledger.unsaved.map payloadSize :=
    (List.dropLast_prefix _).map _
  exact (sum_le_of_extends hprefix).trans h

/-- One record more is left out by the bound, so it holds of those before it. -/
theorem within_enter_merged {cap : Nat} {ledger : Ledger} (e : Entry)
    (h : (ledger.unsaved.map payloadSize).sum ≤ cap) : (ledger.enter (.merged e)).Within cap := by
  unfold Within enter
  rw [List.dropLast_concat]
  exact h

/-- At every moment of a plan the ledger is within the cap. The count of the plan is the sum of what
is staged in the ledger, and that is kept by both kinds of milestones. -/
theorem within_of_prefix_plan {cap : Nat} {entries : List Entry} {ledger : Ledger} {pending : Nat}
    (hpending : (ledger.unsaved.map payloadSize).sum = pending) (hcap : pending ≤ cap)
    {journal : List Milestone} (h : journal <+: plan cap pending entries) :
    (journal.foldl enter ledger).Within cap := by
  induction entries generalizing ledger pending journal with
  | nil =>
    rw [List.prefix_nil.1 h]
    exact within_of_sum_le (hpending ▸ hcap)
  | cons e entries ih =>
    by_cases hdue : cap < pending + payloadSize e
    · rw [plan_cons_of_due hdue] at h
      -- The moment is before this entry, between it and its commit, or later.
      rcases List.prefix_cons_iff.1 h with rfl | ⟨tail, rfl, htail⟩
      · exact within_of_sum_le (hpending ▸ hcap)
      rcases List.prefix_cons_iff.1 htail with rfl | ⟨later, rfl, hlater⟩
      · exact within_enter_merged e (hpending ▸ hcap)
      · -- Behind the commit nothing is staged.
        have hempty : (((ledger.enter (.merged e)).enter .committed).unsaved.map payloadSize).sum = 0 :=
          rfl
        exact ih hempty (Nat.zero_le cap) hlater
    · rw [plan_cons_of_not_due hdue] at h
      rcases List.prefix_cons_iff.1 h with rfl | ⟨tail, rfl, htail⟩
      · exact within_of_sum_le (hpending ▸ hcap)
      have hmore : ((ledger.enter (.merged e)).unsaved.map payloadSize).sum =
          pending + payloadSize e := by
        show ((ledger.unsaved ++ [e]).map payloadSize).sum = _
        rw [List.map_append, List.sum_append, hpending]
        rfl
      exact ih hmore (Nat.le_of_not_lt hdue) htail

/-- At every moment of a plan with its last commit the ledger is within the cap: behind that commit
nothing is staged. -/
theorem within_of_prefix {cap : Nat} {entries : List Entry} {journal : List Milestone}
    (h : journal <+: plan cap 0 entries ++ [.committed]) : (ofJournal journal).Within cap := by
  rcases List.prefix_concat_iff.1 h with rfl | h
  · rw [ofJournal_append]
    exact Nat.zero_le cap
  · have hempty : (({} : Ledger).unsaved.map payloadSize).sum = 0 := rfl
    exact within_of_prefix_plan hempty (Nat.zero_le cap) h

/-- A commit moves the records from one side of the ledger to the other and loses none. -/
theorem entries_foldl_enter (journal : List Milestone) (ledger : Ledger) :
    (journal.foldl enter ledger).saved ++ (journal.foldl enter ledger).unsaved =
      ledger.saved ++ ledger.unsaved ++ visits journal := by
  induction journal generalizing ledger with
  | nil => exact (List.append_nil _).symm
  | cons m journal ih =>
    rw [List.foldl_cons, ih]
    cases m with
    | merged e =>
      show ledger.saved ++ (ledger.unsaved ++ [e]) ++ visits journal =
        ledger.saved ++ ledger.unsaved ++ e :: visits journal
      simp
    | committed =>
      show ledger.saved ++ ledger.unsaved ++ [] ++ visits journal = _
      rw [List.append_nil]
      rfl

/-- Durable or staged, the records of a ledger are those that the journal has noted, in that order.
The ledger adds to the journal only where the line is between the two. -/
theorem entries_ofJournal (journal : List Milestone) :
    (ofJournal journal).saved ++ (ofJournal journal).unsaved = visits journal :=
  entries_foldl_enter journal {}

/-- Nothing becomes durable without a commit. -/
theorem saved_foldl_enter {journal : List Milestone} (h : .committed ∉ journal) (ledger : Ledger) :
    (journal.foldl enter ledger).saved = ledger.saved := by
  induction journal generalizing ledger with
  | nil => rfl
  | cons m journal ih =>
    rw [List.mem_cons, not_or] at h
    rw [List.foldl_cons, ih h.2]
    cases m with
    | merged e => rfl
    | committed => exact absurd rfl h.1

end Ledger

/-! ## What is durable -/

/-- `t` is the committed data of a run on `s` with this journal: what was committed before if the
run has not committed, and otherwise the merge of the records that are durable, with a marker. -/
inductive Durable (codec : Codec) (version : UInt16) (s : Store) (journal : List Milestone)
    (t : Table) : Prop where
  | untouched (hnone : .committed ∉ journal) (hsame : t = s.committed)
  | saved {u : Table} {marker : Marker} (hsome : .committed ∈ journal)
    (hmerge : mergeAll codec version s.view (Ledger.ofJournal journal).saved = .ok u)
    (hmarked : t = u.insert Key.marker marker.encode)

variable {codec : Codec} {config : Config} {p p' : Progress} {s s₁ s' : Store}
  {journal : List Milestone}

/-- A merge commits just if a commit is due, and then what is committed is the view with the marker
at the record; otherwise the committed data and the number of commits stay. -/
theorem committed_of_mergeOne {e : Entry} (h : mergeOne codec config e p s = (.ok p', s')) :
    (config.commitSizeCap < p.pendingBytes + payloadSize e ∧ s'.commits = s.commits + 1 ∧
      ∃ marker : Marker, s'.committed = s'.view.insert Key.marker marker.encode) ∨
    (¬ config.commitSizeCap < p.pendingBytes + payloadSize e ∧ s'.commits = s.commits ∧
      s'.committed = s.committed) := by
  obtain ⟨item, batch?, hitem, -, -, rfl⟩ := exists_of_mergeOne h
  obtain ⟨-, hrecord, -⟩ := readItem_eq_ok_iff.1 hitem
  have hcommits : (stage s item.record.height batch?).commits = s.commits := by
    cases batch? <;> rfl
  rw [payloadSize_eq hrecord]
  by_cases hdue : config.commitSizeCap < p.pendingBytes + item.record.payload.length
  · refine .inl ⟨hdue, ?_⟩
    unfold settle isDue
    rw [decide_eq_true hdue, if_pos rfl]
    refine ⟨congrArg Nat.succ hcommits, .inProgress item.cursor, ?_⟩
    -- The commit has made the marker part of the view, so to set it again changes nothing.
    show (Store.put _ _ _).view = (Store.put _ _ _).view.insert _ _
    rw [Store.view_put, Table.insert_insert]
  · refine .inr ⟨hdue, ?_⟩
    unfold settle isDue
    rw [decide_eq_false hdue, if_neg Bool.false_ne_true]
    exact ⟨hcommits, committed_stage ..⟩

/-- What is noted without a commit changes nothing of what is durable. The last record may be noted
as merged and not be committed, if its checkpoint has failed. -/
theorem Durable.append_of_no_commit {version : UInt16} {t : Table} {more : List Milestone}
    (h : Durable codec version s journal t) (hmore : .committed ∉ more) :
    Durable codec version s (journal ++ more) t := by
  cases h with
  | untouched hnone hsame =>
    refine .untouched (fun hmem => ?_) hsame
    rcases List.mem_append.1 hmem with hmem | hmem
    · exact hnone hmem
    · exact hmore hmem
  | saved hsome hmerge hmarked =>
    refine .saved (List.mem_append_left _ hsome) ?_ hmarked
    rw [Ledger.ofJournal_append, Ledger.saved_foldl_enter hmore]
    exact hmerge

/-- A commit makes everything durable that has been noted, for then there is no record that is
merged and only staged. -/
theorem durable_commit {version : UInt16} {t u : Table} (marker : Marker)
    (hmerge : mergeAll codec version s.view (visits journal) = .ok u)
    (hmarked : t = u.insert Key.marker marker.encode) :
    Durable codec version s (journal ++ [.committed]) t := by
  refine .saved (List.mem_append_right _ List.mem_cons_self) ?_ hmarked
  rw [Ledger.ofJournal_append]
  show mergeAll codec version s.view
    ((Ledger.ofJournal journal).saved ++ (Ledger.ofJournal journal).unsaved) = _
  rw [Ledger.entries_ofJournal]
  exact hmerge

/-- One entry more. If a commit is due with it, all that has been merged so far is durable, and
otherwise nothing changes. -/
theorem Durable.concat {e : Entry}
    (hreached : Reached codec config.codecVersion s (visits journal) s₁)
    (h : Durable codec config.codecVersion s journal s₁.committed)
    (hone : mergeOne codec config e p s₁ = (.ok p', s')) :
    Durable codec config.codecVersion s
      (journal ++ notesOf config.commitSizeCap p.pendingBytes e) s'.committed := by
  unfold notesOf
  rcases committed_of_mergeOne hone with ⟨hdue, -, marker, hcommitted⟩ | ⟨hdue, -, hcommitted⟩
  · -- The view is the merge of all records so far, up to the marker, and the commit takes it over.
    obtain ⟨u, hmerge, hview⟩ := (hreached.concat hone).view
    rw [if_pos hdue, List.append_cons]
    refine durable_commit marker ?_ (hcommitted.trans (hview _))
    rw [visits_append]
    exact hmerge
  · rw [if_neg hdue, hcommitted]
    exact h.append_of_no_commit (by simp)

/-- A list of entries more, by induction on it; the hypotheses speak of what was merged before. -/
theorem Durable.append {entries : List Entry}
    (hreached : Reached codec config.codecVersion s (visits journal) s₁)
    (h : Durable codec config.codecVersion s journal s₁.committed)
    (hmerge : mergeList codec config entries p s₁ = (.ok p', s')) :
    Durable codec config.codecVersion s
      (journal ++ plan config.commitSizeCap p.pendingBytes entries) s'.committed := by
  induction entries generalizing journal p s₁ with
  | nil =>
    cases hmerge
    exact h.append_of_no_commit List.not_mem_nil
  | cons e entries ih =>
    obtain ⟨p₁, s₂, hone, hrest⟩ := mergeList_cons_eq_ok_iff.1 hmerge
    -- The notes of this entry join the journal, and the induction does the others.
    show Durable codec _ s (journal ++ (notesOf _ _ e ++ plan _ _ entries)) _
    rw [← List.append_assoc, ← pendingBytes_of_mergeOne hone]
    refine ih ?_ (h.concat hreached hone) hrest
    rw [visits_append, visits_notesOf]
    exact hreached.concat hone

end Backfill

end TxIndex

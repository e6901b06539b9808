import TxIndex.Proofs.Access.Journal
import TxIndex.Proofs.Backfill.Opening

/-!
# A backfill with a journal

The backfill again, step for step, with a note of every record that has been merged and of every
commit that has succeeded. Without its journal it is the backfill (`erases_openStore`), so what the
journal tells of it is true of the backfill.

The journal of a run is a beginning of what the sizes of the payloads alone determine (`plan`): a
record is noted when it has been merged, and behind it a commit if with this record the payloads
since the last one exceed the cap. `Tracks` ties the journal to the merge of the records, step by
step from one entry (`tracks_mergeEntry`) to all pages (`tracks_mergePages`).
-/

namespace TxIndex

open Access (Noted Journaled Erases)
open Access.Journaled (lift note forget)

namespace Backfill

/-- What a backfill notes. -/
inductive Milestone where
  /-- The record has been merged; it is staged. -/
  | merged (e : Entry)
  /-- What was staged is durable. -/
  | committed
  deriving DecidableEq

namespace Journal

/-! ## The programs -/

/-- Merges the record of one entry of the index by id, and notes that it is merged once it is
staged. The checkpoint, if one is due, comes behind the note and has a note of its own. -/
def mergeEntry (codec : Codec) (config : Config) (p : Progress) (entry : Entry) :
    Journaled Milestone Progress := do
  let cursor ← lift (Access.ofStored (Key.txId entry.key))
  let (tx, record) ← lift (Access.readRecord codec entry.value)
  let appended ← lift (append codec config.codecVersion record.height tx)
  note (.merged entry)
  let p := p.merged appended record.payload.length
  if config.commitSizeCap < p.pendingBytes then
    lift (checkpoint cursor)
    note .committed
    return p.checkpointed
  else
    return p

/-- Merges the entries of one page; the scan is not noted. -/
def mergePage (codec : Codec) (config : Config) (start : Bytes) (p : Progress) :
    Journaled Milestone (Progress × Option Bytes) := do
  let page ← lift (Access.scan start Space.txById.tag config.pageSize)
  let p ← page.foldlM (mergeEntry codec config) p
  return (p, nextStart? config page)

/-- Without its notes the merge of an entry is the merge of an entry: each call is the same, in the
same place, and each note is followed by what follows in the program without it. -/
theorem erases_mergeEntry (codec : Codec) (config : Config) (p : Progress) (entry : Entry) :
    Erases (mergeEntry codec config p entry) (Backfill.mergeEntry codec config p entry) := by
  refine .bind (.lift _) fun cursor => .bind (.lift _) fun read => .bind (.lift _) fun appended => ?_
  refine .note_bind _ (.ite (.bind (.lift _) fun _ => ?_) (.pure _))
  exact .note_bind _ (.pure _)

theorem erases_mergePage (codec : Codec) (config : Config) (start : Bytes) (p : Progress) :
    Erases (mergePage codec config start p) (Backfill.mergePage codec config start p) :=
  .bind (.lift _) fun page =>
    .bind (.foldlM (erases_mergeEntry codec config) page p) fun _ => .pure _

/-- Merges page after page from `start` on. It ends for the reason for which the backfill ends: a
page that is not short takes away at least one of the entries to come, and a journal changes no
store. -/
def mergePages (codec : Codec) (config : Config) (start : Bytes) (p : Progress)
    (faults : Faults) (x : Noted Milestone) : EStateM.Result Error (Noted Milestone) Progress :=
  match _h : mergePage codec config start p faults x with
  | .error e x' => .error e x'
  | .ok (p', none) x' => .ok p' x'
  | .ok (p', some next) x' => mergePages codec config next p' faults x'
termination_by remaining start x.backend.store
decreasing_by exact remaining_lt_of_mergePage ((erases_mergePage _ _ _ _).of_ok _h)

/-- Marks the index as complete; the last commit is noted as well. -/
def finish (lastAccepted : Height) (p : Progress) : Journaled Milestone Report := do
  lift (Access.putMarker (.complete lastAccepted))
  lift Access.commit
  note .committed
  return p.report

/-- Merges all entries to come, with counts that begin at zero. -/
def mergeToCome (codec : Codec) (config : Config) (state : State) (start : Bytes) :
    Journaled Milestone Progress :=
  mergePages codec config start { report := { state } }

/-- What is done where the marker tells `state`. -/
def proceed (codec : Codec) (config : Config) (lastAccepted : Height) (state : State) :
    Journaled Milestone Report :=
  match state.start? with
  | none => return { state }
  | some start => do
    let p ← mergeToCome codec config state start
    finish lastAccepted p

/-- The backfill: the marker tells where to start, and whether there is anything to do. -/
def run (codec : Codec) (config : Config) (lastAccepted : Height) :
    Journaled Milestone Report := do
  let marker? ← lift Access.readMarker
  proceed codec config lastAccepted (.ofMarker marker?)

/-- Opening with a journal. -/
def openStore (codec : Codec) (config : Config) (lastAccepted : Height) :
    Journaled Milestone Repository := do
  let lastBackfill ← run codec config lastAccepted
  return { codec, config, lastBackfill }

/-- Here the induction is that of the program with its journal; each round of it is a round of the
program without one. -/
theorem erases_mergePages (codec : Codec) (config : Config) (start : Bytes) (p : Progress) :
    Erases (mergePages codec config start p) (Backfill.mergePages codec config start p) := by
  intro faults x
  fun_induction mergePages codec config start p faults x with
  | case1 start p x e x' hpage =>
    rw [mergePages_apply, (erases_mergePage codec config start p).of_error hpage]
    rfl
  | case2 start p x p' x' hpage =>
    rw [mergePages_apply, (erases_mergePage codec config start p).of_ok hpage]
    rfl
  | case3 start p x p' next x' hpage ih =>
    rw [mergePages_apply, (erases_mergePage codec config start p).of_ok hpage]
    exact ih

theorem erases_finish (lastAccepted : Height) (p : Progress) :
    Erases (finish lastAccepted p) (Backfill.finish lastAccepted p) :=
  .bind (.lift _) fun _ => .bind (.lift _) fun _ => .note_bind _ (.pure _)

/-- The whole backfill is the journaled one without its journal, whatever the marker tells. -/
theorem erases_run (codec : Codec) (config : Config) (lastAccepted : Height) :
    Erases (run codec config lastAccepted) (Backfill.run codec config lastAccepted) := by
  rw [run_eq]
  refine .bind (.lift _) fun marker? => ?_
  unfold proceed Backfill.proceed
  cases (State.ofMarker marker?).start? with
  | none => exact .pure _
  | some start => exact .bind (erases_mergePages codec config start _) (erases_finish lastAccepted)

/-- **Without its journal, opening is opening.** The answer and the backend are the same with any
faults, so what the journal tells is true of every opening. -/
theorem erases_openStore (codec : Codec) (config : Config) (lastAccepted : Height) :
    Erases (openStore codec config lastAccepted)
      (Repository.openStore codec config lastAccepted) :=
  .bind (erases_run codec config lastAccepted) fun _ => .pure _

end Journal

/-! ## What is noted -/

/-- How many bytes the payload of a record has; none if the entry is no record. -/
def payloadSize (e : Entry) : Nat :=
  match Record.decode e.value with
  | .ok record => record.payload.length
  | .error _ => 0

/-- The bytes of the payloads since the last commit, when one more entry has been merged. -/
def pendingAfter (cap pending : Nat) (e : Entry) : Nat :=
  if cap < pending + payloadSize e then 0 else pending + payloadSize e

/-- What is noted of one entry: that it is merged, and the commit if one is due. -/
def notesOf (cap pending : Nat) (e : Entry) : List Milestone :=
  .merged e :: if cap < pending + payloadSize e then [.committed] else []

/-- What is noted when entries are merged, where payloads of `pending` bytes have been merged since
the last commit. -/
def plan (cap : Nat) : Nat → List Entry → List Milestone
  | _, [] => []
  | pending, e :: entries => notesOf cap pending e ++ plan cap (pendingAfter cap pending e) entries

/-- The records that have been merged, in order. -/
def visits (journal : List Milestone) : List Entry :=
  journal.filterMap fun
    | .merged e => some e
    | .committed => none

/-- From `s` and `p` on, entries have been merged up to one of them, and the next one perhaps up to
its checkpoint. Nothing has been committed since, and this is what has been noted. -/
inductive Stopped (codec : Codec) (config : Config) (p : Progress) (s : Store)
    (journal : List Milestone) (entries : List Entry) (x : Noted Milestone) : Prop where
  | intro (done rest : List Entry) (more : List Milestone) {p₁ : Progress} {s₁ : Store}
    (hsplit : entries = done ++ rest) (hdone : mergeList codec config done p s = (.ok p₁, s₁))
    (hcommitted : x.backend.store.committed = s₁.committed)
    (hcommits : x.backend.store.commits = s₁.commits)
    (hmore : more <+: (rest.take 1).map .merged)
    (hjournal : x.journal = journal ++ plan config.commitSizeCap p.pendingBytes done ++ more)

/-- The journal of a run that merges entries tells which of them it has merged. -/
def Tracks (codec : Codec) (config : Config) (p : Progress) (x : Noted Milestone)
    (entries : List Entry) : EStateM.Result Error (Noted Milestone) Progress → Prop
  | .ok p' x' =>
    mergeList codec config entries p x.backend.store = (.ok p', x'.backend.store) ∧
      x'.journal = x.journal ++ plan config.commitSizeCap p.pendingBytes entries
  | .error _ x' => Stopped codec config p x.backend.store x.journal entries x'

variable {codec : Codec} {config : Config} {p p' : Progress} {s s' : Store} {faults : Faults}
  {x x' : Noted Milestone} {cause : Error}

theorem payloadSize_eq {e : Entry} {record : Record} (h : Record.decode e.value = .ok record) :
    payloadSize e = record.payload.length := by
  unfold payloadSize
  rw [h]

/-- If the first entry takes the sum over the cap, its commit is noted and the sum begins again. -/
theorem plan_cons_of_due {cap pending : Nat} {e : Entry} (h : cap < pending + payloadSize e)
    (entries : List Entry) :
    plan cap pending (e :: entries) = .merged e :: .committed :: plan cap 0 entries := by
  unfold plan notesOf pendingAfter
  rw [if_pos h, if_pos h]
  cases entries <;> rfl

/-- Where no commit is due with an entry, its size is added to the sum, and nothing but the entry
itself is noted. -/
theorem plan_cons_of_not_due {cap pending : Nat} {e : Entry} (h : ¬ cap < pending + payloadSize e)
    (entries : List Entry) :
    plan cap pending (e :: entries) = .merged e :: plan cap (pending + payloadSize e) entries := by
  unfold plan notesOf pendingAfter
  rw [if_neg h, if_neg h]
  cases entries <;> rfl

theorem visits_append (first second : List Milestone) :
    visits (first ++ second) = visits first ++ visits second :=
  List.filterMap_append

theorem visits_notesOf (cap pending : Nat) (e : Entry) : visits (notesOf cap pending e) = [e] := by
  unfold notesOf
  split <;> rfl

/-- A plan lets no entry out and none in, and keeps their order. -/
theorem visits_plan (cap pending : Nat) (entries : List Entry) :
    visits (plan cap pending entries) = entries := by
  induction entries generalizing pending with
  | nil => rfl
  | cons e entries ih =>
    unfold plan
    rw [visits_append, visits_notesOf, ih]
    rfl

/-- The count that the merge keeps is the one that the plan is made with. So the plan, which sees
sizes alone, knows where the merge makes its checkpoints. -/
theorem pendingBytes_of_mergeOne {e : Entry} (h : mergeOne codec config e p s = (.ok p', s')) :
    p'.pendingBytes = pendingAfter config.commitSizeCap p.pendingBytes e := by
  obtain ⟨item, batch?, hitem, -, rfl, -⟩ := exists_of_mergeOne h
  obtain ⟨-, hrecord, -⟩ := readItem_eq_ok_iff.1 hitem
  unfold advance isDue pendingAfter
  rw [payloadSize_eq hrecord]
  by_cases hdue : config.commitSizeCap < p.pendingBytes + item.record.payload.length
  · rw [decide_eq_true hdue, if_pos hdue]
    rfl
  · rw [decide_eq_false hdue, if_neg hdue]
    rfl

/-- The plan of two lists is that of the first and then that of the second, made with the count that
the merge of the first has left. -/
theorem plan_append {first second : List Entry}
    (h : mergeList codec config first p s = (.ok p', s')) :
    plan config.commitSizeCap p.pendingBytes (first ++ second) =
      plan config.commitSizeCap p.pendingBytes first ++
        plan config.commitSizeCap p'.pendingBytes second := by
  induction first generalizing p s with
  | nil =>
    cases h
    rfl
  | cons e first ih =>
    obtain ⟨p₁, s₁, hone, hrest⟩ := mergeList_cons_eq_ok_iff.1 h
    -- The plan goes on with the count that the merge of this entry has left.
    show notesOf _ _ e ++ plan _ _ (first ++ second) = (notesOf _ _ e ++ plan _ _ first) ++ _
    rw [← pendingBytes_of_mergeOne hone, ih hrest, List.append_assoc]

/-! ## One entry -/

/-- A record that was read under faults is the one that is stored: what the codec gives is the
transaction in it, and not its payload. -/
theorem decode_of_readRecord {stored : Bytes} {b b' : Backend} {tx : Transaction} {record : Record}
    (h : Access.readRecord codec stored faults b = .ok (tx, record) b') :
    Record.decode stored = .ok record := by
  obtain ⟨record', b₁, hrecord, h⟩ := Access.bind_eq_ok_iff.1 h
  obtain ⟨tx', b₂, -, h⟩ := Access.bind_eq_ok_iff.1 h
  cases h
  obtain ⟨hok, -⟩ := (Access.Runs.ofStored (Record.decode stored) b.store).of_ok
    (Access.Unfaulted.closed.ofStored _) rfl hrecord
  exact Except.mapError_eq_ok_iff.1 hok

/-- What a successful merge of an entry has noted is what the sizes alone say that it notes: the
entry, and the commit if one was due. -/
theorem journal_of_mergeEntry {e : Entry}
    (h : Journal.mergeEntry codec config p e faults x = .ok p' x') :
    x'.journal = x.journal ++ notesOf config.commitSizeCap p.pendingBytes e := by
  obtain ⟨cursor, b₁, -, h⟩ := Access.Journaled.lift_bind_eq_ok_iff.1 h
  obtain ⟨⟨tx, record⟩, b₂, hread, h⟩ := Access.Journaled.lift_bind_eq_ok_iff.1 h
  obtain ⟨appended, b₃, -, h⟩ := Access.Journaled.lift_bind_eq_ok_iff.1 h
  -- The plan takes the size from the stored value, and the program from the record it has read.
  have hsize := payloadSize_eq (decode_of_readRecord hread)
  rw [Access.Journaled.note_bind_apply] at h
  change (if config.commitSizeCap < p.pendingBytes + record.payload.length then _ else _ :
    Journaled Milestone Progress) _ _ = _ at h
  unfold notesOf
  rw [hsize]
  by_cases hdue : config.commitSizeCap < p.pendingBytes + record.payload.length
  · rw [if_pos hdue] at h ⊢
    obtain ⟨_, b₄, -, h⟩ := Access.Journaled.lift_bind_eq_ok_iff.1 h
    cases h
    exact List.append_assoc ..
  · rw [if_neg hdue] at h ⊢
    cases h
    rfl

/-- A merge of an entry that fails has noted at most that the entry is merged: the commit is the
last thing that can fail, and it is noted when it has succeeded. -/
theorem journal_of_mergeEntry_error {e : Entry}
    (h : Journal.mergeEntry codec config p e faults x = .error cause x') :
    ∃ more, more <+: [.merged e] ∧ x'.journal = x.journal ++ more := by
  have hnothing (b : Backend) : ∃ more, more <+: [Milestone.merged e] ∧
      (⟨b, x.journal⟩ : Noted Milestone).journal = x.journal ++ more :=
    ⟨[], List.nil_prefix, (List.append_nil _).symm⟩
  rcases Access.Journaled.lift_bind_eq_error_iff.1 h with ⟨b, -, rfl⟩ | ⟨cursor, b₁, -, h⟩
  · exact hnothing b
  rcases Access.Journaled.lift_bind_eq_error_iff.1 h with ⟨b, -, rfl⟩ | ⟨⟨tx, record⟩, b₂, -, h⟩
  · exact hnothing b
  rcases Access.Journaled.lift_bind_eq_error_iff.1 h with ⟨b, -, rfl⟩ | ⟨appended, b₃, -, h⟩
  · exact hnothing b
  -- The record is merged and noted; only the checkpoint can still fail.
  rw [Access.Journaled.note_bind_apply] at h
  change (if config.commitSizeCap < p.pendingBytes + record.payload.length then _ else _ :
    Journaled Milestone Progress) _ _ = _ at h
  split at h
  · rcases Access.Journaled.lift_bind_eq_error_iff.1 h with ⟨b, -, rfl⟩ | ⟨_, b₄, -, h⟩
    · exact ⟨[.merged e], List.prefix_rfl, rfl⟩
    · cases h
  · cases h

/-- One entry. The successful case is `mergeOne_of_mergeEntry` with `journal_of_mergeEntry`; a
failure has committed nothing, for the commit of an entry is its last call. -/
theorem tracks_mergeEntry (codec : Codec) (config : Config) (p : Progress) (e : Entry)
    (faults : Faults) (x : Noted Milestone) :
    Tracks codec config p x [e] (Journal.mergeEntry codec config p e faults x) := by
  have herases := Journal.erases_mergeEntry codec config p e
  cases hrun : Journal.mergeEntry codec config p e faults x with
  -- The entry is all there is to merge, and it is merged.
  | ok p' x' =>
    refine ⟨?_, ?_⟩
    · rw [mergeList_cons, mergeOne_of_mergeEntry (herases.of_ok hrun)]
      rfl
    · rw [journal_of_mergeEntry hrun]
      exact congrArg _ (List.append_nil _).symm
  -- No entry is merged, and the one at hand perhaps up to its checkpoint.
  | error cause x' =>
    obtain ⟨more, hmore, hjournal⟩ := journal_of_mergeEntry_error hrun
    have hkeep := keepsFailing_mergeEntry (f := fun s : Store => (s.committed, s.commits))
      (fun _ _ _ => rfl) codec config p e faults _ cause _ (herases.of_error hrun)
    obtain ⟨hcommitted, hcommits⟩ := Prod.mk.inj hkeep
    refine .intro [] [e] more rfl rfl hcommitted hcommits hmore ?_
    rw [hjournal]
    exact congrArg (· ++ more) (List.append_nil _).symm

/-! ## Many entries -/

/-- Where the first entries have been merged, what the journal tells of the others can be told from
the beginning. -/
theorem Tracks.append {first second : List Entry} {p₁ : Progress} {x₁ : Noted Milestone}
    {result : EStateM.Result Error (Noted Milestone) Progress}
    (hfirst : Tracks codec config p x first (.ok p₁ x₁))
    (hsecond : Tracks codec config p₁ x₁ second result) :
    Tracks codec config p x (first ++ second) result := by
  obtain ⟨hmerge, hjournal⟩ := hfirst
  cases result with
  | ok p' x' =>
    refine ⟨?_, ?_⟩
    · rw [mergeList_append_ok hmerge]
      exact hsecond.1
    · rw [hsecond.2, hjournal, plan_append hmerge, List.append_assoc]
  | error cause x' =>
    cases hsecond with
    | intro done rest more hsplit hdone hcommitted hcommits hmore hnoted =>
      -- The second run has stopped, and before it all of the first entries have been merged.
      refine .intro (first ++ done) rest more ?_ ((mergeList_append_ok hmerge).trans hdone)
        hcommitted hcommits hmore ?_
      · rw [hsplit, List.append_assoc]
      · rw [hnoted, hjournal, plan_append hmerge]
        simp only [List.append_assoc]

/-- A run that has stopped in the first entries has stopped in all of them. Those behind have not
been looked at, so nothing is asked of them. -/
theorem Tracks.extend {first second : List Entry}
    (h : Tracks codec config p x first (.error cause x')) :
    Tracks codec config p x (first ++ second) (.error cause x') := by
  cases h with
  | intro done rest more hsplit hdone hcommitted hcommits hmore hnoted =>
    refine .intro done (rest ++ second) more ?_ hdone hcommitted hcommits ?_ hnoted
    · rw [hsplit, List.append_assoc]
    · refine hmore.trans (List.IsPrefix.map _ ?_)
      rw [List.take_append]
      exact List.prefix_append ..

/-- What the journal tells of a list of entries, by induction on it: behind a merged one the others
follow, behind a failure nothing does. -/
theorem tracks_foldlM_mergeEntry (codec : Codec) (config : Config) (entries : List Entry)
    (p : Progress) (faults : Faults) (x : Noted Milestone) :
    Tracks codec config p x entries
      (entries.foldlM (Journal.mergeEntry codec config) p faults x) := by
  induction entries generalizing p x with
  | nil => exact ⟨rfl, (List.append_nil _).symm⟩
  | cons e entries ih =>
    have hone := tracks_mergeEntry codec config p e faults x
    rw [List.foldlM_cons, Access.Journaled.bind_apply]
    cases hrun : Journal.mergeEntry codec config p e faults x with
    | ok p₁ x₁ =>
      rw [hrun] at hone
      exact hone.append (ih p₁ x₁)
    | error cause x₁ =>
      rw [hrun] at hone
      exact hone.extend

/-! ## Pages -/

/-- A page that is merged is the page of the entries to come, and the key it returns is that of the
next page. -/
theorem tracks_mergePage_ok {start : Bytes} {next? : Option Bytes}
    (h : Journal.mergePage codec config start p faults x = .ok (p', next?) x') :
    Tracks codec config p x (pageOf config start x.backend.store.view) (.ok p' x') ∧
      nextStart? config (pageOf config start x.backend.store.view) = next? := by
  obtain ⟨page, b₁, hscan, h⟩ := Access.Journaled.lift_bind_eq_ok_iff.1 h
  obtain ⟨hpage, hstore⟩ := (runs_scan config start x.backend.store).of_ok (.callStore _ _) rfl hscan
  cases hpage
  -- Behind the scan the page is merged as a list, on the store as it was.
  have hfold := tracks_foldlM_mergeEntry codec config (pageOf config start x.backend.store.view) p
    faults { x with backend := b₁ }
  rw [Access.Journaled.bind_apply] at h
  split at h
  · next p₁ x₁ hrun =>
    rw [hrun] at hfold
    cases h
    obtain ⟨hmerge, hjournal⟩ := hfold
    exact ⟨⟨hstore ▸ hmerge, hjournal⟩, rfl⟩
  · cases h

/-- A page fails in its scan, before anything is merged, or at one of its entries. -/
theorem tracks_mergePage_error {start : Bytes}
    (h : Journal.mergePage codec config start p faults x = .error cause x') :
    Tracks codec config p x (pageOf config start x.backend.store.view) (.error cause x') := by
  rcases Access.Journaled.lift_bind_eq_error_iff.1 h with ⟨b, hscan, rfl⟩ | ⟨page, b₁, hscan, h⟩
  · -- The scan has failed.
    have hkeep := Access.KeepsFailing.callStore (f := fun s : Store => s) .scan _ _ _ _ _ hscan
    change b.store = x.backend.store at hkeep
    exact .intro [] _ [] rfl rfl (by rw [hkeep]) (by rw [hkeep]) List.nil_prefix (by simp [plan])
  · -- The scan has given the page of the entries to come.
    obtain ⟨hpage, hstore⟩ :=
      (runs_scan config start x.backend.store).of_ok (.callStore _ _) rfl hscan
    cases hpage
    have hfold := tracks_foldlM_mergeEntry codec config (pageOf config start x.backend.store.view) p
      faults { x with backend := b₁ }
    rw [Access.Journaled.bind_apply] at h
    split at h
    · cases h
    · next cause' x₁ hrun =>
      rw [hrun] at hfold
      cases h
      change Stopped codec config p b₁.store x.journal _ _ at hfold
      rw [hstore] at hfold
      exact hfold

/-- All pages, one after the other, are the entries to come, and the journal tells how many of them
have been merged. -/
theorem tracks_mergePages (codec : Codec) (config : Config) (start : Bytes) (p : Progress)
    (faults : Faults) (x : Noted Milestone) :
    Tracks codec config p x (toCome start x.backend.store.view)
      (Journal.mergePages codec config start p faults x) := by
  fun_induction Journal.mergePages codec config start p faults x with
  | case1 start p x cause x' hpage =>
    -- Behind the page that has failed there are more entries to come.
    have hsplit : toCome start x.backend.store.view = pageOf config start x.backend.store.view ++
        (toCome start x.backend.store.view).drop config.pageSize :=
      (List.take_append_drop _ _).symm
    rw [hsplit]
    exact (tracks_mergePage_error hpage).extend
  | case2 start p x p' x' hpage =>
    obtain ⟨htracks, hnext⟩ := tracks_mergePage_ok hpage
    rw [pageOf_of_nextStart?_eq_none hnext] at htracks
    exact htracks
  | case3 start p x p' next x' hpage ih =>
    obtain ⟨htracks, hnext⟩ := tracks_mergePage_ok hpage
    obtain ⟨hsplit, -⟩ := toCome_of_nextStart?_eq_some hnext
    -- The merge has changed no record, so what is to come behind the page is what was behind it.
    rw [toCome_mergeList htracks.1] at ih
    rw [hsplit]
    exact htracks.append ih

end Backfill

end TxIndex

import TxIndex.Proofs.Backfill.Durable
import TxIndex.Proofs.Backfill.Pages
import TxIndex.Repository

/-!
# What opening a repository does

The marker of the table that a handle reads tells whether a backfill is due, and from which key on
(`dueFrom`, `CompleteThrough`). The runs of the backfill are described here by the merge of the
records to come:

* `runs_run_of_complete`, `runs_run_of_mergeAll`: without faults;
* `run_eq_ok`: a run that succeeds, whatever faults it has not met;
* `run_eq_error`: a run that fails has committed nothing, or the merge up to some record with the
  marker there;
* `exists_openStore_of_mergeAll`, `exists_openStore_empty`, `openStore_of_complete`: opening where
  there is something to merge, nothing at all, or nothing left to do.
-/

namespace TxIndex

namespace Backfill

variable {codec : Codec} {config : Config} {lastAccepted : Height} {s s' : Store} {p : Progress}
  {start : Bytes}

/-- The key from which on records are to be merged; none if the index by height is complete, or if
the marker cannot be read. -/
def dueFrom (t : Table) : Option Bytes :=
  match t.get? Key.marker with
  | none => some (Space.txById.key [])
  | some bytes =>
    match Marker.decode bytes with
    | .ok (.inProgress cursor) => some (Key.tx cursor)
    | .ok (.complete _) | .error _ => none

/-- The marker tells that the index by height is complete through a height. -/
def CompleteThrough (t : Table) (height : Height) : Prop :=
  ∃ bytes, t.get? Key.marker = some bytes ∧ Marker.decode bytes = .ok (.complete height)

/-- Behind a checkpoint a backfill is due from its cursor on. -/
theorem dueFrom_markedAt (t : Table) (cursor : TxId) :
    dueFrom (markedAt t cursor) = some (Key.tx cursor) := by
  unfold dueFrom markedAt
  rw [Table.get?_insert_self]
  simp only [Marker.decode_encode]

/-- Where the index is complete nothing is due. -/
theorem dueFrom_of_completeThrough {t : Table} {height : Height} (h : CompleteThrough t height) :
    dueFrom t = none := by
  obtain ⟨bytes, hget, hdecode⟩ := h
  unfold dueFrom
  simp only [hget, hdecode]

/-- Writing a complete marker makes the index complete through its height, whatever was there. -/
theorem completeThrough_insert (t : Table) (height : Height) :
    CompleteThrough (t.insert Key.marker (Marker.complete height).encode) height :=
  ⟨_, Table.get?_insert_self .., Marker.decode_encode _⟩

/-- A checkpoint leaves a cursor, and a cursor is no height. -/
theorem not_completeThrough_markedAt (t : Table) (cursor : TxId) (height : Height) :
    ¬ CompleteThrough (markedAt t cursor) height := by
  intro h
  obtain ⟨bytes, hget, hdecode⟩ := h
  rw [markedAt, Table.get?_insert_self] at hget
  cases hget
  rw [Marker.decode_encode] at hdecode
  cases hdecode

/-! ## What a checkpoint has left -/

/-- `t'` is what a checkpoint of a backfill of `t` has left: the records from `start` on up to `e`
are merged, and the marker stands at `e`. -/
structure Checkpointed (codec : Codec) (version : UInt16) (t : Table) (start : Bytes)
    (upto : List Entry) (e : Entry) (rest : List Entry) (cursor : TxId) (u t' : Table) :
    Prop where
  due : dueFrom t = some start
  come : toCome start t = upto ++ e :: rest
  key : e.key = Key.tx cursor
  merged : mergeAll codec version t (upto ++ [e]) = .ok u
  marked : t' = markedAt u cursor

/-! ## The marker -/

theorem runs_readMarker_none (h : s.view.get? Key.marker = none) :
    Access.Runs Access.readMarker s (.ok none) s := by
  have hget := Access.Runs.get Key.marker s
  rw [← Store.get?_view, h] at hget
  exact .bind hget (.pure none s)

/-- A marker is read where bytes are stored that are one. -/
theorem runs_readMarker_some {bytes : Bytes} {marker : Marker}
    (h : s.view.get? Key.marker = some bytes) (hdecode : Marker.decode bytes = .ok marker) :
    Access.Runs Access.readMarker s (.ok (some marker)) s := by
  have hget := Access.Runs.get Key.marker s
  rw [← Store.get?_view, h] at hget
  exact .bind hget (.map some (.ofStored_ok hdecode s))

theorem runs_readMarker_error {bytes : Bytes} {defect : Defect}
    (h : s.view.get? Key.marker = some bytes) (hdecode : Marker.decode bytes = .error defect) :
    Access.Runs Access.readMarker s (.error (.corruption defect)) s := by
  have hget := Access.Runs.get Key.marker s
  rw [← Store.get?_view, h] at hget
  exact .bind hget (.map some (.ofStored_error hdecode s))

/-- Where a backfill is due the marker can be read, and tells the same start. So `dueFrom`, a
function on tables, says where a backfill begins. -/
theorem runs_readMarker_of_dueFrom (h : dueFrom s.view = some start) :
    ∃ marker?, Access.Runs Access.readMarker s (.ok marker?) s ∧
      (State.ofMarker marker?).start? = some start := by
  unfold dueFrom at h
  cases hget : s.view.get? Key.marker with
  | none =>
    rw [hget] at h
    exact ⟨none, runs_readMarker_none hget, h⟩
  | some bytes =>
    simp only [hget] at h
    cases hdecode : Marker.decode bytes with
    | error defect =>
      simp only [hdecode] at h
      cases h
    | ok marker =>
      refine ⟨some marker, runs_readMarker_some hget hdecode, ?_⟩
      -- Behind a complete marker nothing is due, so that case is excluded.
      cases marker with
      | complete height =>
        simp only [hdecode] at h
        cases h
      | inProgress cursor =>
        simp only [hdecode] at h
        exact h

/-- A reading of the marker that succeeds leaves the store, and what it has read agrees with what
the table tells: from where a backfill is due, and whether the index is complete. Every proof about
a run starts with this, for the marker is the first thing that a run reads. -/
theorem of_readMarker_ok {faults : Faults} {b b' : Backend} {marker? : Option Marker}
    (h : Access.readMarker faults b = .ok marker? b') :
    b'.store = b.store ∧ dueFrom b.store.view = (State.ofMarker marker?).start? ∧
      ∀ height, marker? = some (.complete height) → CompleteThrough b.store.view height := by
  have hfree : Access.Unfaulted Access.readMarker :=
    Access.Unfaulted.closed.readMarker (.callStore _ _)
  unfold dueFrom
  -- What is read is told by the table: each kind of marker has its run without faults, and a run
  -- that succeeds has met none.
  cases hget : b.store.view.get? Key.marker with
  | none =>
    obtain ⟨hok, hstore⟩ := (runs_readMarker_none hget).of_ok hfree rfl h
    cases hok
    exact ⟨hstore, rfl, fun height heq => nomatch heq⟩
  | some bytes =>
    cases hdecode : Marker.decode bytes with
    | error defect =>
      obtain ⟨hok, -⟩ := (runs_readMarker_error hget hdecode).of_ok hfree rfl h
      cases hok
    | ok marker =>
      obtain ⟨hok, hstore⟩ := (runs_readMarker_some hget hdecode).of_ok hfree rfl h
      cases hok
      refine ⟨hstore, ?_, fun height heq => ?_⟩
      · simp only [hdecode]
        cases marker <;> rfl
      · cases heq
        exact ⟨bytes, hget, hdecode⟩

/-! ## Reading the marker, call by call -/

/-- Reading the marker of a complete index makes one `get` and leaves the store. -/
theorem readMarker_of_complete {height : Height} {faults : Faults} {calls : Calls}
    (h : CompleteThrough s.view height) (hread : faults.store .get (calls.store .get) = none) :
    Access.readMarker faults ⟨s, calls⟩ =
      .ok (some (.complete height)) ⟨s, calls.addStore .get⟩ := by
  obtain ⟨bytes, hget, hdecode⟩ := h
  rw [Store.get?_view] at hget
  unfold Access.readMarker Access.get
  rw [Access.bind_apply, Access.callStore_of_clear hread]
  simp only [hget, hdecode]
  rfl

/-- A `get` that fails is all that happens. -/
theorem readMarker_of_fault {cause : StoreError} {faults : Faults} {calls : Calls}
    (hread : faults.store .get (calls.store .get) = some cause) :
    Access.readMarker faults ⟨s, calls⟩ = .error (.store cause) ⟨s, calls.addStore .get⟩ := by
  unfold Access.readMarker Access.get
  rw [Access.bind_apply, Access.callStore_of_fault hread]

/-! ## The last commit -/

/-- What a backfill does behind its last page: it writes the complete marker and commits. -/
def finish (lastAccepted : Height) (p : Progress) : Access Report := do
  Access.putMarker (.complete lastAccepted)
  Access.commit
  return p.report

theorem runs_finish (lastAccepted : Height) (p : Progress) (s : Store) :
    Access.Runs (finish lastAccepted p) s (.ok p.report)
      (s.put Key.marker (Marker.complete lastAccepted).encode).commit :=
  .bind (.put _ _ s) (.bind (.commit _) (.pure _ _))

/-- The last commit makes calls that a merge makes as well. -/
theorem OfCalls.finish {P : ∀ α : Type, Access α → Prop} {version : UInt16}
    (h : OfCalls P codec version) (lastAccepted : Height) (p : Progress) :
    P Report (finish lastAccepted p) :=
  h.bind (h.putMarker _) fun _ => h.bind h.commit fun _ => h.pure _

/-- A last commit that succeeds has met no fault. -/
theorem unfaulted_finish (lastAccepted : Height) (p : Progress) :
    Access.Unfaulted (finish lastAccepted p) :=
  (ofCalls_unfaulted {} 0).finish lastAccepted p

/-- A last commit that fails has committed nothing; the marker may be staged. So the committed data
is still that of the last checkpoint. -/
theorem keepsFailing_finish {f : Store → γ}
    (hput : ∀ (s : Store) key value, f (s.put key value) = f s) (lastAccepted : Height)
    (p : Progress) : Access.KeepsFailing f (finish lastAccepted p) :=
  .bind (.put fun s => hput s _ _) fun _ => .bind_pure (.callStore _ _)

/-! ## The backfill -/

/-- The backfill's loop, from the report of a run that has just started. -/
def mergeToCome (codec : Codec) (config : Config) (state : State) (start : Bytes) :
    Access Progress :=
  mergePages codec config start { report := { state } }

/-- What a backfill does once the marker has been read. -/
def proceed (codec : Codec) (config : Config) (lastAccepted : Height) (state : State) :
    Access Report :=
  match state.start? with
  | none => return { state }
  | some start => do
    let p ← mergeToCome codec config state start
    finish lastAccepted p

/-- A run reads the marker and proceeds from the state it tells. -/
theorem run_eq (codec : Codec) (config : Config) (lastAccepted : Height) :
    run codec config lastAccepted = (do
      let marker? ← Access.readMarker
      proceed codec config lastAccepted (.ofMarker marker?)) := rfl

theorem proceed_of_start? {state : State} (h : state.start? = some start) :
    proceed codec config lastAccepted state = (do
      let p ← mergeToCome codec config state start
      finish lastAccepted p) := by
  unfold proceed
  rw [h]

/-- Without faults a run on a complete index only reads the marker, and reports the height. -/
theorem runs_run_of_complete (codec : Codec) (config : Config) (lastAccepted : Height)
    {height : Height} (h : CompleteThrough s.view height) :
    Access.Runs (run codec config lastAccepted) s (.ok { state := .done height }) s := by
  obtain ⟨bytes, hget, hdecode⟩ := h
  rw [run_eq]
  exact .bind (runs_readMarker_some hget hdecode) (.pure _ s)

/-- Without faults a run that is due merges the records to come and writes the complete marker over
whatever marker its checkpoints have left. -/
theorem runs_run_of_mergeList (lastAccepted : Height) {marker? : Option Marker} {p' : Progress}
    (hread : Access.Runs Access.readMarker s (.ok marker?) s)
    (hstart : (State.ofMarker marker?).start? = some start)
    (hmerge : mergeList codec config (toCome start s.view)
      { report := { state := .ofMarker marker? } } s = (.ok p', s')) :
    Access.Runs (run codec config lastAccepted) s (.ok p'.report)
      (s'.put Key.marker (Marker.complete lastAccepted).encode).commit := by
  have hpages := runs_mergePages codec config start { report := { state := .ofMarker marker? } } s
  rw [hmerge] at hpages
  rw [run_eq]
  refine .bind hread ?_
  rw [proceed_of_start? hstart]
  exact .bind hpages (runs_finish lastAccepted p' s')

/-- Without faults a run commits the merge of the records to come, as a function on tables, with a
complete marker. Cap and page size are not seen in the result. -/
theorem runs_run_of_mergeAll (lastAccepted : Height) {t : Table}
    (hdue : dueFrom s.view = some start)
    (hmerge : mergeAll codec config.codecVersion s.view (toCome start s.view) = .ok t) :
    ∃ report s', Access.Runs (run codec config lastAccepted) s (.ok report) s' ∧
      s'.staged = .empty ∧
      s'.committed = t.insert Key.marker (Marker.complete lastAccepted).encode := by
  obtain ⟨marker?, hread, hstart⟩ := runs_readMarker_of_dueFrom hdue
  obtain ⟨p₁, s₁, hlist⟩ := exists_mergeList (p := { report := { state := .ofMarker marker? } })
    hmerge
  refine ⟨p₁.report, _, runs_run_of_mergeList lastAccepted hread hstart hlist, rfl, ?_⟩
  -- The checkpoints have left markers in the view, and the last marker is put over them.
  obtain ⟨t', ht', hview⟩ := (reached_mergeList hlist).view
  rw [hmerge] at ht'
  cases ht'
  show (s₁.put Key.marker _).view = _
  rw [Store.view_put, hview]

/-- A backfill that succeeds had nothing to do, or has merged everything to come. In the second case
the merge of the records is what it has committed, under a complete marker, whatever it has met. -/
theorem run_eq_ok {faults : Faults} {b b' : Backend} {report : Report}
    (h : run codec config lastAccepted faults b = .ok report b') :
    ((∃ height, CompleteThrough b.store.view height) ∧ b'.store = b.store) ∨
      ∃ start t, dueFrom b.store.view = some start ∧
        mergeAll codec config.codecVersion b.store.view (toCome start b.store.view) = .ok t ∧
        b'.store.staged = .empty ∧
        b'.store.committed = t.insert Key.marker (Marker.complete lastAccepted).encode := by
  rw [run_eq] at h
  obtain ⟨marker?, b₁, hread, h⟩ := Access.bind_eq_ok_iff.1 h
  obtain ⟨hstore, hdue, hcomplete⟩ := of_readMarker_ok hread
  cases hstart : (State.ofMarker marker?).start? with
  | none =>
    match marker? with
    | none => cases hstart
    | some (.inProgress cursor) => cases hstart
    | some (.complete height) =>
      cases h
      exact .inl ⟨⟨height, hcomplete height rfl⟩, hstore⟩
  | some start =>
    refine .inr ⟨start, ?_⟩
    rw [proceed_of_start? hstart] at h
    obtain ⟨p₁, b₂, hpages, h⟩ := Access.bind_eq_ok_iff.1 h
    -- The last put goes over whatever marker the checkpoints have left.
    obtain ⟨-, hfinish⟩ := (runs_finish lastAccepted p₁ b₂.store).of_ok
      (unfaulted_finish lastAccepted p₁) rfl h
    have hlist := mergeList_of_mergePages hpages
    rw [hstore] at hlist
    obtain ⟨t, ht, hview⟩ := (reached_mergeList hlist).view
    refine ⟨t, hdue.trans hstart, ht, by rw [hfinish]; rfl, ?_⟩
    rw [hfinish]
    show (b₂.store.put Key.marker _).view = _
    rw [Store.view_put, hview]

/-- Where a backfill is due, a run that succeeds is the second case: it has merged all that was to
come and committed the result. -/
theorem exists_mergeAll_of_run {faults : Faults} {b b' : Backend} {report : Report}
    (h : run codec config lastAccepted faults b = .ok report b')
    (hdue : dueFrom b.store.view = some start) :
    ∃ t, mergeAll codec config.codecVersion b.store.view (toCome start b.store.view) = .ok t ∧
      b'.store.staged = .empty ∧
      b'.store.committed = t.insert Key.marker (Marker.complete lastAccepted).encode := by
  rcases run_eq_ok h with ⟨⟨height, hcomplete⟩, -⟩ | ⟨start', t, hdue', hmerged⟩
  · cases hdue.symm.trans (dueFrom_of_completeThrough hcomplete)
  · cases hdue.symm.trans hdue'
    exact ⟨t, hmerged⟩

/-- A backfill that fails has committed nothing, or else the merge of the records up to one of them
with the marker there. -/
theorem run_eq_error {faults : Faults} {b b' : Backend} {cause : Error}
    (h : run codec config lastAccepted faults b = .error cause b') :
    b'.store.committed = b.store.committed ∨
      ∃ start upto e rest cursor u, Checkpointed codec config.codecVersion b.store.view start upto e
        rest cursor u b'.store.committed := by
  rw [run_eq] at h
  rcases Access.bind_eq_error_iff.1 h with hread | ⟨marker?, b₁, hread, h⟩
  · exact .inl (Access.keepsFailing_readMarker _ _ _ _ hread)
  · obtain ⟨hstore, hdue, -⟩ := of_readMarker_ok hread
    cases hstart : (State.ofMarker marker?).start? with
    | none =>
      unfold proceed at h
      rw [hstart] at h
      cases h
    | some start =>
      rw [proceed_of_start? hstart] at h
      -- However the run has ended, a beginning of the records has been merged and nothing has been
      -- committed since.
      obtain ⟨done, rest, p₂, s₂, hcome, hdone, hcommitted⟩ :
          ∃ done rest p₂ s₂, toCome start b₁.store.view = done ++ rest ∧
            mergeList codec config done { report := { state := .ofMarker marker? } } b₁.store =
              (.ok p₂, s₂) ∧ b'.store.committed = s₂.committed := by
        rcases Access.bind_eq_error_iff.1 h with hpages | ⟨p₁, b₂, hpages, h⟩
        · exact mergeList_of_mergePages_error hpages
        · have hkeep := keepsFailing_finish (f := Store.committed) (fun _ _ _ => rfl) lastAccepted p₁
            faults b₂ cause b' h
          exact ⟨_, [], p₁, b₂.store, (List.append_nil _).symm, mergeList_of_mergePages hpages,
            hkeep⟩
      rw [hstore] at hcome hdone
      cases reached_mergeList hdone with
      | unsaved _ hsame => exact .inl (hcommitted.trans hsame)
      | @saved upto behind e cursor t t' hsplit hkey hsaved hcommit _ _ =>
        refine .inr ⟨start, upto, e, behind ++ rest, cursor, t, hdue.trans hstart, ?_, hkey,
          hsaved, hcommitted.trans hcommit⟩
        rw [hcome, hsplit, List.append_assoc, List.cons_append]

end Backfill

/-! ## Opening -/

namespace Repository

variable {codec : Codec} {config : Config} {lastAccepted : Height}

/-- Opening is the backfill, and gives its report away with the repository. -/
theorem runs_openStore {s s' : Store} {report : Backfill.Report}
    (h : Access.Runs (Backfill.run codec config lastAccepted) s (.ok report) s') :
    Access.Runs (openStore codec config lastAccepted) s
      (.ok { codec, config, lastBackfill := report }) s' :=
  .bind h (.pure _ s')

/-- Opening succeeds just if the backfill does. -/
theorem openStore_eq_ok_iff {faults : Faults} {b b' : Backend} {r : Repository} :
    openStore codec config lastAccepted faults b = .ok r b' ↔
      ∃ report, Backfill.run codec config lastAccepted faults b = .ok report b' ∧
        r = { codec, config, lastBackfill := report } := by
  unfold openStore
  rw [Access.bind_eq_ok_iff]
  refine ⟨fun h => ?_, fun h => ?_⟩
  · obtain ⟨report, b₁, hrun, h⟩ := h
    cases h
    exact ⟨report, hrun, rfl⟩
  · obtain ⟨report, hrun, rfl⟩ := h
    exact ⟨report, b', hrun, rfl⟩

/-- A merge of the records to come that succeeds is what opening commits. This is the way from
functions on tables to what opening does, where nothing fails. -/
theorem exists_openStore_of_mergeAll {s : Store} {start : Bytes} {t : Table}
    (lastAccepted : Height) (calls : Calls)
    (hdue : Backfill.dueFrom s.view = some start)
    (hmerge : Backfill.mergeAll codec config.codecVersion s.view (Backfill.toCome start s.view) =
      .ok t) :
    ∃ report b, openStore codec config lastAccepted Faults.none ⟨s, calls⟩ =
        .ok { codec, config, lastBackfill := report } b ∧
      b.store.staged = .empty ∧
      b.store.committed = t.insert Key.marker (Marker.complete lastAccepted).encode := by
  obtain ⟨report, s', hruns, hstaged, hcommitted⟩ :=
    Backfill.runs_run_of_mergeAll lastAccepted hdue hmerge
  obtain ⟨b, hopen, hstore⟩ := (runs_openStore hruns).eq_ending calls
  refine ⟨report, b, hopen, ?_, ?_⟩
  · rw [hstore]
    exact hstaged
  · rw [hstore]
    exact hcommitted

theorem openStore_eq_error_iff {faults : Faults} {b b' : Backend} {cause : Error} :
    openStore codec config lastAccepted faults b = .error cause b' ↔
      Backfill.run codec config lastAccepted faults b = .error cause b' := by
  unfold openStore
  rw [Access.bind_eq_error_iff]
  refine ⟨fun h => ?_, .inl⟩
  rcases h with hrun | ⟨report, b₁, -, h⟩
  · exact hrun
  · cases h

/-! ## Opening an empty store -/

/-- An empty store can be opened: nothing is to be merged, and only the marker is written. -/
theorem exists_openStore_empty (codec : Codec) (config : Config) (lastAccepted : Height)
    (calls : Calls) :
    ∃ report b, openStore codec config lastAccepted Faults.none ⟨{}, calls⟩ =
      .ok { codec, config, lastBackfill := report } b := by
  obtain ⟨report, b, hopen, -⟩ := exists_openStore_of_mergeAll (s := {}) (t := .empty) lastAccepted
    calls rfl rfl
  exact ⟨report, b, hopen⟩

/-- Opening an empty store leaves nothing but a complete marker. -/
theorem committed_of_openStore_empty {faults : Faults}
    {calls : Calls} {r : Repository} {b : Backend}
    (hopen : openStore codec config lastAccepted faults ⟨{}, calls⟩ = .ok r b) :
    b.store.staged = .empty ∧
      b.store.committed = Table.empty.insert Key.marker (Marker.complete lastAccepted).encode := by
  obtain ⟨report, hrun, -⟩ := openStore_eq_ok_iff.1 hopen
  rcases Backfill.run_eq_ok hrun with ⟨⟨_, _, hget, -⟩, -⟩ | ⟨_, t, -, ht, hempty, hcommitted⟩
  · cases hget
  · cases ht
    exact ⟨hempty, hcommitted⟩

/-- Where there is nothing but a marker, neither index has an entry. -/
theorem get?_insert_marker_empty {space : Space} {key : Bytes} (value : Bytes)
    (hne : space ≠ .metadata) (htag : space.tag <+: key) :
    (Table.empty.insert Key.marker value).get? key = none := by
  have hkey : Key.marker ≠ key := Space.key_ne_of_tagged hne htag
  rw [Table.get?_insert, if_neg hkey]
  rfl

/-! ## Opening a complete index

The marker is read, and nothing else is done. -/

/-- Opening a complete index succeeds if its one `get` does, whatever else fails, and leaves the
store. -/
theorem openStore_of_complete {s : Store} {height : Height} {faults : Faults} {calls : Calls}
    (h : Backfill.CompleteThrough s.view height)
    (hread : faults.store .get (calls.store .get) = none) :
    openStore codec config lastAccepted faults ⟨s, calls⟩ =
      .ok { codec, config, lastBackfill := { state := .done height } }
        ⟨s, calls.addStore .get⟩ := by
  unfold openStore
  rw [Access.bind_apply, Backfill.run_eq, Access.bind_apply,
    Backfill.readMarker_of_complete h hread]
  rfl

/-- If that `get` fails, so does opening. -/
theorem openStore_of_fault {s : Store} {cause : StoreError} {faults : Faults} {calls : Calls}
    (hread : faults.store .get (calls.store .get) = some cause) :
    openStore codec config lastAccepted faults ⟨s, calls⟩ =
      .error (.store cause) ⟨s, calls.addStore .get⟩ := by
  unfold openStore
  rw [Access.bind_apply, Backfill.run_eq, Access.bind_apply, Backfill.readMarker_of_fault hread]

/-- The height of a complete index is read with one `get`. -/
theorem indexHeight_of_complete {s : Store} {height : Height} {faults : Faults} {calls : Calls}
    (h : Backfill.CompleteThrough s.view height)
    (hread : faults.store .get (calls.store .get) = none) :
    indexHeight faults ⟨s, calls⟩ = .ok (some height) ⟨s, calls.addStore .get⟩ := by
  unfold indexHeight
  rw [Access.bind_apply, Backfill.readMarker_of_complete h hread]
  rfl

end Repository

/-! ## Data to try it on

A table with the records of two transactions of one height, under ids that are not their own. -/

namespace Sample

/-- A transaction with a nonce and nothing else of interest. -/
def tx (nonce : UInt64) : Transaction where
  sourceChain := ⟨List.replicate 32 7, rfl⟩
  nonce
  amount := 9
  payload := Blob.empty

/-- An id of one byte again and again. -/
def id (byte : UInt8) : TxId :=
  ⟨List.replicate 32 byte, rfl⟩

/-- The stored form of a record, under version zero. -/
def record (height : Height) (tx : Transaction) : Bytes :=
  let payload := bigEndian 2 0 ++ tx.body
  height.pack ++ bigEndian 4 payload.length ++ payload

/-- The stored form of a batch, under version zero. -/
def batch (txs : List Transaction) : Bytes :=
  bigEndian 2 0 ++ batchBody txs

/-- Two records at height five, and no index by height. -/
def table : Table :=
  (Table.empty.insert (Key.tx (id 1)) (record 5 (tx 1))).insert (Key.tx (id 2)) (record 5 (tx 2))

def store : Store := { committed := table }

/-- A page for every entry, and a checkpoint behind every entry. -/
def smallSteps : Config := { commitSizeCap := 0, scanPageSize := 1 }

end Sample

end TxIndex

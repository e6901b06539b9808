import TxIndex.Backfill.Run
import TxIndex.Proofs.Access.Runs
import TxIndex.Proofs.Backfill.Tables

/-!
# Merging records in a store

What merging one entry does to a store and to the progress, as a function (`mergeOne`), and what a
list of them does (`mergeList`). `runs_mergeEntry` and `runs_foldlM_mergeEntry` say that the
programs do just this without faults.

With faults nothing else can happen in a run that succeeds, since these programs are `Unfaulted`;
and a run that fails has not committed anything since the last entry it merged whole
(`keepsFailing_mergeEntry`), because a commit is the last thing that is done for an entry.
-/

namespace TxIndex

namespace Backfill

variable {codec : Codec} {config : Config} {s s' : Store} {p p' : Progress}

/-! ## Appending -/

/-- The store with a new batch staged at a height, if there is one. -/
def stage (s : Store) (h : Height) : Option Bytes → Store
  | some bytes => s.put (Key.height h) bytes
  | none => s

/-- Staging a batch shows in the view as the extension of a table. -/
@[simp] theorem view_stage (s : Store) (h : Height) (batch? : Option Bytes) :
    (stage s h batch?).view = extend s.view h batch? := by
  cases batch? with
  | none => rfl
  | some bytes => exact Store.view_put ..

/-- Nothing is committed by staging. -/
@[simp] theorem committed_stage (s : Store) (h : Height) (batch? : Option Bytes) :
    (stage s h batch?).committed = s.committed := by
  cases batch? <;> rfl

/-- A batch that can be read is read, and a height without one gives none, which counts as empty. -/
theorem runs_readBatch_ok {h : Height} {batch : List Transaction}
    (hbatch : batchAt codec s.view h = .ok batch) :
    ∃ batch?, Access.Runs (Access.readBatch codec h) s (.ok batch?) s ∧
      batch?.getD [] = batch := by
  unfold batchAt at hbatch
  rw [Store.get?_view] at hbatch
  have hget := Access.Runs.get (Key.height h) s
  cases hbytes : s.get? (Key.height h) with
  | none =>
    rw [hbytes] at hbatch hget
    cases hbatch
    exact ⟨none, .bind hget (.pure none s), rfl⟩
  | some bytes =>
    rw [hbytes] at hbatch hget
    -- The hypothesis excludes bytes that are no batch.
    cases hdecode : (codec.unmarshal bytes : Except CodecError (List Transaction)) with
    | ok txs =>
      simp only [hdecode] at hbatch
      cases hbatch
      exact ⟨some batch, .bind hget (.map some (.callCodec_ok hdecode s)), rfl⟩
    | error cause =>
      simp only [hdecode] at hbatch
      cases hbatch

/-- A batch that cannot be read ends the program, with the store as it was. -/
theorem runs_readBatch_error {h : Height} {e : Error}
    (hbatch : batchAt codec s.view h = .error e) :
    Access.Runs (Access.readBatch codec h) s (.error e) s := by
  unfold batchAt at hbatch
  rw [Store.get?_view] at hbatch
  have hget := Access.Runs.get (Key.height h) s
  cases hbytes : s.get? (Key.height h) with
  | none =>
    rw [hbytes] at hbatch
    cases hbatch
  | some bytes =>
    rw [hbytes] at hbatch hget
    cases hdecode : (codec.unmarshal bytes : Except CodecError (List Transaction)) with
    | ok txs =>
      simp only [hdecode] at hbatch
      cases hbatch
    | error cause =>
      simp only [hdecode] at hbatch
      cases hbatch
      exact .bind hget (.map some (.callCodec_error hdecode s))

/-- The program that appends, in the words of the functions on tables. -/
theorem append_eq (codec : Codec) (version : UInt16) (h : Height) (tx : Transaction) :
    append codec version h tx = (do
      let batch? ← Access.readBatch codec h
      if hasId (batch?.getD []) tx.id then
        return false
      else
        let bytes ← Access.marshalBatch codec version (batch?.getD [] ++ [tx])
        Access.put (Key.height h) bytes
        return true) := rfl

/-- Appending stages the extension of the batch, where there is one, and tells whether it did. Where
there is none, the transaction was there already and nothing is written. -/
theorem runs_append_ok {version : UInt16} {h : Height} {tx : Transaction} {batch? : Option Bytes}
    (hext : extension codec version s.view h tx = .ok batch?) :
    Access.Runs (append codec version h tx) s (.ok batch?.isSome) (stage s h batch?) := by
  obtain ⟨batch, hbatch, hcase⟩ := extension_eq_ok_iff.1 hext
  obtain ⟨found, hread, rfl⟩ := runs_readBatch_ok hbatch
  rw [append_eq]
  refine .bind hread ?_
  -- The program and the function decide on the same condition, so the cases are the same.
  by_cases hid : hasId (found.getD []) tx.id = true
  · rw [if_pos hid] at hcase ⊢
    subst hcase
    exact .pure false s
  · rw [if_neg hid] at hcase ⊢
    obtain ⟨bytes, hbytes, rfl⟩ := hcase
    exact .bind (.callCodec_ok hbytes s) (.bind (.put _ bytes s) (.pure true _))

/-- Where the batch cannot be extended, appending fails for the same reason and stages nothing. -/
theorem runs_append_error {version : UInt16} {h : Height} {tx : Transaction} {e : Error}
    (hext : extension codec version s.view h tx = .error e) :
    Access.Runs (append codec version h tx) s (.error e) s := by
  unfold extension at hext
  rw [append_eq]
  cases hbatch : batchAt codec s.view h with
  | error cause =>
    rw [hbatch] at hext
    cases hext
    exact .bind_error (runs_readBatch_error hbatch)
  | ok batch =>
    obtain ⟨found, hread, rfl⟩ := runs_readBatch_ok hbatch
    rw [hbatch] at hext
    refine .bind hread ?_
    -- The batch is there, so it is the longer one that cannot be encoded. A duplicate is not
    -- encoded at all.
    change (if hasId (found.getD []) tx.id then Except.ok none
      else some <$> (codec.marshal version _).mapError Error.codec) = .error e at hext
    by_cases hid : hasId (found.getD []) tx.id = true
    · rw [if_pos hid] at hext
      cases hext
    · rw [if_neg hid] at hext ⊢
      cases hbytes : codec.marshal version (found.getD [] ++ [tx]) with
      | ok bytes =>
        rw [hbytes] at hext
        cases hext
      | error cause =>
        rw [hbytes] at hext
        cases hext
        exact .bind_error (.callCodec_error hbytes s)

/-! ## One entry -/

/-- A checkpoint is due after this many bytes more. -/
def isDue (config : Config) (p : Progress) (size : Nat) : Bool :=
  decide (config.commitSizeCap < p.pendingBytes + size)

/-- The progress behind an entry that has been merged, with a checkpoint if one is due. -/
def advance (config : Config) (item : Item) (batch? : Option Bytes) (p : Progress) : Progress :=
  let merged := p.merged batch?.isSome item.record.payload.length
  if isDue config p item.record.payload.length then merged.checkpointed else merged

/-- The store behind an entry that has been merged: the batch is staged, and if a checkpoint is due
the marker is staged at the entry and everything is committed. -/
def settle (config : Config) (item : Item) (batch? : Option Bytes) (p : Progress) (s : Store) :
    Store :=
  let staged := stage s item.record.height batch?
  if isDue config p item.record.payload.length then
    (staged.put Key.marker (Marker.inProgress item.cursor).encode).commit
  else
    staged

/-- What can be read behind an entry: its batch, and after a checkpoint the marker there. A commit
does not show in the view, so that is all a checkpoint adds. -/
theorem view_settle (config : Config) (item : Item) (batch? : Option Bytes) (p : Progress)
    (s : Store) :
    (settle config item batch? p s).view =
      if isDue config p item.record.payload.length then
        (extend s.view item.record.height batch?).insert Key.marker
          (Marker.inProgress item.cursor).encode
      else
        extend s.view item.record.height batch? := by
  unfold settle
  cases isDue config p item.record.payload.length with
  | true => simp
  | false => simp

/-- What merging an entry comes to: it is refused, and then nothing has changed, or the progress and
the store have moved on. -/
def mergeOne (codec : Codec) (config : Config) (e : Entry) (p : Progress) (s : Store) :
    Except Error Progress × Store :=
  match readItem codec e with
  | .error cause => (.error cause, s)
  | .ok item =>
    match extension codec config.codecVersion s.view item.record.height item.tx with
    | .error cause => (.error cause, s)
    | .ok batch? => (.ok (advance config item batch? p), settle config item batch? p s)

/-- A checkpoint stages the marker and commits. -/
theorem runs_checkpoint (cursor : TxId) (s : Store) :
    Access.Runs (checkpoint cursor) s (.ok ())
      (s.put Key.marker (Marker.inProgress cursor).encode).commit :=
  .bind (.put _ _ s) (.commit _)

/-- What is left to do for an entry that has been read. -/
def mergeItem (codec : Codec) (config : Config) (p : Progress) (item : Item) : Access Progress := do
  let appended ← append codec config.codecVersion item.record.height item.tx
  let p := p.merged appended item.record.payload.length
  if config.commitSizeCap < p.pendingBytes then
    checkpoint item.cursor
    return p.checkpointed
  else
    return p

/-- Where the entry can be read, what is left to do is done. -/
theorem runs_mergeEntry_of_read {e : Entry} {item : Item} {outcome : Except Error Progress}
    (hitem : readItem codec e = .ok item)
    (hrest : Access.Runs (mergeItem codec config p item) s outcome s') :
    Access.Runs (mergeEntry codec config p e) s outcome s' := by
  obtain ⟨hcursor, hrecord, htx⟩ := readItem_eq_ok_iff.1 hitem
  have hread : Access.Runs (Access.readRecord codec e.value) s (.ok (item.tx, item.record)) s :=
    .bind (.ofStored_ok hrecord s) (.bind (.callCodec_ok htx s) (.pure _ s))
  exact .bind (.ofStored_ok hcursor s) (.bind hread hrest)

/-- Where the entry cannot be read, its merge fails with the same defect. The cases are those of
reading it: the key, the header, the payload. -/
theorem runs_mergeEntry_of_read_error {e : Entry} {cause : Error}
    (hitem : readItem codec e = .error cause) :
    Access.Runs (mergeEntry codec config p e) s (.error cause) s := by
  unfold readItem at hitem
  cases hcursor : Key.txId e.key with
  | error defect =>
    rw [hcursor] at hitem
    cases hitem
    exact .bind_error (.ofStored_error hcursor s)
  | ok cursor =>
    refine .bind (.ofStored_ok hcursor s) ?_
    cases hrecord : Record.decode e.value with
    | error defect =>
      rw [hcursor, hrecord] at hitem
      cases hitem
      exact .bind_error (.bind_error (.ofStored_error hrecord s))
    | ok record =>
      rw [hcursor, hrecord] at hitem
      change ((codec.unmarshal record.payload).mapError _ >>= fun tx => _) = _ at hitem
      -- Key and header are in order, so it is the payload that cannot be read.
      cases htx : (codec.unmarshal record.payload : Except CodecError Transaction) with
      | error defect =>
        rw [htx] at hitem
        cases hitem
        have hread : Access.Runs (Access.readRecord codec e.value) s
            (.error (.corruption (.transaction defect))) s :=
          .bind (.ofStored_ok hrecord s) (.bind_error (.callCodec_error htx s))
        exact .bind_error hread
      | ok tx =>
        rw [htx] at hitem
        cases hitem

/-- An entry that has been read and whose batch can be extended is merged, with a checkpoint behind
it if the payloads since the last one exceed the cap. -/
theorem runs_mergeItem {item : Item} {batch? : Option Bytes}
    (hext : extension codec config.codecVersion s.view item.record.height item.tx = .ok batch?) :
    Access.Runs (mergeItem codec config p item) s (.ok (advance config item batch? p))
      (settle config item batch? p s) := by
  refine .bind (runs_append_ok hext) ?_
  show Access.Runs (if config.commitSizeCap < p.pendingBytes + item.record.payload.length then
    _ else _) _ _ _
  unfold advance settle isDue
  by_cases hdue : config.commitSizeCap < p.pendingBytes + item.record.payload.length
  · rw [if_pos hdue, decide_eq_true hdue]
    exact .bind (runs_checkpoint item.cursor _) (.pure _ _)
  · rw [if_neg hdue, decide_eq_false hdue]
    exact .pure _ _

/-- An entry that cannot be read is refused. -/
theorem mergeOne_of_read_error {e : Entry} {cause : Error}
    (hitem : readItem codec e = .error cause) :
    mergeOne codec config e p s = (.error cause, s) := by
  unfold mergeOne
  rw [hitem]

/-- An entry whose batch cannot be extended is refused. -/
theorem mergeOne_of_extension_error {e : Entry} {item : Item} {cause : Error}
    (hitem : readItem codec e = .ok item)
    (hext : extension codec config.codecVersion s.view item.record.height item.tx =
      .error cause) :
    mergeOne codec config e p s = (.error cause, s) := by
  simp only [mergeOne, hitem, hext]

/-- An entry that is read and whose batch can be extended is merged, with what `advance` and
`settle` say. -/
theorem mergeOne_of_extension {e : Entry} {item : Item} {batch? : Option Bytes}
    (hitem : readItem codec e = .ok item)
    (hext : extension codec config.codecVersion s.view item.record.height item.tx = .ok batch?) :
    mergeOne codec config e p s =
      (.ok (advance config item batch? p), settle config item batch? p s) := by
  simp only [mergeOne, hitem, hext]

/-- A merge that succeeds has read the entry and extended its batch. With the three lemmas before,
these are all the ways a merge can go. -/
theorem exists_of_mergeOne {e : Entry} (h : mergeOne codec config e p s = (.ok p', s')) :
    ∃ item batch?, readItem codec e = .ok item ∧
      extension codec config.codecVersion s.view item.record.height item.tx = .ok batch? ∧
      p' = advance config item batch? p ∧ s' = settle config item batch? p s := by
  cases hitem : readItem codec e with
  | error cause =>
    rw [mergeOne_of_read_error hitem] at h
    cases h
  | ok item =>
    cases hext : extension codec config.codecVersion s.view item.record.height item.tx with
    | error cause =>
      rw [mergeOne_of_extension_error hitem hext] at h
      cases h
    | ok batch? =>
      rw [mergeOne_of_extension hitem hext] at h
      cases h
      exact ⟨item, batch?, rfl, hext, rfl, rfl⟩

/-- **Merging one entry.** Without faults the program does what `mergeOne` says, whether it succeeds
or not. -/
theorem runs_mergeEntry (codec : Codec) (config : Config) (p : Progress) (e : Entry) (s : Store) :
    Access.Runs (mergeEntry codec config p e) s (mergeOne codec config e p s).1
      (mergeOne codec config e p s).2 := by
  cases hitem : readItem codec e with
  | error cause =>
    rw [mergeOne_of_read_error hitem]
    exact runs_mergeEntry_of_read_error hitem
  | ok item =>
    cases hext : extension codec config.codecVersion s.view item.record.height item.tx with
    | error cause =>
      rw [mergeOne_of_extension_error hitem hext]
      exact runs_mergeEntry_of_read hitem (.bind_error (runs_append_error hext))
    | ok batch? =>
      rw [mergeOne_of_extension hitem hext]
      exact runs_mergeEntry_of_read hitem (runs_mergeItem hext)

/-! ## Many entries -/

/-- What merging entries one after the other comes to; the first that fails ends it. -/
def mergeList (codec : Codec) (config : Config) :
    List Entry → Progress → Store → Except Error Progress × Store
  | [], p, s => (.ok p, s)
  | e :: entries, p, s =>
    match mergeOne codec config e p s with
    | (.ok p', s') => mergeList codec config entries p' s'
    | (.error cause, s') => (.error cause, s')

theorem mergeList_cons {e : Entry} {entries : List Entry} :
    mergeList codec config (e :: entries) p s =
      match mergeOne codec config e p s with
      | (.ok p', s') => mergeList codec config entries p' s'
      | (.error cause, s') => (.error cause, s') := rfl

/-- A list is merged if its first entry is and then the others, from what the first has left. -/
theorem mergeList_cons_eq_ok_iff {e : Entry} {entries : List Entry} :
    mergeList codec config (e :: entries) p s = (.ok p', s') ↔
      ∃ p₁ s₁, mergeOne codec config e p s = (.ok p₁, s₁) ∧
        mergeList codec config entries p₁ s₁ = (.ok p', s') := by
  rw [mergeList_cons]
  rcases mergeOne codec config e p s with ⟨outcome, s₁⟩
  cases outcome with
  | ok p₁ =>
    refine ⟨fun h => ⟨p₁, s₁, rfl, h⟩, fun h => ?_⟩
    obtain ⟨_, _, hone, hrest⟩ := h
    cases hone
    exact hrest
  | error cause =>
    refine ⟨fun h => (nomatch h), fun h => ?_⟩
    obtain ⟨_, _, hone, -⟩ := h
    cases hone

theorem mergeList_append {first second : List Entry} :
    mergeList codec config (first ++ second) p s =
      match mergeList codec config first p s with
      | (.ok p', s') => mergeList codec config second p' s'
      | (.error cause, s') => (.error cause, s') := by
  induction first generalizing p s with
  | nil => rfl
  | cons e first ih =>
    rw [List.cons_append, mergeList_cons, mergeList_cons]
    rcases mergeOne codec config e p s with ⟨outcome, s₁⟩
    cases outcome with
    | ok p₁ => exact ih
    | error cause => rfl

theorem mergeList_append_ok {first second : List Entry}
    (h : mergeList codec config first p s = (.ok p', s')) :
    mergeList codec config (first ++ second) p s = mergeList codec config second p' s' := by
  rw [mergeList_append, h]

/-- **Merging a list of entries.** Without faults the loop does what `mergeList` says. Induction on
the list, with `runs_mergeEntry` for each entry. -/
theorem runs_foldlM_mergeEntry (codec : Codec) (config : Config) (entries : List Entry)
    (p : Progress) (s : Store) :
    Access.Runs (entries.foldlM (mergeEntry codec config) p) s
      (mergeList codec config entries p s).1 (mergeList codec config entries p s).2 := by
  induction entries generalizing p s with
  | nil => exact .pure p s
  | cons e entries ih =>
    have hone := runs_mergeEntry codec config p e s
    rw [List.foldlM_cons, mergeList_cons]
    -- Behind a merged entry the loop goes on, behind a refused one it stops.
    rcases hmerge : mergeOne codec config e p s with ⟨outcome, s₁⟩
    rw [hmerge] at hone
    cases outcome with
    | ok p₁ => exact .bind hone (ih p₁ s₁)
    | error cause => exact .bind_error hone

/-! ## With faults -/

/-- None of the calls of a merge succeeds in another way with faults than without. So a merge that
succeeds under faults is the merge without them. -/
theorem ofCalls_unfaulted (codec : Codec) (version : UInt16) :
    OfCalls (fun _ => Access.Unfaulted) codec version where
  toClosed := Access.Unfaulted.closed
  getBatch _ := .callStore _ _
  putBatch _ := .callStore _ _
  putMarker _ := .put _ _
  commit := .callStore _ _

/-- A merge of an entry that fails keeps what puts keep. Its last call may be a commit, but if that
has been made the merge has not failed. -/
theorem keepsFailing_mergeEntry {f : Store → γ}
    (hput : ∀ (s : Store) key value, f (s.put key value) = f s) (codec : Codec) (config : Config)
    (p : Progress) (e : Entry) : Access.KeepsFailing f (mergeEntry codec config p e) := by
  -- Before the checkpoint nothing is committed, and its commit is the last call. So the checkpoint is
  -- taken apart here: the commit itself need not keep `f`, for a commit that fails has done nothing.
  have hclosed : Access.Closed fun _ => Access.Keeps f := Access.Keeps.closed
  refine .bind (hclosed.ofStored _) fun cursor => .bind (hclosed.readRecord _ _) fun read => ?_
  refine .bind (hclosed.append (.get _) (fun _ => .put fun s => hput s _ _) _) fun appended => ?_
  refine Access.Closed.ite (P := fun _ => Access.KeepsFailing f) (.bind_pure ?_)
    (.of_keeps (hclosed.pure _))
  exact .bind (.put fun s => hput s _ _) fun _ => .callStore _ _

/-- A merge that succeeds under whatever faults has met none, so it has done what `mergeOne` says.
With this the faults are out of the way, and what follows is about functions on stores. -/
theorem mergeOne_of_mergeEntry {e : Entry} {faults : Faults} {b b' : Backend}
    (h : mergeEntry codec config p e faults b = .ok p' b') :
    mergeOne codec config e p b.store = (.ok p', b'.store) := by
  obtain ⟨houtcome, hstore⟩ := Access.Runs.of_ok (runs_mergeEntry codec config p e b.store)
    ((ofCalls_unfaulted codec _).mergeEntry p e) rfl h
  exact Prod.ext houtcome hstore.symm

/-- A list of entries that fails to be merged has been merged up to one of them, and nothing has
been committed since. -/
theorem mergeList_of_foldlM_error {entries : List Entry} {faults : Faults} {b b' : Backend}
    {e : Error} (h : entries.foldlM (mergeEntry codec config) p faults b = .error e b') :
    ∃ done rest p₁ s₁, entries = done ++ rest ∧
      mergeList codec config done p b.store = (.ok p₁, s₁) ∧
      b'.store.committed = s₁.committed := by
  induction entries generalizing p b with
  | nil => cases h
  | cons entry entries ih =>
    rw [List.foldlM_cons] at h
    rcases Access.bind_eq_error_iff.1 h with hone | ⟨p₁, b₁, hone, h⟩
    · -- The merge that fails may have staged something, but it has committed nothing.
      have hkeep := keepsFailing_mergeEntry (f := Store.committed) (fun _ _ _ => rfl) codec config p
        entry faults b e b' hone
      exact ⟨[], entry :: entries, p, b.store, rfl, rfl, hkeep⟩
    · obtain ⟨done, rest, p₂, s₂, rfl, hdone, hcommitted⟩ := ih h
      refine ⟨entry :: done, rest, p₂, s₂, rfl, ?_, hcommitted⟩
      rw [mergeList_cons, mergeOne_of_mergeEntry hone]
      exact hdone

end Backfill

end TxIndex

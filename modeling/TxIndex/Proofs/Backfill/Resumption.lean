import TxIndex.Proofs.Backfill.Opening

/-!
# Resumption

A backfill that has been interrupted goes on from its last checkpoint, and that record is merged a
second time. The table that a checkpoint has left is `Resumable` from the original one; going on
from it comes to the same merge (`Resumable.mergeAll`), so checkpoints of checkpoints are
checkpoints of the original (`Resumable.trans`).

`committed_eq_of_interrupted`: after any number of interrupted attempts, the attempt that succeeds
commits what a single uninterrupted one would have committed.
-/

namespace TxIndex

namespace Backfill

variable {codec : Codec} {version : UInt16} {t t' u : Table}

/-! ## Going on from a checkpoint -/

/-- The records of an interrupted backfill that are still to come begin with the record of the
checkpoint. -/
theorem Checkpointed.toCome_eq {start : Bytes} {upto rest : List Entry} {e : Entry} {cursor : TxId}
    (h : Checkpointed codec version t start upto e rest cursor u t') :
    toCome (Key.tx cursor) t' = e :: rest := by
  have hu : toCome e.key u = toCome e.key t := toCome_mergeAll h.merged
  rw [h.marked, markedAt, toCome_insert_marker, ← h.key, hu]
  exact Table.listing_key h.come

/-- Going on from a checkpoint comes to the same as not having been interrupted. The record of the
checkpoint is merged a second time, and is found to be a duplicate. -/
theorem Checkpointed.mergeAll_eq {start : Bytes} {upto rest more : List Entry} {e : Entry}
    {cursor : TxId} (h : Checkpointed codec version t start upto e rest cursor u t') :
    mergeAll codec version t' (e :: more) =
      (mergeAll codec version t (upto ++ e :: more)).map fun v => markedAt v cursor := by
  obtain ⟨v, hupto, hlast⟩ := mergeAll_append_eq_ok_iff.1 h.merged
  obtain ⟨u', hone, hu⟩ := mergeAll_cons_eq_ok_iff.1 hlast
  cases hu
  -- The record of the checkpoint is found in its batch, so merging it again changes nothing.
  have hagain : mergeAll codec version u (e :: more) = mergeAll codec version u more := by
    rw [mergeAll_cons, mergeInto_of_mergeInto hone]
    rfl
  have hwhole : mergeAll codec version t (upto ++ e :: more) = mergeAll codec version u more := by
    rw [mergeAll_append, hupto]
    show mergeAll codec version v (e :: more) = _
    rw [mergeAll_cons, hone]
    rfl
  rw [h.marked, hwhole, ← hagain]
  exact mergeAll_insert_marker

/-- A checkpoint of a backfill that went on from a checkpoint is a checkpoint of the original. What
the two have merged overlaps in one record, which the first has merged last and the second first. -/
theorem Checkpointed.trans {start start' : Bytes} {upto upto' rest rest' : List Entry}
    {e e' : Entry} {cursor cursor' : TxId} {u' t'' : Table}
    (h : Checkpointed codec version t start upto e rest cursor u t')
    (h' : Checkpointed codec version t' start' upto' e' rest' cursor' u' t'') :
    ∃ v, Checkpointed codec version t start (upto ++ upto') e' rest' cursor' v t'' := by
  have hstart : start' = Key.tx cursor := by
    have hdue := h'.due
    rw [h.marked, dueFrom_markedAt] at hdue
    cases hdue
    rfl
  have hcome : e :: rest = upto' ++ e' :: rest' := by
    rw [← h.toCome_eq, ← hstart]
    exact h'.come
  -- What the second run has merged begins with the record of the first checkpoint.
  obtain ⟨more, hmore⟩ : ∃ more, upto' ++ [e'] = e :: more := by
    cases upto' with
    | nil =>
      cases hcome
      exact ⟨[], rfl⟩
    | cons first upto' =>
      cases hcome
      exact ⟨upto' ++ [e'], rfl⟩
  have hmerged := h'.merged
  rw [hmore, h.mergeAll_eq, ← hmore] at hmerged
  obtain ⟨v, hv, rfl⟩ := Except.map_eq_ok_iff.1 hmerged
  refine ⟨v, h.due, ?_, h'.key, ?_, ?_⟩
  · rw [h.come, hcome, List.append_assoc]
  · rw [List.append_assoc]
    exact hv
  · rw [h'.marked, markedAt_markedAt]

/-- `t'` is `t`, or what a checkpoint of a backfill of `t` has left. -/
def Resumable (codec : Codec) (version : UInt16) (t t' : Table) : Prop :=
  t' = t ∨ ∃ start upto e rest cursor u,
    Checkpointed codec version t start upto e rest cursor u t'

/-- Going on from what can be gone on from. This is how two attempts that have failed are put
together. -/
theorem Resumable.trans {t'' : Table} (h : Resumable codec version t t')
    (h' : Resumable codec version t' t'') : Resumable codec version t t'' := by
  rcases h with rfl | ⟨start, upto, e, rest, cursor, u, h⟩
  · exact h'
  · rcases h' with rfl | ⟨start', upto', e', rest', cursor', u', h'⟩
    · exact .inr ⟨start, upto, e, rest, cursor, u, h⟩
    · obtain ⟨v, hv⟩ := h.trans h'
      exact .inr ⟨start, upto ++ upto', e', rest', cursor', v, hv⟩

/-- What is still to be merged into a resumable table makes of it what the whole merge makes of the
original, but for the marker. -/
theorem Resumable.mergeAll {start' : Bytes} {w : Table} (h : Resumable codec version t t')
    (hdue : dueFrom t' = some start')
    (hmerge : Backfill.mergeAll codec version t' (toCome start' t') = .ok w) :
    ∃ start v, dueFrom t = some start ∧
      Backfill.mergeAll codec version t (toCome start t) = .ok v ∧
      ∀ value, w.insert Key.marker value = v.insert Key.marker value := by
  rcases h with rfl | ⟨start, upto, e, rest, cursor, u, h⟩
  · exact ⟨start', w, hdue, hmerge, fun _ => rfl⟩
  · have hstart : start' = Key.tx cursor := by
      rw [h.marked, dueFrom_markedAt] at hdue
      cases hdue
      rfl
    rw [hstart, h.toCome_eq, h.mergeAll_eq, ← h.come] at hmerge
    obtain ⟨v, hv, rfl⟩ := Except.map_eq_ok_iff.1 hmerge
    exact ⟨start, v, h.due, hv, fun value => Table.insert_insert ..⟩

end Backfill

/-! ## Interrupted attempts -/

namespace Repository

variable {codec : Codec} {version : UInt16} {s s' : Store}

/-- Attempts to open a repository, one after the other, each with its own settings, accepted height
and faults and each on a new handle, have all failed. What is committed has come from that of `s` to
that of `s'`. -/
inductive Interrupted (codec : Codec) (version : UInt16) : Store → Store → Prop where
  | refl (s : Store) : Interrupted codec version s s
  | attempt {s s' : Store} {config : Config} {lastAccepted : Height} {faults : Faults}
      {cause : Error} {b : Backend} (hversion : config.codecVersion = version)
      (hfail : openStore codec config lastAccepted faults { store := s.reopen } = .error cause b)
      (hmore : Interrupted codec version b.store s') : Interrupted codec version s s'

/-- Whatever makes opening fail, what it has committed can be gone on from: the old data, or that of
a checkpoint. -/
theorem resumable_of_openStore_error {config : Config} {lastAccepted : Height} {faults : Faults}
    {calls : Calls} {cause : Error} {b : Backend}
    (h : openStore codec config lastAccepted faults ⟨s.reopen, calls⟩ = .error cause b) :
    Backfill.Resumable codec config.codecVersion s.committed b.store.committed :=
  Backfill.run_eq_error (openStore_eq_error_iff.1 h)

/-- What many attempts have committed, one after the other, can be gone on from, too. By induction
on the attempts, where two of them are put together by `Resumable.trans`. -/
theorem Interrupted.resumable (h : Interrupted codec version s s') :
    Backfill.Resumable codec version s.committed s'.committed := by
  induction h with
  | refl s => exact .inl rfl
  | attempt hversion hfail _ ih =>
    subst hversion
    exact (resumable_of_openStore_error hfail).trans ih

/-- **Interruptions do not show.** However often opening has failed before and at whatever calls,
the attempt that succeeds leaves the same committed data, byte for byte, as one uninterrupted
attempt on the original data with the same accepted height. -/
theorem committed_eq_of_interrupted {config config₀ : Config} {lastAccepted : Height}
    {faults : Faults} {r : Repository} {b : Backend} (hfailed : Interrupted codec version s s')
    (hversion : config.codecVersion = version) (hversion₀ : config₀.codecVersion = version)
    (hok : openStore codec config lastAccepted faults { store := s'.reopen } = .ok r b) :
    ∃ r₀ b₀, openStore codec config₀ lastAccepted Faults.none { store := s.reopen } = .ok r₀ b₀ ∧
      b₀.store.committed = b.store.committed := by
  subst hversion
  have hresume := hfailed.resumable
  obtain ⟨report, hrun, -⟩ := openStore_eq_ok_iff.1 hok
  rcases Backfill.run_eq_ok hrun with ⟨⟨height, hcomplete⟩, hstore⟩ | ⟨start, w, hdue, hw, -, hcommitted⟩
  · -- A complete index is the work of no checkpoint, so nothing has ever been written.
    have hsame : s'.committed = s.committed := by
      rcases hresume with hsame | ⟨_, _, _, _, cursor, u, hmarked⟩
      · exact hsame
      · rw [Store.view_reopen, hmarked.marked] at hcomplete
        exact absurd hcomplete (Backfill.not_completeThrough_markedAt u cursor height)
    have hcomplete₀ : Backfill.CompleteThrough s.reopen.view height := by
      rw [Store.view_reopen, ← hsame]
      exact hcomplete
    obtain ⟨b₀, hopen, hb₀⟩ := (runs_openStore
      (Backfill.runs_run_of_complete codec config₀ lastAccepted hcomplete₀)).eq_ending {}
    refine ⟨_, b₀, hopen, ?_⟩
    rw [hb₀, hstore]
    exact hsame.symm
  · -- What was left to merge makes of the interrupted table what the whole merge makes of the
    -- original one, up to the marker, and the last marker is the same.
    obtain ⟨start₀, v, hdue₀, hv, heq⟩ := hresume.mergeAll hdue hw
    rw [← hversion₀] at hv
    obtain ⟨report₀, s₀, hruns, -, hcommitted₀⟩ :=
      Backfill.runs_run_of_mergeAll (s := s.reopen) lastAccepted hdue₀ hv
    obtain ⟨b₀, hopen, hb₀⟩ := (runs_openStore hruns).eq_ending {}
    refine ⟨_, b₀, hopen, ?_⟩
    rw [hb₀, hcommitted₀, hcommitted, heq]

/-- A crash behind the first checkpoint, another one at the last commit, and a third attempt with
other settings. -/
theorem committed_eq_of_interrupted_twice :
    ∃ s' r b, Interrupted {} 0 Sample.store s' ∧ s'.committed ≠ Sample.store.committed ∧
      openStore {} {} 9 Faults.none { store := s'.reopen } = .ok r b ∧
      ∃ r₀ b₀, openStore {} Sample.smallSteps 9 Faults.none { store := Sample.store.reopen } =
          .ok r₀ b₀ ∧
        b₀.store.committed = b.store.committed := by
  let t := Backfill.markedAt
    (Sample.table.insert (Key.height 5) (Sample.batch [Sample.tx 1])) (Sample.id 1)
  let full := Sample.batch [Sample.tx 1, Sample.tx 2]
  -- The three attempts are evaluated, and what each has committed is where the next begins.
  have hfirst : Access.committedOnError? (openStore {} Sample.smallSteps 4
      (Faults.none.limitStore .put 2 (.io "full")) { store := Sample.store.reopen }) = some t := by
    decide +kernel
  have hsecond : Access.committedOnError? (openStore {} {} 7
      (Faults.none.limitStore .commit 0 (.commit "lost")) { store := { committed := t } }) =
        some t := by
    decide +kernel
  have hthird : Access.committedOnOk? (openStore {} {} 9 Faults.none
      { store := { committed := t } }) = some ((Sample.table.insert (Key.height 5) full).insert
        Key.marker (Marker.complete 9).encode) := by
    decide +kernel
  obtain ⟨cause₁, b₁, hfirst, hcommitted₁⟩ := Access.exists_of_committedOnError? hfirst
  obtain ⟨cause₂, b₂, hsecond, hcommitted₂⟩ := Access.exists_of_committedOnError? hsecond
  obtain ⟨r, b, hthird, -⟩ := Access.exists_of_committedOnOk? hthird
  have hreopen₁ : b₁.store.reopen = { committed := t } := congrArg _ hcommitted₁
  have hreopen₂ : b₂.store.reopen = { committed := t } := congrArg _ hcommitted₂
  have hfailed : Interrupted {} 0 Sample.store b₂.store :=
    .attempt rfl hfirst (.attempt rfl (hreopen₁ ▸ hsecond) (.refl _))
  have hok : openStore {} {} 9 Faults.none { store := b₂.store.reopen } = .ok r b :=
    hreopen₂ ▸ hthird
  have hchanged : b₂.store.committed ≠ Sample.store.committed := by
    rw [hcommitted₂]
    decide +kernel
  exact ⟨b₂.store, r, b, hfailed, hchanged, hok,
    committed_eq_of_interrupted hfailed rfl rfl hok⟩

end Repository

end TxIndex

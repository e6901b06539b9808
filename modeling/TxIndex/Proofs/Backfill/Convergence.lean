import TxIndex.Proofs.Backfill.Positions
import TxIndex.Proofs.Backfill.Resumption

/-!
# Interrupted attempts converge

A store is opened again and again, each time on a new handle, with settings of its own and with
faults of its own (`Attempt`, `storeAfter`). The cursor never moves back, whatever fails. An attempt
that has made two commits moves it forward, so it leaves fewer entries to come than it found
(`exists_shorter_of_failing`); that many attempts at most can be interrupted in this way.
-/

namespace TxIndex

open Backfill

namespace Repository

/-- An attempt to open a repository: the settings of its handle, the height that is accepted by
then, and what fails in it. -/
structure Attempt where
  config : Config
  lastAccepted : Height
  faults : Faults

namespace Attempt

/-- The attempt on a new handle. -/
def result (codec : Codec) (a : Attempt) (s : Store) : Access.Result Repository :=
  openStore codec a.config a.lastAccepted a.faults { store := s.reopen }

/-- The store that the attempt leaves, whether it succeeds or not. -/
def store (codec : Codec) (a : Attempt) (s : Store) : Store :=
  (Access.after (openStore codec a.config a.lastAccepted) a.faults { store := s.reopen }).store

end Attempt

/-- The store behind the first `i` attempts. -/
def storeAfter (codec : Codec) (attempts : Nat → Attempt) (s : Store) : Nat → Store
  | 0 => s
  | i + 1 => (attempts i).store codec (storeAfter codec attempts s i)

variable {codec : Codec} {config : Config} {lastAccepted : Height} {s : Store} {start : Bytes}
  {faults : Faults} {b : Backend} {cause : Error} {a : Attempt}

/-- Opening does to the store what the backfill does. -/
theorem store_after_openStore :
    (Access.after (openStore codec config lastAccepted) faults b).store =
      (Access.after (Backfill.run codec config lastAccepted) faults b).store := by
  unfold openStore Access.after
  rw [Access.bind_apply]
  cases Backfill.run codec config lastAccepted faults b <;> rfl

theorem Attempt.store_of_error (h : a.result codec s = .error cause b) :
    a.store codec s = b.store := by
  unfold Attempt.result at h
  unfold Attempt.store Access.after
  rw [h]

/-- On a new handle nothing is staged, so an attempt starts from the committed data. It leaves one
of the two cases of `Left`, whatever it has met. -/
theorem Attempt.left_store (a : Attempt) (hdue : dueFrom s.committed = some start) :
    Left codec a.config s.reopen start (a.store codec s) := by
  unfold Attempt.store
  rw [store_after_openStore]
  exact left_run codec a.config a.lastAccepted a.faults {} hdue

/-! ## Where nothing is to be merged -/

/-- If the index is complete, or the marker cannot be read, nothing is done. This holds for any
faults: the one call that is made is a read. -/
theorem store_after_run (hdue : dueFrom b.store.view = none) :
    (Access.after (Backfill.run codec config lastAccepted) faults b).store = b.store := by
  rw [run_eq, Access.after_bind]
  cases hread : Access.readMarker faults b with
  | error cause b' =>
    exact Access.keepsFailing_readMarker (f := fun s : Store => s) _ _ _ _ hread
  | ok marker? b' =>
    obtain ⟨hstore, hstart, -⟩ := of_readMarker_ok hread
    show (Access.after (proceed codec config lastAccepted (.ofMarker marker?)) faults b').store = _
    unfold proceed
    rw [← hstart, hdue]
    exact hstore

/-- If there is nothing to do, an attempt leaves the data as they are. -/
theorem Attempt.store_of_not_due (a : Attempt) (hdue : dueFrom s.committed = none) :
    a.store codec s = s.reopen := by
  unfold Attempt.store
  rw [store_after_openStore]
  exact store_after_run hdue

/-! ## The cursor does not move back -/

/-- One attempt does not move the cursor back. Stopping at once would have been an attempt on the
same data, with no commit made, and so the attempt stands no further back than that. -/
theorem Attempt.notBehind (codec : Codec) (a : Attempt) (s : Store) :
    NotBehind s.committed (a.store codec s).committed := by
  intro cursor hcursor
  have hdue := dueFrom_of_cursorOf hcursor
  -- An attempt that stops before it has done anything leaves the data as they are.
  have hnothing : Left codec a.config s.reopen (Key.tx cursor) s.reopen :=
    .stopped (List.nil_append _).symm rfl (.nowhere rfl rfl)
  exact hnothing.notBehind (a.left_store hdue) hdue rfl (Nat.zero_le _) cursor hcursor

/-- Any number of attempts, one after the other, do not move the cursor back. Behind an attempt that
has succeeded nothing is done any more. -/
theorem notBehind_storeAfter (codec : Codec) (attempts : Nat → Attempt) (s : Store) {i j : Nat}
    (hle : i ≤ j) :
    NotBehind (storeAfter codec attempts s i).committed
      (storeAfter codec attempts s j).committed := by
  induction j, hle using Nat.le_induction with
  | base => exact .refl _
  | succ j _ ih =>
    intro cursor hcursor
    rcases ih cursor hcursor with ⟨height, hcomplete⟩ | ⟨cursor', hcursor', hge⟩
    · -- The index is complete, and stays so.
      refine .inl ⟨height, ?_⟩
      rw [storeAfter, Attempt.store_of_not_due _ (dueFrom_of_completeThrough hcomplete)]
      exact hcomplete
    · -- There is a cursor, and the next attempt does not move it back.
      refine ((attempts j).notBehind codec _ cursor' hcursor').imp_right fun h => ?_
      obtain ⟨cursor'', hcursor'', hge'⟩ := h
      exact ⟨cursor'', hcursor'', fun hlt => hge' (Bytes.lt_of_lt_of_not_lt hlt hge)⟩

/-! ## Two commits move it forward -/

/-- An attempt that fails with two commits made has left a checkpoint with an entry before it. That
entry will not be to come any more in the next attempt. -/
theorem exists_checkpointed_of_failing (h : a.result codec s = .error cause b)
    (htwo : 2 ≤ b.store.commits) :
    ∃ start upto e rest cursor u, upto ≠ [] ∧
      Checkpointed codec a.config.codecVersion s.committed start upto e rest cursor u
        b.store.committed := by
  have hrun := openStore_eq_error_iff.1 h
  cases hdue : dueFrom s.committed with
  | none =>
    -- Where nothing is due no commit is made, so two have not been.
    rw [← Attempt.store_of_error h, Attempt.store_of_not_due a hdue] at htwo
    exact absurd (show 2 ≤ 0 from htwo) (by decide)
  | some start =>
    -- The commits of an attempt that fails are its checkpoints.
    obtain ⟨done, rest, hsplit, hcommits, hanchored⟩ :=
      exists_stopped_of_run_error (s := s.reopen) hdue hrun
    rw [hcommits] at htwo
    change 2 ≤ 0 + _ at htwo
    rw [Nat.zero_add] at htwo
    exact ⟨start, hanchored.exists_checkpointed hdue hsplit htwo⟩

/-- A checkpoint with an entry before it is at a key behind the old cursor: the entries to come
begin at the old cursor, and they ascend. -/
theorem further_of_checkpointed {version : UInt16} {t u t' : Table} {upto rest : List Entry}
    {e : Entry} {cursor : TxId} (hne : upto ≠ [])
    (h : Checkpointed codec version t start upto e rest cursor u t') : Further t t' := by
  unfold Further
  rw [h.marked, cursorOf_markedAt]
  cases hcursor : cursorOf t with
  | none => trivial
  | some cursor₀ =>
    have hdue := h.due
    rw [dueFrom_of_cursorOf hcursor] at hdue
    cases hdue
    -- The first entry to come is not before the old cursor, and it is before the new one.
    obtain ⟨d, upto, rfl⟩ := List.exists_cons_of_ne_nil hne
    have hcome := h.come
    have hmem : d ∈ toCome (Key.tx cursor₀) t := by
      rw [hcome]
      simp
    have hasc := Table.ascending_listing (Key.tx cursor₀) Space.txById.tag t
    change (toCome (Key.tx cursor₀) t).Pairwise _ at hasc
    rw [hcome, List.cons_append] at hasc
    have hlt : d.key < e.key := (List.pairwise_cons.1 hasc).1 e (by simp)
    show Key.tx cursor₀ < Key.tx cursor
    rw [← h.key]
    exact Bytes.lt_of_not_lt_of_lt (not_lt_of_mem_toCome hmem) hlt

/-! ## No more attempts than entries -/

/-- An attempt that fails with its third commit or a later one leaves fewer entries to come than it
found, and they can still be merged. This is the step of the convergence: the number of the entries
to come is what decreases. -/
theorem exists_shorter_of_failing {w : Table} (hlate : a.faults.OnlyLateCommits 2)
    (hdue : dueFrom s.committed = some start)
    (hmerge : mergeAll codec a.config.codecVersion s.committed (toCome start s.committed) = .ok w)
    (h : a.result codec s = .error cause b) :
    ∃ start' w', dueFrom b.store.committed = some start' ∧
      mergeAll codec a.config.codecVersion b.store.committed (toCome start' b.store.committed) =
        .ok w' ∧
      0 < (toCome start' b.store.committed).length ∧
      (toCome start' b.store.committed).length < (toCome start s.committed).length := by
  -- Without faults the attempt would have succeeded, so a commit has failed, and not one of the
  -- first two.
  have htwo : 2 ≤ b.store.commits := by
    have hrun := openStore_eq_error_iff.1 h
    have hlands := lands_run 2 codec a.config a.lastAccepted
    have hstep : Access.InStep { store := s.reopen } := rfl
    refine (hlands.of_error hlate hstep hrun).resolve_right fun hnone => ?_
    obtain ⟨report, b', hopen, -⟩ :=
      exists_openStore_of_mergeAll (s := s.reopen) a.lastAccepted {} hdue hmerge
    rw [openStore_eq_error_iff.2 hnone] at hopen
    cases hopen
  obtain ⟨start₁, upto, e, rest, cursor, u, hne, hsaved⟩ := exists_checkpointed_of_failing h htwo
  have hstart : start₁ = start := Option.some.inj (hsaved.due.symm.trans hdue)
  subst hstart
  have hcome := hsaved.toCome_eq
  rw [hsaved.come] at hmerge
  refine ⟨Key.tx cursor, markedAt w cursor, ?_, ?_, ?_, ?_⟩
  · rw [hsaved.marked, dueFrom_markedAt]
  · rw [hcome, hsaved.mergeAll_eq, hmerge]
    rfl
  · rw [hcome]
    exact Nat.succ_pos _
  · have hpos := List.length_pos_iff.2 hne
    rw [hcome, hsaved.come, List.length_append]
    omega

/-- The entries to come are among the records by id. -/
theorem length_toCome_le (start : Bytes) (s : Store) :
    (toCome start s.view).length ≤ (txEntries s).length := by
  have hfilter : toCome start s.view = (txEntries s).filter fun e => !decide (e.key < start) := by
    unfold txEntries toCome Table.listing Table.inRange
    rw [List.filter_filter]
  rw [hfilter]
  exact List.length_filter_le ..

/-- What is to come behind `i` attempts that have failed late: at least `i` entries fewer, and still
one of them. By induction on the attempts, each with `exists_shorter_of_failing`. -/
theorem exists_toCome_storeAfter {attempts : Nat → Attempt} {version : UInt16} {w : Table} {i : Nat}
    (hversion : ∀ k, (attempts k).config.codecVersion = version)
    (hlate : ∀ k, (attempts k).faults.OnlyLateCommits 2)
    (hdue : dueFrom s.committed = some start)
    (hmerge : mergeAll codec version s.committed (toCome start s.committed) = .ok w)
    (hfail : ∀ k < i, ∃ cause b,
      (attempts k).result codec (storeAfter codec attempts s k) = .error cause b) :
    ∃ start' w', dueFrom (storeAfter codec attempts s i).committed = some start' ∧
      mergeAll codec version (storeAfter codec attempts s i).committed
        (toCome start' (storeAfter codec attempts s i).committed) = .ok w' ∧
      (0 < i → 0 < (toCome start' (storeAfter codec attempts s i).committed).length) ∧
      (toCome start' (storeAfter codec attempts s i).committed).length + i ≤
        (toCome start s.committed).length := by
  induction i with
  | zero => exact ⟨start, w, hdue, hmerge, fun h => absurd h (Nat.lt_irrefl 0), Nat.le_refl _⟩
  | succ i ih =>
    obtain ⟨start₁, w₁, hdue₁, hmerge₁, -, hlength₁⟩ := ih fun k hk => hfail k (Nat.lt_succ_of_lt hk)
    obtain ⟨cause, b, hattempt⟩ := hfail i (Nat.lt_succ_self i)
    rw [← hversion i] at hmerge₁
    -- The attempt begins with the entries that the induction speaks of, and leaves fewer.
    obtain ⟨start₂, w₂, hdue₂, hmerge₂, hpos, hshorter⟩ :=
      exists_shorter_of_failing (hlate i) hdue₁ hmerge₁ hattempt
    rw [storeAfter, Attempt.store_of_error hattempt]
    rw [hversion i] at hmerge₂
    exact ⟨start₂, w₂, hdue₂, hmerge₂, fun _ => hpos, by omega⟩

/-- **Repeated interruptions converge.** For any sequence of attempts on new handles, each with its
own cap, page size and accepted height:

* whatever fails, the committed cursor never moves back, neither from attempt to attempt nor within
  an attempt, where two moments are told by what else might have failed in it and by how often it
  had committed;
* an attempt that fails with two commits made leaves a cursor behind the one it has resumed from;
* if opening would succeed without faults and something is to be merged, if nothing but commits can
  fail, and not the first two of an attempt, then one of the first `n` attempts succeeds, where `n`
  is the number of records by id, or one if there are none. -/
theorem attempts_converge (codec : Codec) (s : Store) (attempts : Nat → Attempt) :
    (∀ i j, i ≤ j → NotBehind (storeAfter codec attempts s i).committed
      (storeAfter codec attempts s j).committed) ∧
    (∀ i faults₁ faults₂,
      let first := { attempts i with faults := faults₁ }.store codec (storeAfter codec attempts s i)
      let second := { attempts i with faults := faults₂ }.store codec (storeAfter codec attempts s i)
      first.commits ≤ second.commits → NotBehind first.committed second.committed) ∧
    (∀ i cause b, (attempts i).result codec (storeAfter codec attempts s i) = .error cause b →
      2 ≤ b.store.commits →
        Further (storeAfter codec attempts s i).committed b.store.committed) ∧
    ∀ config lastAccepted start r b, dueFrom s.committed = some start →
      openStore codec config lastAccepted Faults.none { store := s.reopen } = .ok r b →
      (∀ i, (attempts i).config.codecVersion = config.codecVersion) →
      (∀ i, (attempts i).faults.OnlyLateCommits 2) →
        ∃ i < max 1 (txEntries s.reopen).length, ∃ r' b',
          (attempts i).result codec (storeAfter codec attempts s i) = .ok r' b' := by
  refine ⟨fun i j hle => notBehind_storeAfter codec attempts s hle, fun i faults₁ faults₂ => ?_,
    fun i cause b hfail htwo => ?_, fun config lastAccepted start r b hdue hopen hversion hlate => ?_⟩
  · -- Both moments are of attempts on the same data. Where nothing is to be done the data stay, and
    -- otherwise both have left a part of one merge.
    intro first second hle cursor hcursor
    cases hdue : dueFrom (storeAfter codec attempts s i).committed with
    | some start =>
      have hleft (faults : Faults) : Left codec (attempts i).config
          (storeAfter codec attempts s i).reopen start
          ({ attempts i with faults }.store codec (storeAfter codec attempts s i)) :=
        Attempt.left_store { attempts i with faults } hdue
      exact (hleft faults₁).notBehind (hleft faults₂) hdue rfl hle cursor hcursor
    | none =>
      have hsame : first = _ := Attempt.store_of_not_due _ hdue
      rw [hsame] at hcursor
      cases hdue.symm.trans (dueFrom_of_cursorOf hcursor)
  · obtain ⟨start, upto, e, rest, cursor, u, hne, hsaved⟩ := exists_checkpointed_of_failing hfail htwo
    exact further_of_checkpointed hne hsaved
  · -- Otherwise there are entries left to come behind as many attempts as there are entries.
    by_contra hnever
    have hfail : ∀ k < max 1 (txEntries s.reopen).length, ∃ cause b,
        (attempts k).result codec (storeAfter codec attempts s k) = .error cause b := by
      intro k hk
      cases hresult : (attempts k).result codec (storeAfter codec attempts s k) with
      | ok r' b' => exact absurd ⟨k, hk, r', b', hresult⟩ hnever
      | error cause b' => exact ⟨cause, b', rfl⟩
    obtain ⟨report, hrun, -⟩ := openStore_eq_ok_iff.1 hopen
    obtain ⟨w, hmerge, -, -⟩ := exists_mergeAll_of_run hrun hdue
    -- Each failure has taken one entry away, so behind this many none can be left.
    obtain ⟨start₁, w₁, -, -, hpos, hlength⟩ :=
      exists_toCome_storeAfter hversion hlate hdue hmerge hfail
    have hle := length_toCome_le start s.reopen
    have hsome := hpos (by omega)
    change (toCome start s.committed).length ≤ _ at hle
    omega

/-- The third commit is lost, again and again. The first attempt makes a checkpoint at each of the
two records and loses the last commit; the second one makes its checkpoint at the second record once
more, and succeeds. -/
theorem attempts_converge_third_commit_lost :
    let a : Attempt := {
      config := Sample.smallSteps
      lastAccepted := 9
      faults := Faults.none.limitStore .commit 2 (.commit "lost") }
    (∃ cause b, a.result {} Sample.store = .error cause b ∧
      Further Sample.store.committed b.store.committed) ∧
    ∃ i < 2, ∃ r b, a.result {} (storeAfter {} (fun _ => a) Sample.store i) = .ok r b := by
  intro a
  have hconverge := attempts_converge {} Sample.store fun _ => a
  obtain ⟨-, -, hfurther, hfinal⟩ := hconverge
  refine ⟨?_, ?_⟩
  · have hleft : (Access.committedOnError? (a.result {} Sample.store)).isSome = true := by
      decide +kernel
    have hcommits : (a.store {} Sample.store).commits = 2 := by decide +kernel
    obtain ⟨t, hleft⟩ := Option.isSome_iff_exists.1 hleft
    obtain ⟨cause, b, hfail, -⟩ := Access.exists_of_committedOnError? hleft
    rw [Attempt.store_of_error hfail] at hcommits
    exact ⟨cause, b, hfail, hfurther 0 cause b hfail hcommits.ge⟩
  · obtain ⟨r, b, hopen⟩ := exists_openStore_smallSteps
    -- Only commits behind the second one fail, and there are two records, so one of two attempts
    -- succeeds.
    have hlate : a.faults.OnlyLateCommits 2 := Faults.onlyLateCommits_limitStore 2 _
    have hcount : max 1 (txEntries Sample.store.reopen).length = 2 := by decide +kernel
    have hsucceed := hfinal Sample.smallSteps 9 _ r b dueFrom_sample hopen (fun _ => rfl)
      fun _ => hlate
    rw [hcount] at hsucceed
    exact hsucceed

end Repository

end TxIndex

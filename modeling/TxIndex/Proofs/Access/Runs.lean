import TxIndex.Access.Closed

/-!
# Runs without faults

`Runs program s outcome s'`: on the store `s` and without faults, the program ends with `outcome`
and leaves the store `s'`, whatever has been called before. It is proved along the text of the
program, from the runs of its steps (`Runs.bind`, `Runs.bind_error`).

Two predicates carry what is known of such runs over to runs in which calls fail:

* `Unfaulted`: a run that succeeds has met no fault, so it is the run without faults
  (`Runs.of_ok`);
* `KeepsFailing`: a run that fails leaves a part of the store as it found it.
-/

namespace TxIndex.Access

/-! ## A step and the rest -/

/-- A step and the rest succeed just if both do, the rest on what the step has left. This is how a
run of a whole operation is taken apart into the runs of its calls. -/
theorem bind_eq_ok_iff {program : Access α} {rest : α → Access β} {faults : Faults}
    {b b' : Backend} {value : β} :
    (program >>= rest) faults b = .ok value b' ↔
      ∃ a b₁, program faults b = .ok a b₁ ∧ rest a faults b₁ = .ok value b' := by
  rw [bind_apply]
  cases program faults b with
  | ok a b₁ =>
    refine ⟨fun h => ⟨a, b₁, rfl, h⟩, fun h => ?_⟩
    obtain ⟨a', b₂, h, h'⟩ := h
    cases h
    exact h'
  | error e b₁ =>
    refine ⟨fun h => (nomatch h), fun h => ?_⟩
    obtain ⟨a, b₂, h, -⟩ := h
    cases h

/-- A step and the rest fail if the step does, or if it succeeds and the rest fails. In the second
case what the step has done stays done. -/
theorem bind_eq_error_iff {program : Access α} {rest : α → Access β} {faults : Faults}
    {b b' : Backend} {e : Error} :
    (program >>= rest) faults b = .error e b' ↔
      program faults b = .error e b' ∨
        ∃ a b₁, program faults b = .ok a b₁ ∧ rest a faults b₁ = .error e b' := by
  rw [bind_apply]
  cases program faults b with
  | ok a b₁ =>
    refine ⟨fun h => .inr ⟨a, b₁, rfl, h⟩, fun h => ?_⟩
    rcases h with h | ⟨a', b₂, h, h'⟩
    · cases h
    · cases h
      exact h'
  | error e' b₁ =>
    refine ⟨fun h => ?_, fun h => ?_⟩
    · cases h
      exact .inl rfl
    · rcases h with h | ⟨a, b₂, h, -⟩
      · cases h
        rfl
      · cases h

/-! ## Runs without faults -/

/-- A run that ends with an outcome and leaves something behind. -/
def ending : Except Error α → Backend → Result α
  | .ok value, b => .ok value b
  | .error e, b => .error e b

/-- Without faults, the program ends with `outcome` and turns the store `s` into `s'`. -/
def Runs (program : Access α) (s : Store) (outcome : Except Error α) (s' : Store) : Prop :=
  ∀ calls, ∃ calls', program Faults.none ⟨s, calls⟩ = ending outcome ⟨s', calls'⟩

namespace Runs

variable {s s' s₁ : Store}

theorem pure (value : α) (s : Store) : Runs (Pure.pure value) s (.ok value) s :=
  fun calls => ⟨calls, rfl⟩

theorem throw (e : Error) (s : Store) : Runs (throw e : Access α) s (.error e) s :=
  fun calls => ⟨calls, rfl⟩

/-- The run of a step, and then the run of the rest on what the step has left. -/
theorem bind {program : Access α} {rest : α → Access β} {value : α} {outcome : Except Error β}
    (hfirst : Runs program s (.ok value) s₁) (hrest : Runs (rest value) s₁ outcome s') :
    Runs (program >>= rest) s outcome s' := by
  intro calls
  obtain ⟨calls₁, h₁⟩ := hfirst calls
  obtain ⟨calls', h'⟩ := hrest calls₁
  refine ⟨calls', ?_⟩
  rw [bind_apply, h₁]
  exact h'

/-- A step that fails is the end of the run. -/
theorem bind_error {program : Access α} {rest : α → Access β} {e : Error}
    (hfirst : Runs program s (.error e) s') : Runs (program >>= rest) s (.error e) s' := by
  intro calls
  obtain ⟨calls', h⟩ := hfirst calls
  refine ⟨calls', ?_⟩
  rw [bind_apply, h]
  rfl

/-- Where no step writes, the program comes to what the outcomes of its steps come to. This turns a
program that only reads into a computation on outcomes. -/
theorem bind_outcome {program : Access α} {rest : α → Access β} {first : Except Error α}
    {next : α → Except Error β} (hfirst : Runs program s first s)
    (hrest : ∀ value, Runs (rest value) s (next value) s) :
    Runs (program >>= rest) s (first >>= next) s := by
  cases first with
  | ok value => exact bind hfirst (hrest value)
  | error e => exact bind_error hfirst

theorem map {program : Access α} {outcome : Except Error α} (f : α → β)
    (h : Runs program s outcome s') : Runs (f <$> program) s (outcome.map f) s' := by
  intro calls
  obtain ⟨calls', h'⟩ := h calls
  refine ⟨calls', ?_⟩
  rw [map_apply, h']
  cases outcome <;> rfl

/-- A value that was read and can be decoded is given; another one is a corruption. -/
theorem ofStored (outcome : Except Defect α) (s : Store) :
    Runs (Access.ofStored outcome) s (outcome.mapError .corruption) s := by
  cases outcome with
  | ok value => exact pure value s
  | error defect => exact throw (.corruption defect) s

theorem ofStored_ok {outcome : Except Defect α} {value : α} (h : outcome = .ok value)
    (s : Store) : Runs (Access.ofStored outcome) s (.ok value) s := by
  subst h
  exact ofStored (.ok value) s

theorem ofStored_error {outcome : Except Defect α} {defect : Defect} (h : outcome = .error defect)
    (s : Store) : Runs (Access.ofStored outcome) s (.error (.corruption defect)) s := by
  subst h
  exact ofStored (.error defect) s

/-- Without faults a call of the store answers, and has done what it does. -/
theorem callStore (call : StoreCall) (act : Store → α × Store) (s : Store) :
    Runs (Access.callStore call act) s (.ok (act s).1) (act s).2 :=
  fun calls => ⟨calls.addStore call, rfl⟩

/-- Without faults a call of the codec comes to what the codec comes to, with its refusals told as
the caller wants them told. -/
theorem callCodec (call : CodecCall) (outcome : Except CodecError α) (fail : CodecError → Error)
    (s : Store) : Runs (Access.callCodec call outcome fail) s (outcome.mapError fail) s := by
  cases outcome <;> exact fun calls => ⟨calls.addCodec call, rfl⟩

theorem callCodec_ok {call : CodecCall} {outcome : Except CodecError α}
    {fail : CodecError → Error} {value : α} (h : outcome = .ok value) (s : Store) :
    Runs (Access.callCodec call outcome fail) s (.ok value) s := by
  subst h
  exact callCodec call (.ok value) fail s

theorem callCodec_error {call : CodecCall} {outcome : Except CodecError α}
    {fail : CodecError → Error} {cause : CodecError} (h : outcome = .error cause) (s : Store) :
    Runs (Access.callCodec call outcome fail) s (.error (fail cause)) s := by
  subst h
  exact callCodec call (.error cause) fail s

/-- An outcome that is there from the beginning is what the program comes to. -/
theorem ofExcept {outcome o : Except Error α} (h : outcome = o) (s : Store) :
    Runs (MonadExcept.ofExcept outcome) s o s := by
  subst h
  cases outcome with
  | ok value => exact pure value s
  | error e => exact throw e s

/-- A loop that writes nothing comes to what the outcomes of its steps come to, up to the first
failure. Induction on the list. -/
theorem mapM {f : α → Access β} {g : α → Except Error β} (items : List α)
    (h : ∀ item, Runs (f item) s (g item) s) : Runs (items.mapM f) s (items.mapM g) s := by
  induction items with
  | nil => exact pure [] s
  | cons item items ih =>
    rw [List.mapM_cons, List.mapM_cons]
    exact bind_outcome (h item) fun value => bind_outcome ih fun values => pure _ s

/-! ## The calls -/

/-- The value is the one that the view has under the key. -/
theorem get (key : Bytes) (s : Store) : Runs (Access.get key) s (.ok (s.get? key)) s :=
  callStore .get _ s

theorem put (key value : Bytes) (s : Store) :
    Runs (Access.put key value) s (.ok ()) (s.put key value) :=
  callStore .put _ s

theorem scan (start pre : Bytes) (limit : Nat) (s : Store) :
    Runs (Access.scan start pre limit) s (.ok (s.scan start pre limit)) s :=
  callStore .scan _ s

theorem commit (s : Store) : Runs Access.commit s (.ok ()) s.commit :=
  callStore .commit _ s

/-! ## Runs under given faults -/

/-- What is known of a program under any faults tells its run without them. So a program needs one
specification, and the runs without faults are a case of it. -/
theorem of_ending {program : Access α} {outcome : Except Error α}
    (h : ∀ calls, ∃ b', program Faults.none ⟨s, calls⟩ = ending outcome b' ∧ b'.store = s') :
    Runs program s outcome s' := by
  intro calls
  obtain ⟨⟨s₁, calls'⟩, hrun, rfl⟩ := h calls
  exact ⟨calls', hrun⟩

/-- The run on a given backend: without faults it makes no difference how often calls have been
made. -/
theorem eq_ending {program : Access α} {o : Except Error α} (h : Runs program s o s')
    (calls : Calls) :
    ∃ b', program Faults.none ⟨s, calls⟩ = ending o b' ∧ b'.store = s' := by
  obtain ⟨calls', hcalls'⟩ := h calls
  exact ⟨⟨s', calls'⟩, hcalls', rfl⟩

end Runs

/-! ## Runs that succeed

The calls are counted whether or not they fail, so a run without faults sees the same numbers as a
run that happens to meet none. -/

/-- A run of the program that succeeds is its run without faults. -/
def Unfaulted (program : Access α) : Prop :=
  ∀ faults b value b', program faults b = .ok value b' → program Faults.none b = .ok value b'

namespace Unfaulted

/-- A run that succeeds has succeeded step by step, and each step has counted its calls as it would
have without faults, so the next step meets the same numbers. -/
theorem closed : Closed fun _ => Unfaulted where
  pure _ _ _ _ _ h := h
  throw _ _ _ _ _ h := h
  callCodec call outcome fail _ faults b value b' h := by
    unfold Access.callCodec at h ⊢
    cases hfault : faults.codec call (b.calls.codec call) with
    | some e =>
      rw [hfault] at h
      cases h
    | none =>
      rw [hfault] at h
      exact h
  bind_of_value hfirst hrest faults b value b' h := by
    obtain ⟨a, b₁, hprogram, h⟩ := bind_eq_ok_iff.1 h
    have hrest' := hrest faults b a b₁ hprogram faults b₁ value b' h
    exact bind_eq_ok_iff.2 ⟨a, b₁, hfirst faults b a b₁ hprogram, hrest'⟩

/-- A call that answers has had no fault, and then it is the call without faults. -/
theorem callStore (call : StoreCall) (act : Store → α × Store) :
    Unfaulted (Access.callStore call act) := by
  intro faults b value b' h
  unfold Access.callStore at h ⊢
  cases hfault : faults.store call (b.calls.store call) with
  | some e =>
    rw [hfault] at h
    cases h
  | none =>
    rw [hfault] at h
    exact h

theorem put (key value : Bytes) : Unfaulted (Access.put key value) :=
  callStore .put _

end Unfaulted

/-- What a program does when it succeeds is what it does without faults. -/
theorem Runs.of_ok {program : Access α} {o : Except Error α} {s s' : Store} {faults : Faults}
    {b b' : Backend} {value : α} (hrun : Runs program s o s') (hfree : Unfaulted program)
    (hb : b.store = s) (h : program faults b = .ok value b') : o = .ok value ∧ b'.store = s' := by
  have hnone := hfree faults b value b' h
  subst hb
  obtain ⟨calls', hcalls⟩ := hrun b.calls
  rw [hnone] at hcalls
  cases o with
  | ok value' =>
    cases hcalls
    exact ⟨rfl, rfl⟩
  | error e => cases hcalls

/-! ## Runs that fail -/

/-- A run of the program that fails leaves `f` of the store as it found it. -/
def KeepsFailing (f : Store → γ) (program : Access α) : Prop :=
  ∀ faults b e b', program faults b = .error e b' → f b'.store = f b.store

namespace KeepsFailing

variable {f : Store → γ}

/-- What a program keeps however it ends, it keeps when it fails. -/
theorem of_keeps {program : Access α} (h : Keeps f program) : KeepsFailing f program := by
  intro faults b e b' hrun
  have hkeep := h faults b
  unfold after at hkeep
  rw [hrun] at hkeep
  exact hkeep

/-- A call of the store that fails does not reach it. -/
theorem callStore (call : StoreCall) (act : Store → α × Store) :
    KeepsFailing f (Access.callStore call act) := by
  intro faults b e b' h
  unfold Access.callStore at h
  cases hfault : faults.store call (b.calls.store call) with
  | some e' =>
    rw [hfault] at h
    cases h
    rfl
  | none =>
    rw [hfault] at h
    cases h

/-- Only the last of the steps may change `f` without failing: those before it have to keep `f`
however they end, since the rest may fail behind them. -/
theorem bind {program : Access α} {rest : α → Access β} (hfirst : Keeps f program)
    (hrest : ∀ value, KeepsFailing f (rest value)) : KeepsFailing f (program >>= rest) := by
  intro faults b e b' h
  have hkeep := hfirst faults b
  unfold after at hkeep
  rcases bind_eq_error_iff.1 h with hprogram | ⟨value, b₁, hprogram, h⟩
  · rw [hprogram] at hkeep
    exact hkeep
  · rw [hprogram] at hkeep
    exact (hrest value faults b₁ e b' h).trans hkeep

/-- A program that ends by computing with its last value fails only before that. It keeps what the
steps before keep when they fail. -/
theorem bind_pure {program : Access α} {g : α → β} (h : KeepsFailing f program) :
    KeepsFailing f (program >>= fun value => Pure.pure (g value)) := by
  intro faults b e b' hrun
  rcases bind_eq_error_iff.1 hrun with hprogram | ⟨value, b₁, -, hrun⟩
  · exact h faults b e b' hprogram
  · cases hrun

end KeepsFailing

/-- Reading the marker writes nothing, so a reading that fails keeps everything. -/
theorem keepsFailing_readMarker {f : Store → γ} : KeepsFailing f readMarker :=
  .of_keeps (Keeps.closed.readMarker (.get _))

/-! ## Runs that can be looked at

The calls made so far are functions, so two runs cannot be compared. What they commit can. -/

/-- The committed data that a run leaves when it succeeds. -/
def committedOnOk? : Result α → Option Table
  | .ok _ b => some b.store.committed
  | .error _ _ => none

/-- The committed data that a run leaves when it fails. -/
def committedOnError? : Result α → Option Table
  | .ok _ _ => none
  | .error _ b => some b.store.committed

/-- A run that leaves committed data by succeeding has succeeded. For a concrete run the left side
can be computed, and so it is known to succeed although its calls cannot be compared. -/
theorem exists_of_committedOnOk? {result : Result α} {t : Table}
    (h : committedOnOk? result = some t) :
    ∃ value b, result = .ok value b ∧ b.store.committed = t := by
  cases result with
  | ok value b =>
    cases h
    exact ⟨value, b, rfl, rfl⟩
  | error e b => cases h

/-- A run that leaves committed data by failing has failed. -/
theorem exists_of_committedOnError? {result : Result α} {t : Table}
    (h : committedOnError? result = some t) :
    ∃ e b, result = .error e b ∧ b.store.committed = t := by
  cases result with
  | ok value b => cases h
  | error e b =>
    cases h
    exact ⟨e, b, rfl, rfl⟩

end TxIndex.Access

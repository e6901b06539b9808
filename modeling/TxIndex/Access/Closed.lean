import TxIndex.Access.Lemmas

/-!
# Properties proved along the text of a program

Most of what is said of programs, whatever fails and however they end, is proved in the same way:
step by step along their text. `Closed P` is what a property `P` brings along for that. It holds of
all that leaves the store alone, and of a step and the rest if it holds of both. Everything else
follows once for all such properties:

* choices and loops: `Closed.map`, `Closed.ite`, `Closed.foldlM`, `Closed.mapM`, `Closed.forM`;
* decoding: `Closed.ofStored`, `Closed.readRecord`, and with the property of one `get` also
  `Closed.readMarker` and `Closed.readBatch`.

`closed_of_trans` gives such a property for each relation between what a program finds and what it
leaves that is reflexive and transitive. The first of them is `Keeps f`: the program leaves `f` of
the store as it found it.
-/

namespace TxIndex.Access

/-- `P` can be proved along the text of a program: it holds of what makes no call of the store and
does not fail for it, and it is kept when programs are put together. -/
structure Closed (P : ∀ α : Type, Access α → Prop) : Prop where
  pure : ∀ {α : Type} (value : α), P α (Pure.pure value)
  throw : ∀ {α : Type} {e : Error}, (∀ cause, e ≠ .store cause) → P α (throw e)
  callCodec : ∀ {α : Type} (call : CodecCall) (outcome : Except CodecError α)
    {fail : CodecError → Error}, (∀ e cause, fail e ≠ .store cause) →
    P α (Access.callCodec call outcome fail)
  /-- The rest has only to be looked at for the values with which the first step can end. -/
  bind_of_value : ∀ {α β : Type} {program : Access α} {rest : α → Access β}, P α program →
    (∀ faults b value b', program faults b = .ok value b' → P β (rest value)) →
    P β (program >>= rest)

namespace Closed

variable {P : ∀ α : Type, Access α → Prop}

/-- A step and the rest, where the rest has the property whatever value it is given. Most programs
are of this kind; where the value matters there is `bind_of_value`. -/
theorem bind {program : Access α} {rest : α → Access β} (h : Closed P) (hfirst : P α program)
    (hrest : ∀ value, P β (rest value)) : P β (program >>= rest) :=
  h.bind_of_value hfirst fun _ _ value _ _ => hrest value

/-- A value computed from what a program ends with. Nothing is called for it, so the property is
that of the program. -/
theorem map {program : Access α} (h : Closed P) (f : α → β) (hprogram : P α program) :
    P β (f <$> program) :=
  h.bind hprogram fun value => h.pure (f value)

/-! ## Choices and loops -/

/-- A choice has the property if both alternatives do. It is the same program as one of them. -/
theorem ite {condition : Prop} [Decidable condition] {first second : Access α}
    (hfirst : P α first) (hsecond : P α second) :
    P α (if condition then first else second) := by
  split
  · exact hfirst
  · exact hsecond

/-- A loop has the property if each of its steps does, whatever has been gathered before. -/
theorem foldlM {step : β → α → Access β} (h : Closed P)
    (hstep : ∀ acc item, P β (step acc item)) :
    ∀ (items : List α) (acc : β), P β (items.foldlM step acc)
  | [], acc => h.pure acc
  | item :: items, acc => by
    rw [List.foldlM_cons]
    exact h.bind (hstep acc item) fun acc' => h.foldlM hstep items acc'

/-- A loop that gathers what its steps end with. The induction is that of `foldlM`, without a state
to carry. -/
theorem mapM {step : α → Access β} (h : Closed P) (hstep : ∀ item, P β (step item)) :
    ∀ items : List α, P (List β) (items.mapM step)
  | [] => h.pure []
  | item :: items => by
    rw [List.mapM_cons]
    exact h.bind (hstep item) fun _ => h.bind (h.mapM hstep items) fun _ => h.pure _

theorem forM {step : α → Access Unit} (h : Closed P) (hstep : ∀ item, P Unit (step item)) :
    ∀ items : List α, P Unit (items.forM step)
  | [] => h.pure ()
  | item :: items => h.bind (hstep item) fun _ => h.forM hstep items

/-! ## Decoding -/

/-- An outcome that is already there, as long as it is no failure of the store: some properties
forbid these, and all others are allowed to end a program anywhere. -/
theorem ofExcept (h : Closed P) {outcome : Except Error α}
    (hstore : ∀ cause, outcome ≠ .error (.store cause)) :
    P α (MonadExcept.ofExcept outcome) := by
  cases outcome with
  | ok value => exact h.pure value
  | error e => exact h.throw fun cause heq => hstore cause (congrArg Except.error heq)

/-- A value that was read, or its defect. A defect is a corruption, and so no failure of the
store. -/
theorem ofStored (h : Closed P) (outcome : Except Defect α) : P α (Access.ofStored outcome) := by
  cases outcome with
  | ok value => exact h.pure value
  | error defect => exact h.throw fun cause heq => nomatch heq

/-- Behind a call of the codec, the rest has only to be looked at for what the codec makes of its
argument. -/
theorem callCodec_bind {call : CodecCall} {outcome : Except CodecError α}
    {fail : CodecError → Error} {rest : α → Access β} (h : Closed P)
    (hfail : ∀ e cause, fail e ≠ .store cause)
    (hrest : ∀ value, outcome = .ok value → P β (rest value)) :
    P β (Access.callCodec call outcome fail >>= rest) :=
  h.bind_of_value (h.callCodec call outcome hfail) fun _ _ value _ hrun =>
    hrest value (outcome_of_callCodec hrun)

/-- The record and the transaction in it, from bytes that are already there. Only the codec is
called, so this needs no hypothesis about the calls of the store. -/
theorem readRecord (h : Closed P) (codec : Codec) (stored : Bytes) :
    P (Transaction × Record) (Access.readRecord codec stored) :=
  h.bind (h.ofStored _) fun _ =>
    h.bind (h.callCodec _ _ fun _ _ heq => nomatch heq) fun _ => h.pure _

/-- The marker is one `get` and its decoding. The hypothesis is about this one key, for some
properties hold of all keys but the marker's. -/
theorem readMarker (h : Closed P) (hget : P (Option Bytes) (get Key.marker)) :
    P (Option Marker) Access.readMarker := by
  refine h.bind hget fun stored? => ?_
  cases stored? with
  | some bytes => exact h.map _ (h.ofStored _)
  | none => exact h.pure _

/-- A batch is one `get` and its decoding, if there is something to decode. The hypothesis is about
the key of this height. -/
theorem readBatch {height : Height} (h : Closed P) (codec : Codec)
    (hget : P (Option Bytes) (get (Key.height height))) :
    P (Option (List Transaction)) (Access.readBatch codec height) := by
  refine h.bind hget fun stored? => ?_
  cases stored? with
  | some bytes => exact h.map _ (h.callCodec _ _ fun _ _ heq => nomatch heq)
  | none => exact h.pure _

end Closed

/-! ## Relations between before and after -/

/-- **What a program does to its backend, step by step.** A relation that is reflexive and
transitive, and that a call of the codec stays in, holds between what a program finds and what it
leaves as soon as it does for each of its calls of the store. -/
theorem closed_of_trans {R : Backend → Backend → Prop} (hrefl : ∀ b, R b b)
    (htrans : ∀ {b₁ b₂ b₃}, R b₁ b₂ → R b₂ b₃ → R b₁ b₃)
    (hcodec : ∀ b call, R b { b with calls := b.calls.addCodec call }) :
    Closed fun _ program => ∀ faults b, R b (after program faults b) where
  pure _ _ b := hrefl b
  throw _ _ b := hrefl b
  callCodec call outcome fail _ faults b := by
    rw [after_callCodec]
    exact hcodec b call
  bind_of_value {_ _ program rest} hfirst hrest faults b := by
    have h := hfirst faults b
    unfold after at h
    rw [after_bind]
    -- The rest starts from what the first step has left.
    cases hrun : program faults b with
    | ok value b' =>
      rw [hrun] at h
      exact htrans h (hrest faults b value b' hrun faults b')
    | error e b' =>
      rw [hrun] at h
      exact h

/-! ## Properties of few runs -/

/-- `P` looks at the runs of a program on two backends at a time: it holds of a program that runs on
any two of them as a program does of which it holds. This is how it passes from the programs that do
at most `n` rounds of a loop, for each `n`, to the loop that goes on until nothing is left. -/
def Local (P : ∀ α : Type, Access α → Prop) : Prop :=
  ∀ {α : Type} {program : Access α},
    (∀ b b', ∃ program' : Access α, P α program' ∧
      ∀ faults, program faults b = program' faults b ∧ program faults b' = program' faults b') →
    P α program

/-! ## What programs keep -/

/-- The program leaves `f` of the store as it found it. -/
def Keeps (f : Store → γ) (program : Access α) : Prop :=
  ∀ faults b, f (after program faults b).store = f b.store

namespace Keeps

variable {f : Store → γ}

/-- What is kept by a step and by the rest is kept by both, and a call of the codec does not touch
the store. -/
theorem closed : Closed fun _ => Keeps f :=
  closed_of_trans (R := fun b b' => f b'.store = f b.store) (fun _ => rfl)
    (fun h h' => h'.trans h) fun _ _ => rfl

/-- A call of the store has only to keep `f` by what it does; a call that fails has done nothing. -/
theorem callStore {call : StoreCall} {act : Store → α × Store}
    (h : ∀ s, f (act s).2 = f s) : Keeps f (Access.callStore call act) := by
  intro faults b
  rcases after_callStore call act faults b with hafter | hafter
  · rw [hafter]
  · rw [hafter]
    exact h b.store

theorem get (key : Bytes) : Keeps f (Access.get key) :=
  callStore fun _ => rfl

theorem scan (start pre : Bytes) (limit : Nat) : Keeps f (Access.scan start pre limit) :=
  callStore fun _ => rfl

theorem put {key value : Bytes} (h : ∀ s : Store, f (s.put key value) = f s) :
    Keeps f (Access.put key value) :=
  callStore h

theorem commit (h : ∀ s : Store, f s.commit = f s) : Keeps f Access.commit :=
  callStore h

end Keeps

end TxIndex.Access

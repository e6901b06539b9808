import TxIndex.Access.Basic

/-!
# How programs run

The equations by which a program is run step by step: a value, a step and the rest, and the single
calls with the two ways in which each can end. Everything that is said of programs elsewhere rests
on these, so that no proof has to look into the monad.
-/

namespace TxIndex.Access

/-- A value is given at once, and no call is made for it. -/
@[simp] theorem pure_apply (value : α) (faults : Faults) (b : Backend) :
    (pure value : Access α) faults b = .ok value b := rfl

/-- A step and the rest: the rest runs on what the step has left, and a step that fails is the end,
with everything left as it is at that moment. -/
theorem bind_apply (program : Access α) (rest : α → Access β) (faults : Faults) (b : Backend) :
    (program >>= rest) faults b =
      match program faults b with
      | .ok value b' => rest value faults b'
      | .error e b' => .error e b' := by
  change EStateM.bind (program faults) (fun value => rest value faults) b = _
  unfold EStateM.bind
  cases program faults b <;> rfl

/-- Computing with the value of a program changes neither its end nor what it leaves. -/
@[simp] theorem map_apply (f : α → β) (program : Access α) (faults : Faults) (b : Backend) :
    (f <$> program) faults b =
      match program faults b with
      | .ok value b' => .ok (f value) b'
      | .error e b' => .error e b' := by
  change EStateM.map f (program faults) b = _
  unfold EStateM.map
  cases program faults b <;> rfl

/-- What a step and the rest leave behind. -/
theorem after_bind {program : Access α} {rest : α → Access β} {faults : Faults} {b : Backend} :
    after (program >>= rest) faults b =
      match program faults b with
      | .ok value b' => after (rest value) faults b'
      | .error _ b' => b' := by
  unfold after
  rw [bind_apply]
  cases program faults b <;> rfl

/-! ## One call of the store -/

/-- A call that has no fault answers by what the store answers, and is counted. Whether it has one
is told by how often the call has been made before. -/
theorem callStore_of_clear {call : StoreCall} {act : Store → α × Store} {faults : Faults}
    {s : Store} {calls : Calls} (h : faults.store call (calls.store call) = none) :
    callStore call act faults ⟨s, calls⟩ = .ok (act s).1 ⟨(act s).2, calls.addStore call⟩ := by
  unfold callStore
  simp only [h]

/-- A call that fails does not reach the store. -/
theorem callStore_of_fault {call : StoreCall} {act : Store → α × Store} {faults : Faults}
    {s : Store} {calls : Calls} {cause : StoreError}
    (h : faults.store call (calls.store call) = some cause) :
    callStore call act faults ⟨s, calls⟩ = .error (.store cause) ⟨s, calls.addStore call⟩ := by
  unfold callStore
  simp only [h]

/-- However a call of the store ends, it has been counted; and the store is the one before, or the
one that the call makes of it. -/
theorem after_callStore (call : StoreCall) (act : Store → α × Store) (faults : Faults)
    (b : Backend) :
    after (callStore call act) faults b = { b with calls := b.calls.addStore call } ∨
      after (callStore call act) faults b = ⟨(act b.store).2, b.calls.addStore call⟩ := by
  unfold after
  cases hfault : faults.store call (b.calls.store call) with
  | some cause =>
    rw [callStore_of_fault hfault]
    exact .inl rfl
  | none =>
    rw [callStore_of_clear hfault]
    exact .inr rfl

/-! ## One call of the codec -/

/-- A call of the codec is counted, and that is all it leaves behind. So what a program does to the
store is done by its calls of the store. -/
theorem after_callCodec (call : CodecCall) (outcome : Except CodecError α)
    (fail : CodecError → Error) (faults : Faults) (b : Backend) :
    after (callCodec call outcome fail) faults b = { b with calls := b.calls.addCodec call } := by
  unfold after callCodec
  cases faults.codec call (b.calls.codec call) with
  | some e => rfl
  | none => cases outcome <;> rfl

/-- A codec that answers with a value has answered without a fault, so the value is its own. -/
theorem outcome_of_callCodec {call : CodecCall} {outcome : Except CodecError α}
    {fail : CodecError → Error} {faults : Faults} {b b' : Backend} {value : α}
    (h : callCodec call outcome fail faults b = .ok value b') : outcome = .ok value := by
  unfold callCodec at h
  cases hfault : faults.codec call (b.calls.codec call) with
  | some e =>
    rw [hfault] at h
    cases h
  | none =>
    rw [hfault] at h
    cases outcome with
    | ok value' =>
      cases h
      rfl
    | error e => cases h

end TxIndex.Access

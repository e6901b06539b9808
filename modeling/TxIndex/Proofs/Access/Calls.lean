import TxIndex.Proofs.Access.Runs

/-!
# Calls that a program does not make

A fault is told by how often its call has been made, so a statement about the moment of a fault
counts calls. Two predicates say which calls a program does not make, whatever fails and however it
ends; both are proved along the text of the program (`Spares.closed`, `Offline.closed`).

* `Spares call program`: the program makes no such call of the store.
* `Offline program`: it makes no call of the store at all.
-/

namespace TxIndex

namespace Calls

/-- A call is counted as one more of its operation. -/
@[simp] theorem store_addStore_self (calls : Calls) (call : StoreCall) :
    (calls.addStore call).store call = calls.store call + 1 := by
  simp [addStore]

end Calls

namespace Access

/-! ## No calls of one kind -/

/-- The program makes no such call of the store. -/
def Spares (call : StoreCall) (program : Access α) : Prop :=
  ∀ faults b, (after program faults b).calls.store call = b.calls.store call

namespace Spares

variable {call : StoreCall}

/-- After a run that succeeds, the next call of this operation is the one it would have been
before. -/
theorem of_ok {program : Access α} {faults : Faults} {b b' : Backend} {value : α}
    (h : Spares call program) (hrun : program faults b = .ok value b') :
    b'.calls.store call = b.calls.store call := by
  have hcalls := h faults b
  unfold after at hcalls
  rw [hrun] at hcalls
  exact hcalls

/-- The counts add up, so a program that is put together from others makes the calls that these
make. -/
theorem closed : Closed fun _ => Spares call :=
  closed_of_trans (R := fun b b' => b'.calls.store call = b.calls.store call) (fun _ => rfl)
    (fun h h' => h'.trans h) fun _ _ => rfl

/-- Any other call of the store is counted elsewhere. -/
theorem callStore {other : StoreCall} (hne : call ≠ other) (act : Store → α × Store) :
    Spares call (Access.callStore other act) := by
  intro faults b
  rcases after_callStore other act faults b with hafter | hafter
  · rw [hafter]
    exact if_neg hne
  · rw [hafter]
    exact if_neg hne

theorem put (hne : call ≠ .put) (key value : Bytes) : Spares call (Access.put key value) :=
  callStore hne _

end Spares

/-! ## No calls at all -/

/-- The program leaves the store alone, makes no call of it, and does not fail for it. -/
def Offline (program : Access α) : Prop :=
  ∀ faults b,
    match program faults b with
    | .ok _ b' => b'.store = b.store ∧ b'.calls.store = b.calls.store
    | .error e b' =>
      b'.store = b.store ∧ b'.calls.store = b.calls.store ∧ ∀ cause, e ≠ .store cause

namespace Offline

theorem of_ok {program : Access α} {faults : Faults} {b b' : Backend} {value : α}
    (h : Offline program) (hrun : program faults b = .ok value b') :
    b'.store = b.store ∧ b'.calls.store = b.calls.store := by
  have houtcome := h faults b
  rw [hrun] at houtcome
  exact houtcome

theorem of_error {program : Access α} {faults : Faults} {b b' : Backend} {e : Error}
    (h : Offline program) (hrun : program faults b = .error e b') :
    b'.store = b.store ∧ b'.calls.store = b.calls.store ∧ ∀ cause, e ≠ .store cause := by
  have houtcome := h faults b
  rw [hrun] at houtcome
  exact houtcome

/-- The rest starts from the store and the counts that the first step has found. So the whole keeps
both, and fails only as one of the two fails. -/
theorem closed : Closed fun _ => Offline where
  pure _ _ _ := ⟨rfl, rfl⟩
  throw hstore _ _ := ⟨rfl, rfl, hstore⟩
  callCodec call outcome fail hfail faults b := by
    unfold Access.callCodec
    cases faults.codec call (b.calls.codec call) with
    | some e => exact ⟨rfl, rfl, hfail e⟩
    | none =>
      cases outcome with
      | ok value => exact ⟨rfl, rfl⟩
      | error e => exact ⟨rfl, rfl, hfail e⟩
  bind_of_value {_ _ program rest} hfirst hrest faults b := by
    rw [bind_apply]
    cases hrun : program faults b with
    | error e b₁ => exact of_error hfirst hrun
    | ok value b₁ =>
      -- The rest starts where the first step has started, so what it leaves is what was there.
      obtain ⟨hstore, hcalls⟩ := of_ok hfirst hrun
      have h := hrest faults b value b₁ hrun faults b₁
      rw [hstore, hcalls] at h
      exact h

end Offline

end Access

end TxIndex

import TxIndex.Access.Closed

/-!
# What holds of the store at every end

`Maintains P program`: if `P` holds of the store, it holds of the store that the program leaves,
whatever fails and however it ends. What a program does not write it maintains since it keeps the
store (`Maintains.of_keeps`); a put of encoded bytes may use that they have been encoded
(`Closed.callCodec_bind`).
-/

namespace TxIndex.Access

/-- If `P` holds of the store, it still does when the program has ended. -/
def Maintains (P : Store → Prop) (program : Access α) : Prop :=
  ∀ faults b, P b.store → P (after program faults b).store

namespace Maintains

variable {P : Store → Prop}

/-- What holds of a store holds of the same store afterwards. -/
theorem of_keeps {program : Access α} (h : Keeps (fun s => s) program) : Maintains P program := by
  intro faults b hP
  have hsame : (after program faults b).store = b.store := h faults b
  rw [hsame]
  exact hP

/-- What a step has maintained is what the rest needs. Steps that make no call of the store maintain
everything. -/
theorem closed : Closed fun _ => Maintains P :=
  closed_of_trans (R := fun b b' => P b.store → P b'.store) (fun _ hP => hP)
    (fun h h' hP => h' (h hP)) fun _ _ hP => hP

/-- Only the run on one backend is looked at. -/
theorem isLocal : Local fun _ => Maintains P := by
  intro α program h faults b hP
  obtain ⟨program', hmaintains, hagree⟩ := h b b
  have hP' := hmaintains faults b hP
  unfold after at hP' ⊢
  rw [(hagree faults).1]
  exact hP'

/-- A call of the store has only to maintain `P` by what it does; a call that fails does nothing.
This is where the faults are dealt with once, so no invariant has to speak of them. -/
theorem callStore {call : StoreCall} {act : Store → α × Store} (h : ∀ s, P s → P (act s).2) :
    Maintains P (Access.callStore call act) := by
  intro faults b hP
  rcases after_callStore call act faults b with hafter | hafter
  · rw [hafter]
    exact hP
  · rw [hafter]
    exact h b.store hP

theorem put {key value : Bytes} (h : ∀ s : Store, P s → P (s.put key value)) :
    Maintains P (Access.put key value) :=
  callStore h

theorem commit (h : ∀ s : Store, P s → P s.commit) : Maintains P Access.commit :=
  callStore h

end Maintains

end TxIndex.Access

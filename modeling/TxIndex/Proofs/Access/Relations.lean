import TxIndex.Access.Closed

/-!
# Runs on related stores

Two runs of one program are compared: `Respects R program` says that on stores that `R` relates,
with the same calls made before and the same faults to come, the program ends in the same way after
the same calls, and leaves stores that `R` relates. So nothing that such programs are asked, in any
order, tells the two stores apart.

It is proved along the text of the program (`Respects.closed`), from what `R` has to offer for the
single calls of the store (`Respects.callStore`).
-/

namespace TxIndex.Access

/-- Related stores, and the same calls made. -/
structure Alike (R : Store → Store → Prop) (b b' : Backend) : Prop where
  store : R b.store b'.store
  calls : b.calls = b'.calls

/-- The same outcome, with related stores and the same calls behind it. -/
inductive EndsAlike (R : Store → Store → Prop) : Result α → Result α → Prop where
  | ok {value : α} {b b' : Backend} (h : Alike R b b') : EndsAlike R (.ok value b) (.ok value b')
  | error {cause : Error} {b b' : Backend} (h : Alike R b b') :
      EndsAlike R (.error cause b) (.error cause b')

/-- The program does not tell related stores apart, whatever fails. -/
def Respects (R : Store → Store → Prop) (program : Access α) : Prop :=
  ∀ faults b b', Alike R b b' → EndsAlike R (program faults b) (program faults b')

namespace Respects

variable {R : Store → Store → Prop}

/-- However the runs end, what they leave is alike. -/
theorem after {program : Access α} {faults : Faults} {b b' : Backend} (h : Respects R program)
    (hb : Alike R b b') : Alike R (program.after faults b) (program.after faults b') := by
  have hends := h faults b b' hb
  unfold Access.after
  generalize program faults b = first at hends ⊢
  generalize program faults b' = second at hends ⊢
  cases hends with
  | ok hleft => exact hleft
  | error hleft => exact hleft

/-- The first steps end alike. If both give a value it is the same one, so the rests are one program
on stores that are related again. -/
theorem closed : Closed fun _ => Respects R where
  pure _ _ _ _ hb := .ok hb
  throw _ _ _ _ hb := .error hb
  callCodec call outcome fail _ faults b b' hb := by
    unfold Access.callCodec
    rw [hb.calls]
    cases faults.codec call (b'.calls.codec call) with
    | some cause => exact .error ⟨hb.store, rfl⟩
    | none =>
      cases outcome with
      | ok value => exact .ok ⟨hb.store, rfl⟩
      | error cause => exact .error ⟨hb.store, rfl⟩
  bind_of_value {_ _ program rest} hfirst hrest faults b b' hb := by
    have hends := hfirst faults b b' hb
    rw [bind_apply, bind_apply]
    generalize hrun : program faults b = first at hends ⊢
    generalize program faults b' = second at hends ⊢
    -- The two first steps end alike, so either both runs go on, with the same value, or neither does.
    cases hends with
    | ok hleft => exact hrest faults b _ _ hrun faults _ _ hleft
    | error hleft => exact .error hleft

/-- The runs on two backends are compared, no more. For a loop whose length is told by the store, a
program without the loop that agrees on both of them will do. -/
theorem isLocal : Local fun _ => Respects R := by
  intro α program h faults b b' hb
  obtain ⟨program', hrespects, hagree⟩ := h b b'
  rw [(hagree faults).1, (hagree faults).2]
  exact hrespects faults b b' hb

/-- Handing a failure over as a value changes the outcome in the same way on both sides. -/
theorem attempt {program : Access α} (h : Respects R program) :
    Respects R (Access.attempt program) := by
  intro faults b b' hb
  have hends := h faults b b' hb
  unfold Access.attempt
  generalize program faults b = first at hends ⊢
  generalize program faults b' = second at hends ⊢
  cases hends with
  | ok hleft => exact .ok hleft
  | error hleft => exact .ok hleft

/-- A call of the store has to answer alike, and to leave related stores. Both calls have the same
number, so they fail together or not at all. -/
theorem callStore {call : StoreCall} {act : Store → α × Store}
    (hvalue : ∀ s s', R s s' → (act s).1 = (act s').1)
    (hstore : ∀ s s', R s s' → R (act s).2 (act s').2) :
    Respects R (Access.callStore call act) := by
  intro faults b b' hb
  unfold Access.callStore
  rw [hb.calls]
  cases faults.store call (b'.calls.store call) with
  | some cause => exact .error ⟨hb.store, rfl⟩
  | none =>
    show EndsAlike R (.ok (act b.store).1 _) (.ok (act b'.store).1 _)
    rw [hvalue _ _ hb.store]
    exact .ok ⟨hstore _ _ hb.store, rfl⟩

end Respects

end TxIndex.Access

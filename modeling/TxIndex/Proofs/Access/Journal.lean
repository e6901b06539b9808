import TxIndex.Access.Lemmas

/-!
# Programs that keep a journal

What a program has done on the way cannot be told from the store it leaves. A journaled program
makes the same calls and besides notes what it has done; nothing it does depends on what it has
noted. `Erases` says that without its journal it is the program it is meant to be: it ends as that
program does and leaves the same behind, whatever fails. It is proved along the text of both.
-/

namespace TxIndex.Access

variable {μ : Type}

/-- What a program works on, and what has been noted so far, the latest note last. -/
structure Noted (μ : Type) where
  backend : Backend
  journal : List μ := []

/-- A program that keeps a journal. -/
abbrev Journaled (μ : Type) := ReaderT Faults (EStateM Error (Noted μ))

namespace Journaled

/-- The program, with nothing noted. -/
def lift (program : Access α) : Journaled μ α := fun faults x =>
  match program faults x.backend with
  | .ok value b => .ok value { x with backend := b }
  | .error e b => .error e { x with backend := b }

/-- Writes an entry down, behind those before it. -/
def note (entry : μ) : Journaled μ Unit :=
  modify fun x => { x with journal := x.journal ++ [entry] }

/-- The ending of a program, without its journal. -/
def forget : EStateM.Result Error (Noted μ) α → Result α
  | .ok value x => .ok value x.backend
  | .error e x => .error e x.backend

/-- What a program leaves behind, with its journal, however it ends. -/
def after (program : Journaled μ α) (faults : Faults) (x : Noted μ) : Noted μ :=
  match program faults x with
  | .ok _ x' => x'
  | .error _ x' => x'

/-- A step and the rest, with the journal carried along. -/
theorem bind_apply (program : Journaled μ α) (rest : α → Journaled μ β) (faults : Faults)
    (x : Noted μ) :
    (program >>= rest) faults x =
      match program faults x with
      | .ok value x' => rest value faults x'
      | .error e x' => .error e x' := by
  change EStateM.bind (program faults) (fun value => rest value faults) x = _
  unfold EStateM.bind
  cases program faults x <;> rfl

/-- What is noted is there for the rest, and nothing else has happened. -/
theorem note_bind_apply (entry : μ) (rest : Unit → Journaled μ α) (faults : Faults) (x : Noted μ) :
    (note entry >>= rest) faults x = rest () faults { x with journal := x.journal ++ [entry] } :=
  rfl

/-- A step that notes nothing, and the rest with the journal as it is. -/
theorem lift_bind_apply (program : Access α) (rest : α → Journaled μ β) (faults : Faults)
    (x : Noted μ) :
    (lift program >>= rest) faults x =
      match program faults x.backend with
      | .ok value b => rest value faults { x with backend := b }
      | .error e b => .error e { x with backend := b } := by
  rw [bind_apply]
  unfold lift
  cases program faults x.backend <;> rfl

/-- A lifted step and the rest succeed just if both do. The journal that the rest starts with is the
one before the step. -/
theorem lift_bind_eq_ok_iff {program : Access α} {rest : α → Journaled μ β} {faults : Faults}
    {x x' : Noted μ} {value : β} :
    (lift program >>= rest) faults x = .ok value x' ↔
      ∃ a b, program faults x.backend = .ok a b ∧
        rest a faults { x with backend := b } = .ok value x' := by
  rw [lift_bind_apply]
  cases program faults x.backend with
  | ok a b =>
    refine ⟨fun h => ⟨a, b, rfl, h⟩, fun h => ?_⟩
    obtain ⟨a', b', h, h'⟩ := h
    cases h
    exact h'
  | error e b =>
    refine ⟨fun h => (nomatch h), fun h => ?_⟩
    obtain ⟨a, b', h, -⟩ := h
    cases h

/-- A lifted step and the rest fail if the step does, with nothing noted, or if the rest does behind
it. -/
theorem lift_bind_eq_error_iff {program : Access α} {rest : α → Journaled μ β} {faults : Faults}
    {x x' : Noted μ} {e : Error} :
    (lift program >>= rest) faults x = .error e x' ↔
      (∃ b, program faults x.backend = .error e b ∧ x' = { x with backend := b }) ∨
        ∃ a b, program faults x.backend = .ok a b ∧
          rest a faults { x with backend := b } = .error e x' := by
  rw [lift_bind_apply]
  cases program faults x.backend with
  | ok a b =>
    refine ⟨fun h => .inr ⟨a, b, rfl, h⟩, fun h => ?_⟩
    rcases h with ⟨b', h, -⟩ | ⟨a', b', h, h'⟩
    · cases h
    · cases h
      exact h'
  | error e' b =>
    refine ⟨fun h => ?_, fun h => ?_⟩
    · cases h
      exact .inl ⟨b, rfl, rfl⟩
    · rcases h with ⟨b', h, rfl⟩ | ⟨a, b', h, -⟩
      · cases h
        rfl
      · cases h

end Journaled

open Journaled

/-- Without its journal, the one program is the other. -/
def Erases (journaled : Journaled μ α) (program : Access α) : Prop :=
  ∀ faults x, forget (journaled faults x) = program faults x.backend

namespace Erases

variable {journaled : Journaled μ α} {program : Access α} {faults : Faults} {x x' : Noted μ}

/-- A journaled run that succeeds is a run of the program itself, so what is known of the program
can be used for it. -/
theorem of_ok {value : α} (h : Erases journaled program) (hrun : journaled faults x = .ok value x') :
    program faults x.backend = .ok value x'.backend := by
  rw [← h, hrun]
  rfl

/-- A journaled run that fails is a run of the program itself, which fails in the same way. -/
theorem of_error {e : Error} (h : Erases journaled program)
    (hrun : journaled faults x = .error e x') :
    program faults x.backend = .error e x'.backend := by
  rw [← h, hrun]
  rfl

/-- A program that succeeds does so with its journal. This is the way back: a run of the program has
a journal, and what the journal tells is told of this run. -/
theorem exists_of_ok {value : α} {b : Backend} (h : Erases journaled program)
    (hrun : program faults x.backend = .ok value b) :
    ∃ x', journaled faults x = .ok value x' ∧ x'.backend = b := by
  rw [← h] at hrun
  cases hjournaled : journaled faults x with
  | ok value' x' =>
    rw [hjournaled] at hrun
    cases hrun
    exact ⟨x', rfl, rfl⟩
  | error e x' =>
    rw [hjournaled] at hrun
    cases hrun

/-- A program that fails does so with its journal. -/
theorem exists_of_error {e : Error} {b : Backend} (h : Erases journaled program)
    (hrun : program faults x.backend = .error e b) :
    ∃ x', journaled faults x = .error e x' ∧ x'.backend = b := by
  rw [← h] at hrun
  cases hjournaled : journaled faults x with
  | ok value x' =>
    rw [hjournaled] at hrun
    cases hrun
  | error e' x' =>
    rw [hjournaled] at hrun
    cases hrun
    exact ⟨x', rfl, rfl⟩

theorem pure (value : α) : Erases (Pure.pure value : Journaled μ α) (Pure.pure value) :=
  fun _ _ => rfl

/-- A program that notes nothing is the program. -/
theorem lift (program : Access α) : Erases (Journaled.lift program : Journaled μ α) program := by
  intro faults x
  unfold Journaled.lift
  cases program faults x.backend <;> rfl

/-- Step by step: the rests are compared for the same value, on the same backend. -/
theorem bind {rest : α → Journaled μ β} {rest' : α → Access β} (hfirst : Erases journaled program)
    (hrest : ∀ value, Erases (rest value) (rest' value)) :
    Erases (journaled >>= rest) (program >>= rest') := by
  intro faults x
  rw [Journaled.bind_apply, Access.bind_apply, ← hfirst]
  cases journaled faults x with
  | ok value x' => exact hrest value faults x'
  | error e x' => rfl

/-- What is noted before a step leaves the step as it is. So notes may be written anywhere in a
program. -/
theorem note_bind (entry : μ) (h : Erases journaled program) :
    Erases (note entry >>= fun _ => journaled) program :=
  fun faults _ => h faults _

theorem ite {condition : Prop} [Decidable condition] {first second : Journaled μ α}
    {first' second' : Access α} (hfirst : Erases first first') (hsecond : Erases second second') :
    Erases (if condition then first else second) (if condition then first' else second') := by
  split
  · exact hfirst
  · exact hsecond

/-- A loop, step by step. Induction on the list. -/
theorem foldlM {step : β → α → Journaled μ β} {step' : β → α → Access β}
    (h : ∀ acc item, Erases (step acc item) (step' acc item)) :
    ∀ (items : List α) (acc : β), Erases (items.foldlM step acc) (items.foldlM step' acc)
  | [], acc => pure acc
  | item :: items, acc => by
    rw [List.foldlM_cons, List.foldlM_cons]
    exact bind (h acc item) fun acc' => foldlM h items acc'

end Erases

end TxIndex.Access

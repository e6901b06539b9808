/-!
# Outcomes that are values

A computation that may fail gives a value just when each of its steps gives one. With these laws a
`do` block that is known to succeed is taken apart step by step, and one is shown to succeed by its
steps. One that fails has failed at the first step that does.
-/

namespace TxIndex.Except

variable {ε ε' : Type}

/-- Two steps succeed if the first one does, and the second one with what it gives. -/
@[simp] theorem bind_eq_ok_iff {x : Except ε α} {f : α → Except ε β} {b : β} :
    (x >>= f) = .ok b ↔ ∃ a, x = .ok a ∧ f a = .ok b := by
  cases x with
  | error e =>
    refine ⟨fun h => (nomatch h), fun h => ?_⟩
    obtain ⟨a, h, -⟩ := h
    cases h
  | ok a =>
    refine ⟨fun h => ⟨a, rfl, h⟩, fun h => ?_⟩
    obtain ⟨a', h, h'⟩ := h
    cases h
    exact h'

@[simp] theorem map_eq_ok_iff {x : Except ε α} {f : α → β} {b : β} :
    x.map f = .ok b ↔ ∃ a, x = .ok a ∧ f a = b := by
  cases x with
  | error e =>
    refine ⟨fun h => (nomatch h), fun h => ?_⟩
    obtain ⟨a, h, -⟩ := h
    cases h
  | ok a =>
    refine ⟨fun h => ⟨a, rfl, Except.ok.inj h⟩, fun h => ?_⟩
    obtain ⟨a', h, rfl⟩ := h
    cases h
    rfl

@[simp] theorem mapError_eq_ok_iff {x : Except ε α} {f : ε → ε'} {a : α} :
    x.mapError f = .ok a ↔ x = .ok a := by
  cases x with
  | error e => exact ⟨fun h => (nomatch h), fun h => (nomatch h)⟩
  | ok a' => exact ⟨fun h => by cases h; rfl, fun h => by cases h; rfl⟩

/-- Two steps fail in the first one, or the first one succeeds and the second one fails. -/
theorem bind_eq_error_iff {x : Except ε α} {f : α → Except ε β} {e : ε} :
    (x >>= f) = .error e ↔ x = .error e ∨ ∃ a, x = .ok a ∧ f a = .error e := by
  cases x with
  | error e' =>
    refine ⟨fun h => .inl (by cases h; rfl), fun h => ?_⟩
    rcases h with h | ⟨a, h, -⟩
    · cases h
      rfl
    · cases h
  | ok a =>
    refine ⟨fun h => .inr ⟨a, rfl, h⟩, fun h => ?_⟩
    rcases h with h | ⟨a', h, h'⟩
    · cases h
    · cases h
      exact h'

theorem mapError_eq_error_iff {x : Except ε α} {f : ε → ε'} {e : ε'} :
    x.mapError f = .error e ↔ ∃ cause, x = .error cause ∧ f cause = e := by
  cases x with
  | ok a =>
    refine ⟨fun h => (nomatch h), fun h => ?_⟩
    obtain ⟨cause, h, -⟩ := h
    cases h
  | error cause =>
    refine ⟨fun h => ⟨cause, rfl, Except.error.inj h⟩, fun h => ?_⟩
    obtain ⟨cause', h, rfl⟩ := h
    cases h
    rfl

/-- A list of steps succeeds if the first does and the others do. This is the form in which an
induction on the list needs it. -/
theorem mapM_cons_eq_ok_iff {f : α → Except ε β} {item : α} {items : List α} {values : List β} :
    (item :: items).mapM f = .ok values ↔
      ∃ value rest, f item = .ok value ∧ items.mapM f = .ok rest ∧ values = value :: rest := by
  rw [List.mapM_cons, bind_eq_ok_iff]
  refine ⟨fun h => ?_, fun h => ?_⟩
  · obtain ⟨value, hvalue, h⟩ := h
    obtain ⟨rest, hrest, h⟩ := bind_eq_ok_iff.1 h
    cases h
    exact ⟨value, rest, hvalue, hrest, rfl⟩
  · obtain ⟨value, rest, hvalue, hrest, rfl⟩ := h
    exact ⟨value, hvalue, bind_eq_ok_iff.2 ⟨rest, hrest, rfl⟩⟩

/-- There is one value for each step. -/
theorem length_of_mapM_eq_ok {f : α → Except ε β} {items : List α} {values : List β}
    (h : items.mapM f = .ok values) : values.length = items.length := by
  induction items generalizing values with
  | nil =>
    cases h
    rfl
  | cons item items ih =>
    obtain ⟨value, rest, -, hrest, rfl⟩ := mapM_cons_eq_ok_iff.1 h
    exact congrArg Nat.succ (ih hrest)

/-- A computation that succeeds on some inputs, and there as a function, does so on a list. With
this a loop over a list needs no induction of its own. -/
theorem mapM_eq_ok_iff {f : α → Except ε β} {P : α → Prop} {g : α → β}
    (h : ∀ a b, f a = .ok b ↔ P a ∧ b = g a) {items : List α} {values : List β} :
    items.mapM f = .ok values ↔ (∀ a ∈ items, P a) ∧ values = items.map g := by
  induction items generalizing values with
  | nil =>
    refine ⟨fun hok => ?_, fun hall => ?_⟩
    · cases hok
      exact ⟨fun _ hmem => absurd hmem List.not_mem_nil, rfl⟩
    · rw [hall.2]
      rfl
  | cons a items ih =>
    rw [mapM_cons_eq_ok_iff, List.forall_mem_cons]
    refine ⟨fun hok => ?_, fun hall => ?_⟩
    · obtain ⟨b, bs, hb, hbs, rfl⟩ := hok
      obtain ⟨ha, rfl⟩ := (h a b).1 hb
      obtain ⟨hitems, rfl⟩ := ih.1 hbs
      exact ⟨⟨ha, hitems⟩, rfl⟩
    · obtain ⟨⟨ha, hitems⟩, rfl⟩ := hall
      exact ⟨g a, items.map g, (h a _).2 ⟨ha, rfl⟩, ih.2 ⟨hitems, rfl⟩, rfl⟩

theorem mapM_map_eq_ok {f : β → Except ε γ} {g : α → β} {value : α → γ} {items : List α}
    (h : ∀ a ∈ items, f (g a) = .ok (value a)) :
    (items.map g).mapM f = .ok (items.map value) := by
  induction items with
  | nil => rfl
  | cons a items ih =>
    rw [List.forall_mem_cons] at h
    exact mapM_cons_eq_ok_iff.2 ⟨value a, items.map value, h.1, ih h.2, rfl⟩

/-! ## Checks -/

theorem forM_eq_ok_iff {f : α → Except ε Unit} {items : List α} :
    items.forM f = .ok () ↔ ∀ a ∈ items, f a = .ok () := by
  induction items with
  | nil => exact ⟨fun _ a ha => absurd ha List.not_mem_nil, fun _ => rfl⟩
  | cons a items ih =>
    show (f a >>= fun _ => items.forM f) = .ok () ↔ _
    rw [bind_eq_ok_iff, List.forall_mem_cons]
    exact ⟨fun ⟨_, ha, h⟩ => ⟨ha, ih.1 h⟩, fun h => ⟨(), h.1, ih.2 h.2⟩⟩

/-- What a list of checks reports is what the first of them reports that fails. The checks behind it
are not made. -/
theorem forM_eq_error_iff {f : α → Except ε Unit} {items : List α} {e : ε} :
    items.forM f = .error e ↔
      ∃ upto a rest, items = upto ++ a :: rest ∧ (∀ d ∈ upto, f d = .ok ()) ∧ f a = .error e := by
  induction items with
  | nil =>
    refine ⟨fun h => (nomatch h), fun h => ?_⟩
    obtain ⟨upto, a, rest, h, -⟩ := h
    exact absurd h.symm (by simp)
  | cons a items ih =>
    show (f a >>= fun _ => items.forM f) = .error e ↔ _
    rw [bind_eq_error_iff]
    refine ⟨fun h => ?_, fun h => ?_⟩
    · rcases h with ha | ⟨_, ha, h⟩
      · exact ⟨[], a, items, rfl, fun _ hd => absurd hd List.not_mem_nil, ha⟩
      · obtain ⟨upto, b, rest, rfl, hupto, hb⟩ := ih.1 h
        exact ⟨a :: upto, b, rest, rfl, List.forall_mem_cons.2 ⟨ha, hupto⟩, hb⟩
    · -- The item that fails is this one, or all up to it are passed and it is among the others.
      obtain ⟨upto, b, rest, hitems, hupto, hb⟩ := h
      cases upto with
      | nil =>
        cases hitems
        exact .inl hb
      | cons d upto =>
        cases hitems
        obtain ⟨hd, hupto⟩ := List.forall_mem_cons.1 hupto
        exact .inr ⟨(), hd, ih.2 ⟨upto, b, rest, rfl, hupto, hb⟩⟩

end TxIndex.Except

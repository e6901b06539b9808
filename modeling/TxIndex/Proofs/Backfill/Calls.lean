import TxIndex.Proofs.Backfill.Opening

/-!
# What holds of the calls of a backfill holds of the backfill

A backfill goes from page to page until one is short, and how many there are is told by the store.
So it is no program whose text could be followed to the end. But on a given backend it runs as the
program that merges at most `n` pages does, if `n` is large enough (`mergePagesUpTo_apply`), and the
text of that one can be followed. A property that looks at two runs at a time (`Access.Local`)
passes over from the one to the other: `OfCalls.mergePages`, and with the reading of the marker
`OfCalls.run`.
-/

namespace TxIndex.Backfill

variable {codec : Codec} {config : Config}

/-- Merges page after page from `start` on, up to a short page, and at most `n` pages. -/
def mergePagesUpTo (codec : Codec) (config : Config) : Nat → Bytes → Progress → Access Progress
  | 0, _, p => pure p
  | n + 1, start, p => do
    let (p', next?) ← mergePage codec config start p
    match next? with
    | none => return p'
    | some next => mergePagesUpTo codec config n next p'

/-- The bound is not met where it is larger than the number of entries to come: every page but the
last takes at least one of them away. -/
theorem mergePagesUpTo_apply {n : Nat} {start : Bytes} {b : Backend}
    (h : remaining start b.store < n) (p : Progress) (faults : Faults) :
    mergePages codec config start p faults b =
      mergePagesUpTo codec config n start p faults b := by
  induction n generalizing start p b with
  | zero => exact absurd h (Nat.not_lt_zero _)
  | succ n ih =>
    rw [mergePages_apply, mergePagesUpTo, Access.bind_apply]
    cases hpage : mergePage codec config start p faults b with
    | error cause b' => rfl
    | ok page b' =>
      obtain ⟨p', next?⟩ := page
      cases next? with
      | none => rfl
      | some next =>
        -- A full page leaves less to come, so one round fewer is enough for the rest.
        have hless := remaining_lt_of_mergePage hpage
        exact ih (by omega) p'

namespace OfCalls

variable {P : ∀ α : Type, Access α → Prop}

/-- A bounded number of pages, by induction on the bound: at each round a page, and perhaps the
next. -/
theorem mergePagesUpTo (h : OfCalls P codec config.codecVersion)
    (hscan : ∀ start limit, P _ (Access.scan start Space.txById.tag limit)) (n : Nat)
    (start : Bytes) (p : Progress) : P Progress (mergePagesUpTo codec config n start p) := by
  induction n generalizing start p with
  | zero => exact h.pure p
  | succ n ih =>
    refine h.bind (h.mergePage hscan start p) fun page => ?_
    obtain ⟨p', next?⟩ := page
    cases next? with
    | none => exact h.pure p'
    | some next => exact ih next p'

/-- All pages, however many there are: a bound that is large enough for both backends in
question. -/
theorem mergePages (h : OfCalls P codec config.codecVersion) (hlocal : Access.Local P)
    (hscan : ∀ start limit, P _ (Access.scan start Space.txById.tag limit)) (start : Bytes)
    (p : Progress) : P Progress (mergePages codec config start p) := by
  refine hlocal fun b b' => ?_
  have hupTo := h.mergePagesUpTo hscan (remaining start b.store + remaining start b'.store + 1) start p
  refine ⟨_, hupTo, fun faults => ⟨?_, ?_⟩⟩
  · exact mergePagesUpTo_apply (by omega) p faults
  · exact mergePagesUpTo_apply (by omega) p faults

/-- **The whole backfill.** Besides the calls of a merge it reads the marker and scans. -/
theorem run (h : OfCalls P codec config.codecVersion) (hlocal : Access.Local P)
    (hscan : ∀ start limit, P _ (Access.scan start Space.txById.tag limit))
    (hread : P _ Access.readMarker) (lastAccepted : Height) :
    P Report (run codec config lastAccepted) := by
  rw [run_eq]
  refine h.bind hread fun marker? => ?_
  unfold proceed
  cases (State.ofMarker marker?).start? with
  | none => exact h.pure _
  | some start => exact h.bind (h.mergePages hlocal hscan start _) (h.finish lastAccepted)

end OfCalls

end TxIndex.Backfill

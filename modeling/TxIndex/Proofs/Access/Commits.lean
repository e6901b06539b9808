import TxIndex.Proofs.Access.Calls

/-!
# Runs in which late commits fail

A handle counts the commits it has made, and the calls of a commit are counted whether or not they
fail. As long as none has failed, the two counts are in step; so in a run in which nothing but
commits can fail, the moment of the first failure is told by the store.

`Lands n program`: if the first `n` commits cannot fail, then the program fails after `n` commits,
or fails without faults as well. It is proved along the text of the program (`Lands.closed`).
-/

namespace TxIndex

/-- Nothing but commits fails, and not the first `n` of them. -/
structure Faults.OnlyLateCommits (faults : Faults) (n : Nat) : Prop where
  store : ∀ call k, call ≠ .commit → faults.store call k = .none
  codec : ∀ call k, faults.codec call k = .none
  commit : ∀ k < n, faults.store .commit k = .none

/-- A store whose commits are lost from the `n`th on is one in which only late commits fail. -/
theorem Faults.onlyLateCommits_limitStore (n : Nat) (error : StoreError) :
    (Faults.none.limitStore .commit n error).OnlyLateCommits n where
  store _ _ hcall := if_neg fun h => hcall h.1
  codec _ _ := rfl
  commit _ hlt := if_neg fun h => Nat.not_le_of_lt hlt h.2

namespace Access

/-- Every commit that was called was made. -/
def InStep (b : Backend) : Prop :=
  b.calls.store .commit = b.store.commits

/-- Where only late commits can fail, a run that succeeds is the run without faults and has made all
its commits; one that fails has made `n` commits, or is the run without faults. -/
def Lands (n : Nat) (program : Access α) : Prop :=
  ∀ faults b, faults.OnlyLateCommits n → InStep b →
    match program faults b with
    | .ok value b' => program Faults.none b = .ok value b' ∧ InStep b'
    | .error e b' => n ≤ b'.store.commits ∨ program Faults.none b = .error e b'

namespace Lands

variable {n : Nat}

theorem of_ok {program : Access α} {faults : Faults} {b b' : Backend} {value : α}
    (h : Lands n program) (hlate : faults.OnlyLateCommits n) (hstep : InStep b)
    (hrun : program faults b = .ok value b') :
    program Faults.none b = .ok value b' ∧ InStep b' := by
  have houtcome := h faults b hlate hstep
  rw [hrun] at houtcome
  exact houtcome

theorem of_error {program : Access α} {faults : Faults} {b b' : Backend} {e : Error}
    (h : Lands n program) (hlate : faults.OnlyLateCommits n) (hstep : InStep b)
    (hrun : program faults b = .error e b') :
    n ≤ b'.store.commits ∨ program Faults.none b = .error e b' := by
  have houtcome := h faults b hlate hstep
  rw [hrun] at houtcome
  exact houtcome

/-- Along the text: as long as the steps succeed they are those of the run without faults, and the
counts stay in step, so the next step can be looked at in the same way. -/
theorem closed : Closed fun _ => Lands n where
  pure _ _ _ _ hstep := ⟨rfl, hstep⟩
  throw _ _ _ _ _ := .inr rfl
  callCodec call outcome fail _ faults b hlate hstep := by
    unfold Access.callCodec
    rw [hlate.codec]
    cases outcome with
    | ok value => exact ⟨rfl, hstep⟩
    | error e => exact .inr rfl
  bind_of_value {_ _ program rest} hfirst hrest faults b hlate hstep := by
    rw [bind_apply program rest faults, bind_apply program rest Faults.none]
    cases hrun : program faults b with
    | ok value b₁ =>
      -- The first step succeeds without faults as well, and the counts are in step behind it.
      obtain ⟨hnone, hstep₁⟩ := of_ok hfirst hlate hstep hrun
      rw [hnone]
      exact hrest faults b value b₁ hrun faults b₁ hlate hstep₁
    | error e b₁ =>
      -- The commits have been made by then, or the failure is there without faults as well.
      rcases of_error hfirst hlate hstep hrun with hmany | hnone
      · exact .inl hmany
      · rw [hnone]
        exact .inr rfl

/-- The two runs that are compared start on the same backend. -/
theorem isLocal : Local fun _ => Lands n := by
  intro α program h faults b hlate hstep
  obtain ⟨program', hlands, hagree⟩ := h b b
  rw [(hagree faults).1, (hagree Faults.none).1]
  exact hlands faults b hlate hstep

/-- A call of the store that is no commit cannot fail here, and leaves both counts: that of the
commits called and that of the commits made. -/
theorem callStore {call : StoreCall} {act : Store → α × Store} (hcall : call ≠ .commit)
    (hkeep : ∀ s, (act s).2.commits = s.commits) : Lands n (Access.callStore call act) := by
  intro faults b hlate hstep
  have hclear := hlate.store call (b.calls.store call) hcall
  rw [callStore_of_clear hclear]
  refine ⟨rfl, ?_⟩
  show (if StoreCall.commit = call then _ else b.calls.store .commit) = (act b.store).2.commits
  rw [if_neg hcall.symm, hkeep]
  exact hstep

/-- A commit that fails has `n` others before it, for the counts have been in step: as long as no
commit has failed, all that were called have been made. -/
theorem commit : Lands n Access.commit := by
  intro faults b hlate hstep
  cases hfault : faults.store .commit (b.calls.store .commit) with
  | none =>
    rw [Access.commit, callStore_of_clear hfault]
    refine ⟨rfl, ?_⟩
    show (b.calls.addStore .commit).store .commit = b.store.commits + 1
    rw [Calls.store_addStore_self, hstep]
  | some cause =>
    rw [Access.commit, callStore_of_fault hfault]
    refine .inl (Nat.le_of_not_lt fun hlt => ?_)
    rw [hstep, hlate.commit _ hlt] at hfault
    cases hfault

/-! ## The calls -/

theorem get (key : Bytes) : Lands n (Access.get key) :=
  callStore (by decide) fun _ => rfl

theorem put (key value : Bytes) : Lands n (Access.put key value) :=
  callStore (by decide) fun _ => rfl

theorem scan (start pre : Bytes) (limit : Nat) : Lands n (Access.scan start pre limit) :=
  callStore (by decide) fun _ => rfl

end Lands

end Access

end TxIndex

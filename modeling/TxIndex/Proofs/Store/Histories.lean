import Mathlib.Data.List.Dedup
import TxIndex.Proofs.Store.Scan
import TxIndex.Store.Family

/-!
# Handles that share committed data

Handles on one table put, commit and abort in any order, new ones are made beside them and some are
dropped. What they read is told by the history of these steps alone (`Family.ToldBy`):

* the committed data are the table of the beginning with one batch per commit applied to it, in the
  order of the commits (`Family.batches`, `Family.applied`);
* a batch is what the handle has put since its last commit or abort (`Family.putsWith`), of each key
  the latest value (`Family.latest`);
* a handle reads its own puts of that time over the committed data.

So nobody sees a put before its commit but the handle itself, and then everybody sees the whole
batch (`toldBy_of_reached`). Histories are lists with the latest step first.
-/

namespace TxIndex.Family

/-! ## Histories -/

/-- The handle that the step is done with. -/
def Step.handle : Step → Nat
  | .put handle _ _ | .commit handle | .abort handle | .reopen handle | .drop handle => handle

/-- The steps lead to the family from a single handle on `t` that has nothing staged. Each of them
is done with a handle that is there at that time. -/
inductive Reached (t : Table) : List Step → Family → Prop where
  | start : Reached t [] { committed := t }
  | step {history : List Step} {f : Family} {x : Step} (hbefore : Reached t history f)
      (hopen : (f.store? x.handle).isSome) : Reached t (x :: history) (f.step x)

/-- The step takes away what the handle has staged. -/
def Step.clears (handle : Nat) : Step → Bool
  | .commit h | .abort h => h == handle
  | _ => false

/-- What the step puts with the handle. -/
def Step.putWith? (handle : Nat) : Step → Option Entry
  | .put h key value => if h = handle then some ⟨key, value⟩ else none
  | _ => none

/-- The step commits what the handle has staged. -/
def Step.isCommitOf (handle : Nat) : Step → Bool
  | .commit h => h == handle
  | _ => false

/-- What has been put with the handle since its last commit or abort, the latest first. -/
def putsWith (handle : Nat) (history : List Step) : List Entry :=
  (history.takeWhile fun x => !x.clears handle).filterMap (Step.putWith? handle)

/-- How often the handle has been committed. -/
def commitsOf (handle : Nat) (history : List Step) : Nat :=
  history.countP (Step.isCommitOf handle)

/-- What each commit has made durable, the latest commit first. -/
def batches : List Step → List (List Entry)
  | [] => []
  | .commit handle :: earlier => putsWith handle earlier :: batches earlier
  | _ :: earlier => batches earlier

/-- The latest value of a key among puts of which the latest is the first. -/
def latest (key : Bytes) (puts : List Entry) : Option Bytes :=
  (puts.find? fun e => e.key == key).map Entry.value

/-- The value of a key after batches, of which the latest is the first, have been applied to a
table. -/
def applied (t : Table) (key : Bytes) : List (List Entry) → Option Bytes
  | [] => t.get? key
  | batch :: earlier => (latest key batch).or (applied t key earlier)

variable {f : Family} {s u : Store} {t : Table} {n : Nat} {x : Step} {history : List Step}

/-- A later put of a key hides the earlier ones. -/
theorem latest_cons (e : Entry) (puts : List Entry) (key : Bytes) :
    latest key (e :: puts) = if e.key = key then some e.value else latest key puts := by
  unfold latest
  by_cases hkey : e.key = key <;> simp [hkey]

theorem latest_ne_none_iff {key : Bytes} {puts : List Entry} :
    latest key puts ≠ none ↔ key ∈ puts.map Entry.key := by
  unfold latest
  simp [List.find?_eq_none]

/-- One step more: a commit or an abort clears what has been put before, and a put comes in front of
it. -/
theorem putsWith_cons (n : Nat) (x : Step) (history : List Step) :
    putsWith n (x :: history) =
      if x.clears n then [] else (x.putWith? n).toList ++ putsWith n history := by
  unfold putsWith
  rw [List.takeWhile_cons]
  cases x.clears n with
  | true => rfl
  | false =>
    simp only [Bool.not_false, if_true, Bool.false_eq_true, if_false, List.filterMap_cons]
    cases x.putWith? n <;> rfl

theorem clears_of_ne (hne : x.handle ≠ n) : x.clears n = false := by
  cases x <;> simp_all [Step.handle, Step.clears]

theorem putWith?_of_ne (hne : x.handle ≠ n) : x.putWith? n = none := by
  cases x <;> simp_all [Step.handle, Step.putWith?]

/-- A step that neither puts with the handle nor clears it does not count for it. -/
theorem putsWith_cons_of_quiet (hclears : x.clears n = false) (hput : x.putWith? n = none) :
    putsWith n (x :: history) = putsWith n history := by
  simp [putsWith_cons, hclears, hput]

theorem commitsOf_cons_of_quiet (hclears : x.clears n = false) :
    commitsOf n (x :: history) = commitsOf n history := by
  have hcommit : x.isCommitOf n = false := by
    cases x <;> simp_all [Step.clears, Step.isCommitOf]
  simp [commitsOf, hcommit]

/-- A handle that no step has been done with has put nothing and committed nothing. -/
theorem putsWith_eq_nil (h : ∀ x ∈ history, x.handle ≠ n) : putsWith n history = [] := by
  induction history with
  | nil => rfl
  | cons x history ih =>
    rw [List.forall_mem_cons] at h
    rw [putsWith_cons_of_quiet (clears_of_ne h.1) (putWith?_of_ne h.1), ih h.2]

theorem commitsOf_eq_zero (h : ∀ x ∈ history, x.handle ≠ n) : commitsOf n history = 0 := by
  induction history with
  | nil => rfl
  | cons x history ih =>
    rw [List.forall_mem_cons] at h
    rw [commitsOf_cons_of_quiet (clears_of_ne h.1), ih h.2]

/-! ## What a step does with the handles -/

/-- The store of a handle is over the data that the family has committed. -/
theorem committed_of_store? (h : f.store? n = some s) : s.committed = f.committed := by
  unfold store? at h
  obtain ⟨handle, -, rfl⟩ := Option.map_eq_some_iff.1 h
  rfl

theorem lt_of_store? (h : f.store? n = some s) : n < f.handles.length := by
  unfold store? at h
  obtain ⟨handle, hjoin, -⟩ := Option.map_eq_some_iff.1 h
  exact (List.getElem?_eq_some_iff.1 (Option.join_eq_some_iff.1 hjoin)).1

theorem store?_set_self (h : f.store? n = some u) (s : Store) :
    (f.set n s).store? n = some s := by
  unfold store? set
  simp only [List.getElem?_set_self (lt_of_store? h)]
  rfl

/-- A handle that is not written to keeps what it has staged, over the data as they now are. This is
how the other handles come to see a commit. -/
theorem store?_set_of_ne {m : Nat} (hne : m ≠ n) (s : Store) :
    (f.set m s).store? n = (f.store? n).map fun u => { u with committed := s.committed } := by
  unfold store? set
  simp only [List.getElem?_set_ne hne, Option.map_map]
  rfl

/-- Where the committed data stay, the other handles do. -/
theorem store?_set_of_committed {m : Nat} (hne : m ≠ n) (hs : s.committed = f.committed) :
    (f.set m s).store? n = f.store? n := by
  rw [store?_set_of_ne hne, hs]
  cases hstore : f.store? n with
  | none => rfl
  | some u =>
    rw [← committed_of_store? hstore]
    rfl

theorem store?_add_of_lt (h : n < f.handles.length) (handle : Handle) :
    (f.add handle).store? n = f.store? n := by
  unfold store? add
  simp only [List.getElem?_append_left h]

/-- A new handle gets the next number, and has nothing staged. -/
theorem store?_add_self (f : Family) (handle : Handle) :
    (f.add handle).store? f.handles.length = some { handle with committed := f.committed } := by
  unfold store? add
  simp only [List.getElem?_concat_length]
  rfl

theorem store?_drop_of_ne {m : Nat} (hne : m ≠ n) : (f.drop m).store? n = f.store? n := by
  unfold store? drop
  simp only [List.getElem?_set_ne hne]

theorem store?_drop_self (f : Family) (n : Nat) : (f.drop n).store? n = none := by
  unfold store? drop
  by_cases hlt : n < f.handles.length
  · simp [List.getElem?_set_self hlt]
  · simp [hlt]

theorem step_put (h : f.store? n = some s) (key value : Bytes) :
    f.step (.put n key value) = f.set n (s.put key value) := by
  simp only [step, modify, h]

theorem step_commit (h : f.store? n = some s) : f.step (.commit n) = f.set n s.commit := by
  simp only [step, modify, h]

theorem step_abort (h : f.store? n = some s) : f.step (.abort n) = f.set n s.abort := by
  simp only [step, modify, h]

theorem step_reopen (h : f.store? n = some s) : f.step (.reopen n) = f.add {} := by
  simp only [step, h, Option.isSome_some, if_true]

/-! ## What the history tells

`Traced` is about one handle and `Traces` about all of them and the committed data. The steps that
work on the store of a handle are one case (`Traces.set`). -/

/-- The history tells what the handle has staged and how often it has been committed. -/
structure Traced (n : Nat) (history : List Step) (s : Store) : Prop where
  staged : ∀ key, s.staged.get? key = latest key (putsWith n history)
  commits : s.commits = commitsOf n history

/-- What the history tells of all handles and of the committed data. The steps are done with handles
that have been given a number, so a new one has none of them. -/
structure Traces (t : Table) (history : List Step) (f : Family) : Prop where
  committed : ∀ key, f.committed.get? key = applied t key (batches history)
  handle : ∀ n s, f.store? n = some s → Traced n history s
  known : ∀ x ∈ history, x.handle < f.handles.length

/-- A step that does not count for the handle leaves what is told of it, whatever is committed: what
a handle has staged is not touched by what others commit. -/
theorem Traced.cons (h : Traced n history s) (hclears : x.clears n = false)
    (hput : x.putWith? n = none) (committed : Table) :
    Traced n (x :: history) { s with committed } where
  staged key := by
    rw [putsWith_cons_of_quiet hclears hput]
    exact h.staged key
  commits := by
    rw [commitsOf_cons_of_quiet hclears]
    exact h.commits

theorem Traced.put (h : Traced n history s) (key value : Bytes) :
    Traced n (.put n key value :: history) (s.put key value) where
  staged other := by
    have hputs : putsWith n (.put n key value :: history) = ⟨key, value⟩ :: putsWith n history := by
      simp [putsWith_cons, Step.clears, Step.putWith?]
    rw [hputs, latest_cons, ← h.staged]
    exact Table.get?_insert ..
  commits := by
    rw [commitsOf_cons_of_quiet rfl]
    exact h.commits

theorem Traced.commit (h : Traced n history s) : Traced n (.commit n :: history) s.commit where
  staged key := by
    simp [Store.commit, putsWith_cons, Step.clears, latest]
  commits := by
    simp [Store.commit, commitsOf, Step.isCommitOf, h.commits]

theorem Traced.abort (h : Traced n history s) : Traced n (.abort n :: history) s.abort where
  staged key := by
    simp [Store.abort, putsWith_cons, Step.clears, latest]
  commits := by
    rw [commitsOf, List.countP_cons_of_neg Bool.false_ne_true]
    exact h.commits

/-- A step that works on the store of its handle. What has to be shown is what it does to this
handle and to the committed data; of the other handles the history tells what it told before. -/
theorem Traces.set (h : Traces t history f) (hopen : f.store? x.handle = some u)
    (hself : Traced x.handle (x :: history) s)
    (hcommitted : ∀ key, s.committed.get? key = applied t key (batches (x :: history))) :
    Traces t (x :: history) (f.set x.handle s) where
  committed := hcommitted
  handle n v hv := by
    by_cases heq : x.handle = n
    · -- This handle has the store it has been given.
      subst heq
      rw [store?_set_self hopen] at hv
      cases hv
      exact hself
    · rw [store?_set_of_ne heq] at hv
      -- The store of another handle has got the committed data and has kept what it had staged.
      obtain ⟨w, hw, rfl⟩ := Option.map_eq_some_iff.1 hv
      exact (h.handle n w hw).cons (clears_of_ne heq) (putWith?_of_ne heq) _
  known := by
    have hlen : (f.set x.handle s).handles.length = f.handles.length := List.length_set
    rw [List.forall_mem_cons, hlen]
    exact ⟨lt_of_store? hopen, h.known⟩

/-- **Every step keeps to the history.** One case for each kind of step; the first three are
`Traces.set`. -/
theorem Traces.step (h : Traces t history f) (hopen : f.store? x.handle = some s) :
    Traces t (x :: history) (f.step x) := by
  have hsame : s.committed = f.committed := committed_of_store? hopen
  have hself : Traced x.handle history s := h.handle _ _ hopen
  cases x with
  | put m key value =>
    have hm : f.store? m = some s := hopen
    rw [step_put hm]
    exact h.set hopen (hself.put key value) fun other => hsame ▸ h.committed other
  | commit m =>
    have hm : f.store? m = some s := hopen
    rw [step_commit hm]
    refine h.set hopen hself.commit fun key => ?_
    -- What the handle has put is the next batch.
    show s.view.get? key = (latest key (putsWith m history)).or (applied t key (batches history))
    rw [Store.get?_view, Store.get?, hself.staged, hsame, h.committed]
    rfl
  | abort m =>
    have hm : f.store? m = some s := hopen
    rw [step_abort hm]
    exact h.set hopen hself.abort fun key => hsame ▸ h.committed key
  | reopen m =>
    have hm : f.store? m = some s := hopen
    have hlen : (f.add {}).handles.length = f.handles.length + 1 := List.length_append
    have hknown : ∀ x ∈ Step.reopen m :: history, x.handle < f.handles.length :=
      List.forall_mem_cons.2 ⟨lt_of_store? hm, h.known⟩
    rw [step_reopen hm]
    refine ⟨h.committed, fun n v hv => ?_, fun x hx => hlen ▸ Nat.lt_succ_of_lt (hknown x hx)⟩
    have hn : n < f.handles.length + 1 := hlen ▸ lt_of_store? hv
    rcases Nat.lt_or_eq_of_le (Nat.le_of_lt_succ hn) with hlt | rfl
    · rw [store?_add_of_lt hlt] at hv
      exact (h.handle n v hv).cons rfl rfl v.committed
    · -- The new handle has a number that no step before was done with.
      rw [store?_add_self] at hv
      cases hv
      have hnone : ∀ x ∈ Step.reopen m :: history, x.handle ≠ f.handles.length :=
        fun x hx => Nat.ne_of_lt (hknown x hx)
      exact ⟨fun key => by rw [putsWith_eq_nil hnone]; rfl, (commitsOf_eq_zero hnone).symm⟩
  | drop m =>
    have hlen : (f.drop m).handles.length = f.handles.length := List.length_set
    show Traces t (.drop m :: history) (f.drop m)
    refine ⟨h.committed, fun n v hv => ?_, ?_⟩
    · have hne : m ≠ n := by
        rintro rfl
        rw [store?_drop_self] at hv
        cases hv
      rw [store?_drop_of_ne hne] at hv
      exact (h.handle n v hv).cons rfl rfl v.committed
    · rw [List.forall_mem_cons, hlen]
      exact ⟨lt_of_store? hopen, h.known⟩

/-- What the history tells holds of every family that has been reached. By induction on the history,
from the family of one handle with nothing staged. -/
theorem traces_of_reached (h : Reached t history f) : Traces t history f := by
  induction h with
  | start =>
    refine ⟨fun _ => rfl, fun n s hs => ?_, fun _ hx => absurd hx List.not_mem_nil⟩
    have hn : n = 0 := Nat.lt_one_iff.1 (lt_of_store? hs)
    subst hn
    cases hs
    exact ⟨fun _ => rfl, rfl⟩
  | step hbefore hopen ih =>
    obtain ⟨s, hs⟩ := Option.isSome_iff_exists.1 hopen
    exact ih.step hs

/-! ## What is read -/

/-- The distinct keys of the puts are those of the table that they make. A key that is put again
counts once. -/
theorem size_eq_length_dedup {staged : Table} {puts : List Entry}
    (h : ∀ key, staged.get? key = latest key puts) :
    staged.size = (puts.map Entry.key).dedup.length := by
  have hmem : ∀ key, key ∈ staged.entries.map Entry.key ↔ key ∈ (puts.map Entry.key).dedup := by
    intro key
    have hputs : key ∈ puts.map Entry.key ↔ staged.get? key ≠ none := by
      rw [h, latest_ne_none_iff]
    rw [List.mem_dedup, hputs, Option.ne_none_iff_exists']
    refine ⟨fun hkey => ?_, fun hvalue => ?_⟩
    · obtain ⟨e, he, rfl⟩ := List.mem_map.1 hkey
      exact ⟨e.value, Table.mem_entries_iff.1 he⟩
    · obtain ⟨value, hvalue⟩ := hvalue
      exact List.mem_map.2 ⟨⟨key, value⟩, Table.mem_entries_iff.2 hvalue, rfl⟩
  -- Neither list names a key twice, and both name the same ones.
  have hperm := (List.perm_ext_iff_of_nodup staged.nodup_keys (List.nodup_dedup _)).2 hmem
  rw [← hperm.length_eq, List.length_map]
  rfl

/-- What is committed, and what each handle reads and counts, is told by the history. -/
structure ToldBy (t : Table) (history : List Step) (f : Family) : Prop where
  committed : ∀ key, f.committed.get? key = applied t key (batches history)
  get? : ∀ n s, f.store? n = some s →
    ∀ key, s.get? key = (latest key (putsWith n history)).or (f.committed.get? key)
  pendingWrites : ∀ n s, f.store? n = some s →
    s.pendingWrites = ((putsWith n history).map Entry.key).dedup.length
  commits : ∀ n s, f.store? n = some s → s.commits = commitsOf n history

/-- What the history tells of the staged data tells what is read over the committed ones. -/
theorem Traces.toldBy (h : Traces t history f) : ToldBy t history f where
  committed := h.committed
  get? n s hs key := by
    rw [Store.get?, (h.handle n s hs).staged, committed_of_store? hs]
  pendingWrites n s hs := size_eq_length_dedup (h.handle n s hs).staged
  commits n s hs := (h.handle n s hs).commits

/-- A step that is a matter of its own handle. -/
def Step.Private : Step → Prop
  | .put .. | .abort _ | .drop _ => True
  | .commit _ | .reopen _ => False

/-- The step is not seen in the committed data nor with another handle. -/
structure Unseen (f : Family) (x : Step) : Prop where
  committed : (f.step x).committed = f.committed
  other : ∀ n, n ≠ x.handle → (f.step x).store? n = f.store? n

/-- What works on the staged data of a handle alone is not seen beyond it. If there is no such
handle, nothing is done. -/
theorem unseen_modify (g : Store → Store) (hg : ∀ s, (g s).committed = s.committed)
    (hx : f.step x = f.modify x.handle g) : Unseen f x := by
  unfold modify at hx
  cases hopen : f.store? x.handle with
  | none =>
    rw [hopen] at hx
    exact ⟨congrArg committed hx, fun n _ => congrArg (store? · n) hx⟩
  | some s =>
    have hsame : (g s).committed = f.committed := (hg s).trans (committed_of_store? hopen)
    rw [hopen] at hx
    refine ⟨(congrArg committed hx).trans hsame, fun n hne => ?_⟩
    rw [hx]
    exact store?_set_of_committed hne.symm hsame

/-- Puts, aborts and drops are not seen beyond their handle. They work on what it has staged, or on
its place in the family. -/
theorem unseen_of_private (h : x.Private) : Unseen f x := by
  cases x with
  | put m key value => exact unseen_modify (·.put key value) (fun _ => rfl) rfl
  | abort m => exact unseen_modify Store.abort (fun _ => rfl) rfl
  | drop m => exact ⟨rfl, fun n hne => store?_drop_of_ne hne.symm⟩
  | commit m => exact absurd h id
  | reopen m => exact absurd h id

/-- A commit of a handle changes nothing of what the handle reads. Another handle reads the whole
batch from then on, but for the keys that it has staged itself. -/
structure CommitSeen (f : Family) (handle : Nat) (batch : List Entry) : Prop where
  own : ∀ s, f.store? handle = some s → ∃ s', (f.step (.commit handle)).store? handle = some s' ∧
    (∀ key, s'.get? key = s.get? key) ∧
      ∀ start pre limit, s'.scan start pre limit = s.scan start pre limit
  other : ∀ n s, n ≠ handle → f.store? n = some s →
    ∃ s', (f.step (.commit handle)).store? n = some s' ∧ ∀ key, s'.get? key =
      if (s.staged.get? key).isSome then s.get? key else (latest key batch).or (s.get? key)

/-- What is seen of a commit. The handle itself has read all of it before; another one reads it
where it has staged nothing of its own. -/
theorem commitSeen_of_traces (h : Traces t history f) (hopen : f.store? n = some u) :
    CommitSeen f n (putsWith n history) where
  own s hs := by
    rw [step_commit hs]
    refine ⟨s.commit, store?_set_self hs _, fun key => ?_, fun start pre limit => ?_⟩
    · rw [← Store.get?_view, Store.view_commit, Store.get?_view]
    · rw [Store.scan_eq_take_listing, Store.view_commit, ← Store.scan_eq_take_listing]
  other m s hne hs := by
    rw [step_commit hopen, store?_set_of_ne hne.symm, hs]
    refine ⟨_, rfl, fun key => ?_⟩
    -- The other handle goes on with what it has staged, over the view of the committing one.
    show (s.staged.get? key).or (u.view.get? key) = _
    rw [Store.get?_view, Store.get?, Store.get?, (h.handle n u hopen).staged,
      committed_of_store? hopen, committed_of_store? hs]
    cases s.staged.get? key <;> rfl

/-- **Handles share what is committed and nothing else.** Whatever has been done with handles on one
table, the history tells what is committed and what each handle reads. A put, an abort or a drop is
not seen beyond its handle; a commit is not seen with its own handle, and with the others it is seen
as a whole. -/
theorem toldBy_of_reached (h : Reached t history f) :
    ToldBy t history f ∧ (∀ x : Step, x.Private → Unseen f x) ∧
      ∀ n, (f.store? n).isSome → CommitSeen f n (putsWith n history) := by
  have htraces := traces_of_reached h
  refine ⟨htraces.toldBy, fun x hx => unseen_of_private hx, fun n hn => ?_⟩
  obtain ⟨s, hs⟩ := Option.isSome_iff_exists.1 hn
  exact commitSeen_of_traces htraces hs

/-- A handle puts a key twice, and a second handle puts it before the first one commits. -/
def contest : List Step :=
  [.commit 0, .put 1 [7] [3], .reopen 0, .put 0 [7] [2], .put 0 [7] [1]]

/-- The family that these steps lead to. -/
def contested : Family :=
  contest.foldr (fun x f => f.step x) {}

/-- The second handle goes on reading its own value, and will commit it over that of the first. -/
theorem toldBy_of_reached_contested :
    Reached .empty contest contested ∧ ToldBy .empty contest contested ∧
      (∀ x : Step, x.Private → Unseen contested x) ∧
        ∀ n, (contested.store? n).isSome → CommitSeen contested n (putsWith n contest) := by
  have hreached : Reached .empty contest contested :=
    .step (.step (.step (.step (.step .start rfl) rfl) rfl) rfl) rfl
  exact ⟨hreached, toldBy_of_reached hreached⟩

example : (contested.store? 1).bind (·.get? [7]) = some [3] ∧
    contested.committed.get? [7] = some [2] := by
  decide +kernel

end TxIndex.Family

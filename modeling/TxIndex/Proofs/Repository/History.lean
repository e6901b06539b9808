import TxIndex.Proofs.Backfill.Opening
import TxIndex.Proofs.Repository.Write

/-!
# Histories with failures

What may happen to a repository in the course of time, when any call of its store or codec may fail:
its owner writes, commits and aborts, and does not have to care whether a call has succeeded; the
process crashes; a repository is opened on the handle that is there, or fails to open; and others
who share the committed data commit writes of their own (`Event`, `Service.step`).

`Service.Holds.run` is how such histories are reasoned about. A property of tables that comes with
a complete marker, and that every beginning of a write keeps (`Event.Keeps`), holds at every moment
of what the handle reads and of what is committed.
-/

namespace TxIndex

namespace Store

/-- The store after another handle has committed what it had staged. -/
def beside (s : Store) (staged : Table) : Store :=
  { s with committed := s.committed.overlay staged }

/-- It holds of what the handle reads, and of what is committed. -/
structure Throughout (Q : Table → Prop) (s : Store) : Prop where
  view : Q s.view
  committed : Q s.committed

namespace Throughout

variable {Q : Table → Prop} {s : Store}

theorem of_staged_empty (hstaged : s.staged = .empty) (h : Q s.committed) : s.Throughout Q :=
  ⟨view_of_staged_empty hstaged ▸ h, h⟩

theorem reopen (h : s.Throughout Q) : s.reopen.Throughout Q :=
  .of_staged_empty rfl h.committed

theorem abort (h : s.Throughout Q) : s.abort.Throughout Q :=
  .of_staged_empty rfl h.committed

theorem commit (h : s.Throughout Q) : s.commit.Throughout Q :=
  .of_staged_empty rfl h.view

theorem putAll {entries : List Entry} (h : s.Throughout Q) (hview : Q (s.view.insertAll entries)) :
    (s.putAll entries).Throughout Q where
  view := view_putAll s entries ▸ hview
  committed := committed_putAll s entries ▸ h.committed

end Throughout

end Store

/-- What may happen to a repository and its store. -/
inductive Event where
  | write (height : Height) (txs : List Transaction)
  | commit
  | abort
  /-- The handle is lost with what it has staged, and a new one takes its place. -/
  | crash
  /-- A repository is opened on the handle that is there. -/
  | opening (codec : Codec) (config : Config) (lastAccepted : Height)
  /-- Another handle on the same committed data commits what it has staged. -/
  | foreign (staged : Table)

/-- A handle of a store with the calls made so far, and the repository on it if one is open. -/
structure Service where
  repository? : Option Repository
  backend : Backend

namespace Service

/-- The store of the handle. -/
def store (x : Service) : Store :=
  x.backend.store

/-- Lets the repository run a program, however it ends; without a repository nothing happens. -/
def call (x : Service) (faults : Faults) (program : Repository → Access Unit) : Service :=
  match x.repository? with
  | some r => { x with backend := (program r).after faults x.backend }
  | none => x

/-- What opening comes to. A handle on which it fails is lost. -/
def opened : Access.Result Repository → Service
  | .ok r b => { repository? := some r, backend := b }
  | .error _ b => { repository? := none, backend := { b with store := b.store.reopen } }

/-- One event. A call that fails leaves what it leaves, and nobody looks at the outcome but
opening. -/
def step (faults : Faults) (x : Service) : Event → Service
  | .write height txs => x.call faults fun r => r.write height txs
  | .commit => x.call faults fun _ => Access.commit
  | .abort => x.call faults fun _ => Access.abort
  | .crash => { repository? := none, backend := { x.backend with store := x.store.reopen } }
  | .opening codec config lastAccepted =>
    opened (Repository.openStore codec config lastAccepted faults x.backend)
  | .foreign staged => { x with backend := { x.backend with store := x.store.beside staged } }

/-- Events one after the other. The faults tell by the number of each call whether it fails. -/
def run (faults : Faults) (events : List Event) (x : Service) : Service :=
  events.foldl (step faults) x

end Service

/-- The event keeps a property of tables, as far as it depends on what is written, and opens
repositories of the trusted kind alone. -/
def Event.Keeps (trusted : Repository → Prop) (Q : Table → Prop) : Event → Prop
  | .write height txs => ∀ r, trusted r → r.Accepts txs → ∀ k t, Q t →
    Q (t.insertAll ((r.stagedEntries height txs).take k))
  | .opening codec config _ => ∀ lastBackfill, trusted { codec, config, lastBackfill }
  | .foreign staged => ∀ s : Store, s.Throughout Q → (s.beside staged).Throughout Q
  | .commit | .abort | .crash => True

namespace Service

/-! ## What every event keeps -/

variable {faults : Faults} {x : Service} {Q : Table → Prop} {trusted : Repository → Prop}

/-- What each event of a history keeps, the history keeps. -/
theorem run_induct {P : Service → Prop} {events : List Event}
    (hstep : ∀ x, ∀ event ∈ events, P x → P (x.step faults event)) (hx : P x) :
    P (x.run faults events) := by
  induction events generalizing x with
  | nil => exact hx
  | cons event events ih =>
    have hrest : ∀ y, ∀ other ∈ events, P y → P (y.step faults other) :=
      fun y other hother => hstep y other (List.mem_cons_of_mem _ hother)
    exact ih hrest (hstep x event List.mem_cons_self hx)

/-- A commit is made, or it fails and has done nothing. -/
theorem store_after_commit (faults : Faults) (b : Backend) :
    (Access.after Access.commit faults b).store = b.store ∨
      (Access.after Access.commit faults b).store = b.store.commit := by
  unfold Access.after Access.commit
  cases hfault : faults.store .commit (b.calls.store .commit) with
  | some cause =>
    rw [Access.callStore_of_fault hfault]
    exact .inl rfl
  | none =>
    rw [Access.callStore_of_clear hfault]
    exact .inr rfl

/-- An open repository is of the trusted kind, and the property holds throughout the store. -/
structure Holds (trusted : Repository → Prop) (Q : Table → Prop) (x : Service) : Prop where
  repository : ∀ r, x.repository? = some r → trusted r
  store : x.store.Throughout Q

/-- A program that keeps the property, whichever repository of the trusted kind it is run with,
keeps it; if no repository is open, nothing is run. -/
theorem Holds.call {program : Repository → Access Unit} (h : x.Holds trusted Q)
    (hprogram : ∀ r, trusted r → ((program r).after faults x.backend).store.Throughout Q) :
    (x.call faults program).Holds trusted Q := by
  unfold Service.call
  split
  · next r hopen => exact ⟨h.repository, hprogram r (h.repository r hopen)⟩
  · exact h

/-- **Every event keeps what it should.** What a write leaves is a beginning of its entries
(`store_after_write`), which `Event.Keeps` covers; what opening does is told by the marker, which
the property comes with. Crashes and aborts go back to what is committed, where the property holds
too. -/
theorem Holds.step {event : Event}
    (hcomplete : ∀ t, Q t → ∃ height, Backfill.CompleteThrough t height)
    (hevent : event.Keeps trusted Q) (h : x.Holds trusted Q) :
    (x.step faults event).Holds trusted Q := by
  cases event with
  | write height txs =>
    refine h.call fun r hr => ?_
    -- The write has staged nothing, or some of its entries in their order.
    rcases Repository.store_after_write r height txs faults x.backend with hsame | ⟨haccepts, k, hk⟩
    · exact hsame ▸ h.store
    · exact hk ▸ h.store.putAll (hevent r hr haccepts k _ h.store.view)
  | commit =>
    refine h.call fun r _ => ?_
    rcases store_after_commit faults x.backend with hsame | hcommit
    · exact hsame ▸ h.store
    · exact hcommit ▸ h.store.commit
  | abort => exact h.call fun r _ => h.store.abort
  | crash => exact ⟨fun r heq => (nomatch heq), h.store.reopen⟩
  | opening codec config lastAccepted =>
    -- The marker is complete, so all that opening does is to read it.
    obtain ⟨height, hthrough⟩ := hcomplete _ h.store.view
    show (opened (Repository.openStore codec config lastAccepted faults x.backend)).Holds trusted Q
    cases hfault : faults.store .get (x.backend.calls.store .get) with
    | none =>
      have hopen : Repository.openStore codec config lastAccepted faults x.backend = .ok _ _ :=
        Repository.openStore_of_complete hthrough hfault
      refine hopen ▸ ⟨fun r heq => ?_, h.store⟩
      cases heq
      exact hevent _
    | some cause =>
      have hopen : Repository.openStore codec config lastAccepted faults x.backend =
          .error (.store cause) _ := Repository.openStore_of_fault hfault
      exact hopen ▸ ⟨fun r heq => (nomatch heq), h.store.reopen⟩
  | foreign staged => exact ⟨h.repository, hevent x.store h.store⟩

/-- What comes with a complete marker and is kept by each event holds at the end of the history.
This is how the properties of whole histories are proved: the events are looked at one by one in
`Event.Keeps`. -/
theorem Holds.run {events : List Event}
    (hcomplete : ∀ t, Q t → ∃ height, Backfill.CompleteThrough t height)
    (hevents : ∀ event ∈ events, event.Keeps trusted Q) (h : x.Holds trusted Q) :
    (x.run faults events).Holds trusted Q :=
  run_induct (fun _ event hmem hy => hy.step hcomplete (hevents event hmem)) h

end Service

end TxIndex

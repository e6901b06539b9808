import TxIndex.Proofs.Repository.History

/-!
# A complete index stays complete

Opening marks the index complete before it hands the repository out, and after that nothing but
complete markers is ever written. So every later opening finds the index complete, whatever calls
fail, whether its handle is the old one or a new one, and does nothing.
-/

namespace TxIndex

namespace Backfill

/-- The marker tells that the index by height is complete. -/
def Complete (t : Table) : Prop :=
  ∃ height, CompleteThrough t height

variable {t t' : Table}

/-- Whether the index is complete is told by the marker alone. -/
theorem Complete.congr (h : Complete t) (heq : t'.get? Key.marker = t.get? Key.marker) :
    Complete t' := by
  obtain ⟨height, bytes, hget, hdecode⟩ := h
  exact ⟨height, bytes, heq.trans hget, hdecode⟩

theorem Complete.insert_of_ne {key value : Bytes} (h : Complete t) (hne : key ≠ Key.marker) :
    Complete (t.insert key value) :=
  h.congr (by rw [Table.get?_insert, if_neg hne])

/-- The only marker that a write stages is a complete one, so any part of a write leaves a complete
marker complete, whichever of its puts have been made. -/
theorem Complete.insertAll {r : Repository} {height : Height} {txs : List Transaction}
    {entries : List Entry} (h : Complete t) (hentries : entries ⊆ r.stagedEntries height txs) :
    Complete (t.insertAll entries) := by
  refine Table.insertAll_induct (fun u e he hu => ?_) h
  rcases Repository.mem_stagedEntries_iff.1 (hentries he) with ⟨tx, -, rfl⟩ | rfl | rfl
  · exact hu.insert_of_ne (Key.tx_ne_marker _)
  · exact hu.insert_of_ne (Key.height_ne_marker _)
  · exact ⟨height, completeThrough_insert u height⟩

/-- What another handle has staged has no marker in it, so the marker stays what it was: the one
staged with this handle, or the committed one. -/
theorem complete_beside {s : Store} {staged : Table} (hstaged : staged.get? Key.marker = none)
    (h : s.Throughout Complete) : (s.beside staged).Throughout Complete where
  view := by
    refine h.view.congr ?_
    show (Table.overlay (s.committed.overlay staged) s.staged).get? Key.marker =
      (Table.overlay s.committed s.staged).get? Key.marker
    rw [Table.get?_overlay, Table.get?_overlay, Table.get?_overlay, hstaged, Option.none_or]
  committed := by
    refine h.committed.congr ?_
    show (s.committed.overlay staged).get? Key.marker = _
    rw [Table.get?_overlay, hstaged, Option.none_or]

end Backfill

/-- Commits of others leave the marker alone. -/
def Event.SparesMarker : Event → Prop
  | .foreign staged => staged.get? Key.marker = none
  | _ => True

/-- No event takes completeness away. A write of another height replaces the marker by another
complete one, and opening would replace it only if it were not complete. -/
theorem Event.keeps_complete {event : Event} (h : event.SparesMarker) :
    event.Keeps (fun _ => True) Backfill.Complete := by
  cases event with
  | write height txs => exact fun r _ _ k t ht => ht.insertAll (List.take_subset k _)
  | foreign staged => exact fun s hs => Backfill.complete_beside h hs
  | opening codec config lastAccepted => exact fun _ => trivial
  | commit | abort | crash => trivial

namespace Repository

variable {codec : Codec} {config : Config} {lastAccepted : Height}

/-- On the store, the height reached is known and opening is over at once: either takes one look at
the marker, which is the only call that is made and could fail, and leaves the store as it is. -/
structure Settled (s : Store) (height : Height) : Prop where
  indexHeight : ∀ faults calls, faults.store .get (calls.store .get) = none →
    Repository.indexHeight faults ⟨s, calls⟩ = .ok (some height) ⟨s, calls.addStore .get⟩
  openStore : ∀ codec config lastAccepted faults calls,
    faults.store .get (calls.store .get) = none →
      Repository.openStore codec config lastAccepted faults ⟨s, calls⟩ =
        .ok { codec, config, lastBackfill := { state := .done height } } ⟨s, calls.addStore .get⟩

/-- A complete marker is all that is needed: both of them read it, and are done. -/
theorem settled_of_completeThrough {s : Store} {height : Height}
    (h : Backfill.CompleteThrough s.view height) : Settled s height where
  indexHeight _ _ hread := indexHeight_of_complete h hread
  openStore _ _ _ _ _ hread := openStore_of_complete h hread

/-- An opening that has succeeded has found a complete marker, or has written one as its last step.
In both cases it is committed, and nothing that is staged hides it. -/
theorem complete_of_openStore {faults : Faults} {b b' : Backend} {r : Repository}
    (hstaged : b.store.staged = .empty)
    (hopen : openStore codec config lastAccepted faults b = .ok r b') :
    b'.store.Throughout Backfill.Complete := by
  obtain ⟨report, hrun, -⟩ := openStore_eq_ok_iff.1 hopen
  rcases Backfill.run_eq_ok hrun with ⟨hcomplete, hstore⟩ | ⟨start, t, -, -, hempty, hcommitted⟩
  · -- The marker was complete, and nothing has been done.
    rw [Store.view_of_staged_empty hstaged] at hcomplete
    rw [hstore]
    exact .of_staged_empty hstaged hcomplete
  · -- The index has been built, and the last commit has marked it.
    refine .of_staged_empty hempty ⟨lastAccepted, ?_⟩
    rw [hcommitted]
    exact Backfill.completeThrough_insert t lastAccepted

/-- **After one successful opening there is nothing left to do.** A repository has been opened on a
handle with nothing staged. Whatever happens then, whichever calls fail, as long as no other handle
writes a marker: the handle is settled, and so is every handle on the same committed data that has
not staged a marker of its own. -/
theorem settled_of_run {faults faults' : Faults} {b b' : Backend} {r : Repository}
    {events : List Event} (hstaged : b.store.staged = .empty)
    (hopen : openStore codec config lastAccepted faults b = .ok r b')
    (hevents : ∀ event ∈ events, event.SparesMarker) :
    (∃ height, Settled (Service.run faults' events ⟨some r, b'⟩).store height) ∧
      ∃ height, ∀ s : Store,
        s.committed = (Service.run faults' events ⟨some r, b'⟩).store.committed →
          s.staged.get? Key.marker = none → Settled s height := by
  have hstart : (Service.mk (some r) b').Holds (fun _ => True) Backfill.Complete :=
    ⟨fun _ _ => trivial, complete_of_openStore hstaged hopen⟩
  have hend : (Service.run faults' events ⟨some r, b'⟩).Holds (fun _ => True) Backfill.Complete :=
    hstart.run (fun _ h => h) fun event hmem => Event.keeps_complete (hevents event hmem)
  obtain ⟨height, hview⟩ := hend.store.view
  obtain ⟨height', bytes, hget, hdecode⟩ := hend.store.committed
  refine ⟨⟨height, settled_of_completeThrough hview⟩, height', fun s hcommitted hnone => ?_⟩
  -- Another handle may have staged anything but a marker, so it reads the committed one.
  refine settled_of_completeThrough ⟨bytes, ?_, hdecode⟩
  rw [Store.get?_view, Store.get?, hnone, hcommitted, Option.none_or]
  exact hget

/-- The index is built in small steps. Later a put fails in the middle of a write, which is
committed all the same, another handle commits a batch, and after a crash the repository is opened
again. -/
theorem settled_of_run_across_failures :
    ∃ r b, openStore {} Sample.smallSteps 9 Faults.none ⟨Sample.store, {}⟩ = .ok r b ∧
      (∃ height, Settled (Service.run (Faults.none.limitStore .put 6 (.io "full"))
        [.write 6 [Sample.tx 3], .commit, .foreign (Table.empty.insert (Key.height 8) []), .crash,
          .opening {} {} 1] ⟨some r, b⟩).store height) ∧
      ∃ height, ∀ s : Store,
        s.committed = (Service.run (Faults.none.limitStore .put 6 (.io "full"))
          [.write 6 [Sample.tx 3], .commit, .foreign (Table.empty.insert (Key.height 8) []), .crash,
            .opening {} {} 1] ⟨some r, b⟩).store.committed →
          s.staged.get? Key.marker = none → Settled s height := by
  have hbuilt : (Access.committedOnOk? (openStore {} Sample.smallSteps 9 Faults.none
      ⟨Sample.store, {}⟩)).isSome = true := by
    decide +kernel
  obtain ⟨t, ht⟩ := Option.isSome_iff_exists.1 hbuilt
  obtain ⟨r, b, hopen, -⟩ := Access.exists_of_committedOnOk? ht
  -- The other handle commits a batch and no marker.
  have hforeign : (Table.empty.insert (Key.height 8) []).get? Key.marker = none := by
    decide +kernel
  refine ⟨r, b, hopen, settled_of_run rfl hopen ?_⟩
  simp [Event.SparesMarker, hforeign]

end Repository

end TxIndex

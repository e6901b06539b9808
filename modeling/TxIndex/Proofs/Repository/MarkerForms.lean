import TxIndex.Proofs.Backfill.MarkerForms
import TxIndex.Proofs.Repository.History

/-!
# A repository does not see the form of its marker

Whatever is done with a repository, its marker is read by opening it and by asking for its height,
and is overwritten as a whole. So two repositories on stores that differ in the form of the marker
alone answer everything alike (`Reading`), through any history of writes, commits, aborts, crashes,
openings and reads (`Service.Respelled.live`), and what a backfill commits is the same table in the
end (`OpensAlike.committed`).
-/

namespace TxIndex

open Access (Closed Respects Alike EndsAlike)

/-! ## Cursors -/

namespace Cursor

variable {c c' : Cursor} {faults : Faults} {b b' : Backend} {y : Yield}

theorem space_pop (c : Cursor) : c.pop.2.space = c.space := by
  unfold pop
  split <;> rfl

/-- A call leaves the cursor in its space. One that has begun in an index stays in it, and that is
what makes its next scan one of the index. -/
theorem space_of_next (h : c.next faults b = .ok (y, c') b') : c'.space = c.space := by
  unfold next at h
  split at h
  · obtain ⟨page?, b₁, -, h⟩ := Access.bind_eq_ok_iff.1 h
    cases page? with
    | ok page =>
      -- Neither what is fetched nor what is popped changes the space.
      have hpop : (c.fetched page).pop = (y, c') := (EStateM.Result.ok.inj h).1
      have hspace := (c.fetched page).space_pop
      rw [hpop] at hspace
      exact hspace
    | error cause =>
      cases h
      rfl
  · have hpop : c.pop = (y, c') := (EStateM.Result.ok.inj h).1
    have hspace := c.space_pop
    rw [hpop] at hspace
    exact hspace

/-- A call of a cursor of an index sees no marker: it makes a scan of the index, or none. A cursor
in the bookkeeping would see it, and a repository has none. -/
theorem respects_next (hspace : c.space ≠ .metadata) : Respects Store.Respelled c.next := by
  have hclosed : Closed fun _ => Respects Store.Respelled := Respects.closed
  refine Closed.ite (P := fun _ => Respects Store.Respelled) ?_ (hclosed.pure _)
  refine hclosed.bind (.attempt (Access.respects_scan hspace _ _)) fun page? => ?_
  cases page? with
  | ok page => exact hclosed.pure _
  | error cause => exact hclosed.pure _

/-- A cursor that is asked many times sees no marker, either: each call leaves it in its index. -/
theorem respects_take (hspace : c.space ≠ .metadata) (n : Nat) :
    Respects Store.Respelled (c.take n) := by
  have hclosed : Closed fun _ => Respects Store.Respelled := Respects.closed
  induction n generalizing c with
  | zero => exact hclosed.pure _
  | succ n ih =>
    -- The cursor behind an entry is one of the same space.
    refine hclosed.bind_of_value (respects_next hspace) fun faults b step b' hnext => ?_
    obtain ⟨y, c'⟩ := step
    have hspace' : c'.space ≠ .metadata := by
      rw [space_of_next hnext]
      exact hspace
    cases y with
    | entry e => exact hclosed.bind (ih hspace') fun taken => hclosed.pure _
    | failure cause => exact hclosed.pure _
    | exhausted => exact hclosed.pure _

/-- How often a cursor is asked until it is exhausted depends on how many keys the store has, and
respelled stores have as many. -/
theorem respects_drain (hspace : c.space ≠ .metadata) : Respects Store.Respelled c.drain := by
  intro faults b b' hb
  unfold drain
  rw [hb.store.view.size_eq]
  exact respects_take hspace _ faults b b' hb

end Cursor

/-! ## The operations -/

namespace Repository

theorem respects_openStore (codec : Codec) (config : Config) (lastAccepted : Height) :
    Respects Store.Respelled (openStore codec config lastAccepted) :=
  Respects.closed.bind (Backfill.respects_run codec config lastAccepted) fun _ =>
    Respects.closed.pure _

/-- A write puts, and what it puts does not depend on the store. It does not even read the marker
that it replaces. -/
theorem respects_write (r : Repository) (height : Height) (txs : List Transaction) :
    Respects Store.Respelled (r.write height txs) :=
  closed_write Respects.closed Access.respects_put r height txs

theorem respects_getByTxId (r : Repository) (id : TxId) :
    Respects Store.Respelled (r.getByTxId id) := by
  have hclosed : Closed fun _ => Respects Store.Respelled := Respects.closed
  refine hclosed.bind (Access.respects_get (Key.tx_ne_marker id)) fun stored? => ?_
  cases stored? with
  | none => exact hclosed.throw fun _ heq => nomatch heq
  | some stored => exact hclosed.bind (hclosed.readRecord _ _) fun _ => hclosed.pure _

theorem respects_getByHeight (r : Repository) (height : Height) :
    Respects Store.Respelled (r.getByHeight height) := by
  have hclosed : Closed fun _ => Respects Store.Respelled := Respects.closed
  refine hclosed.bind (Access.respects_readBatch _ _) fun batch? => ?_
  cases batch? with
  | none => exact hclosed.throw fun _ heq => nomatch heq
  | some txs => exact hclosed.pure _

theorem respects_indexHeight : Respects Store.Respelled indexHeight := by
  have hclosed : Closed fun _ => Respects Store.Respelled := Respects.closed
  refine hclosed.bind Access.respects_readMarker fun marker? => ?_
  match marker? with
  | none => exact hclosed.pure _
  | some (.complete height) => exact hclosed.pure _
  | some (.inProgress cursor) => exact hclosed.throw fun _ heq => nomatch heq

/-! ## Reads -/

/-- What a repository may be asked, with the type of what it gives. A cursor may be asked again and
again, and more than one of them at a time. -/
inductive Reading : Type → Type where
  | byTxId (id : TxId) : Reading (Transaction × Height)
  | byHeight (height : Height) : Reading (List Transaction)
  | indexHeight : Reading (Option Height)
  /-- The next entry of a cursor of one of the two indexes. -/
  | next (c : Cursor) (hspace : c.space ≠ .metadata) : Reading (Cursor.Yield × Cursor)
  | take (n : Nat) (c : Cursor) (hspace : c.space ≠ .metadata) :
      Reading (List Entry × Cursor.Ending × Cursor)
  | drain (c : Cursor) (hspace : c.space ≠ .metadata) :
      Reading (List Entry × Cursor.Ending × Cursor)

/-- The program that is run for it. -/
def Reading.program (r : Repository) : Reading α → Access α
  | byTxId id => r.getByTxId id
  | byHeight height => r.getByHeight height
  | indexHeight => Repository.indexHeight
  | next c _ => c.next
  | take n c _ => c.take n
  | drain c _ => c.drain

/-- **Nothing that can be asked tells the forms of the marker apart.** -/
theorem respects_reading (r : Repository) (reading : Reading α) :
    Respects Store.Respelled (reading.program r) := by
  cases reading with
  | byTxId id => exact respects_getByTxId r id
  | byHeight height => exact respects_getByHeight r height
  | indexHeight => exact respects_indexHeight
  | next c hspace => exact c.respects_next hspace
  | take n c hspace => exact c.respects_take hspace n
  | drain c hspace => exact c.respects_drain hspace

end Repository

/-! ## Histories with reads -/

/-- An event, or a read whose answer somebody takes. -/
inductive Happening where
  | event (event : Event)
  | read {α : Type} (reading : Repository.Reading α)

namespace Service

/-- What happens to a service. A read leaves nothing but the calls that it has made. -/
def pass (faults : Faults) (x : Service) : Happening → Service
  | .event event => x.step faults event
  | .read reading => x.call faults fun r => (fun _ => ()) <$> reading.program r

/-- Events and reads, one after the other. -/
def live (faults : Faults) (happenings : List Happening) (x : Service) : Service :=
  happenings.foldl (pass faults) x

/-- The same repository, on stores that differ in the form of the marker. -/
structure Respelled (x x' : Service) : Prop where
  repository : x.repository? = x'.repository?
  backend : Alike Store.Respelled x.backend x'.backend

namespace Respelled

variable {x x' : Service} {faults : Faults}

/-- A program that sees no difference between the stores leaves none. -/
theorem call {program : Repository → Access Unit} (h : x.Respelled x')
    (hprogram : ∀ r, Respects Store.Respelled (program r)) :
    (x.call faults program).Respelled (x'.call faults program) := by
  obtain ⟨repository?, b⟩ := x
  obtain ⟨repository'?, b'⟩ := x'
  obtain rfl : repository? = repository'? := h.repository
  cases repository? with
  | none => exact h
  | some r => exact ⟨rfl, (hprogram r).after h.backend⟩

/-- Two openings that end alike leave services that are alike. Where they fail, the handles are
lost, and the new ones are on respelled data. -/
theorem opened {result result' : Access.Result Repository}
    (h : EndsAlike Store.Respelled result result') : (opened result).Respelled (opened result') := by
  cases h with
  | ok hleft => exact ⟨rfl, hleft⟩
  | error hleft => exact ⟨rfl, hleft.store.reopen, hleft.calls⟩

/-- One event, case by case. What another handle commits is laid over both in the same way. -/
theorem step (h : x.Respelled x') (event : Event) :
    (x.step faults event).Respelled (x'.step faults event) := by
  cases event with
  | write height txs => exact h.call fun r => r.respects_write height txs
  | commit => exact h.call fun _ => Access.respects_commit
  | abort => exact h.call fun _ => Access.respects_abort
  | crash => exact ⟨rfl, h.backend.store.reopen, h.backend.calls⟩
  | opening codec config lastAccepted =>
    exact .opened (Repository.respects_openStore codec config lastAccepted faults _ _ h.backend)
  | foreign staged =>
    have hbeside : (x.store.beside staged).Respelled (x'.store.beside staged) :=
      ⟨h.backend.store.committed.overlay (.refl _), h.backend.store.staged, h.backend.store.commits⟩
    exact ⟨h.repository, hbeside, h.backend.calls⟩

/-- Any history, by induction on it. -/
theorem live (h : x.Respelled x') (faults : Faults) (happenings : List Happening) :
    (x.live faults happenings).Respelled (x'.live faults happenings) := by
  induction happenings generalizing x x' with
  | nil => exact h
  | cons happening happenings ih =>
    refine ih ?_
    cases happening with
    | event event => exact h.step event
    | read reading => exact h.call fun r => Respects.closed.map _ (r.respects_reading reading)

end Respelled

end Service

/-! ## Opening -/

namespace Repository

open Backfill

/-- Opening does the same on both stores, and so does all that happens behind it. -/
structure OpensAlike (codec : Codec) (config : Config) (lastAccepted : Height) (s s' : Store) :
    Prop where
  /-- The same repository with the same report, or the same error. -/
  opening : ∀ faults calls, EndsAlike Store.Respelled
    (openStore codec config lastAccepted faults ⟨s, calls⟩)
    (openStore codec config lastAccepted faults ⟨s', calls⟩)
  /-- What a backfill commits that comes to its end. -/
  committed : ∀ faults calls start r b, dueFrom s.view = some start →
    openStore codec config lastAccepted faults ⟨s, calls⟩ = .ok r b →
      ∃ b', openStore codec config lastAccepted faults ⟨s', calls⟩ = .ok r b' ∧
        b.store.committed = b'.store.committed
  /-- Every answer behind any history. -/
  later : ∀ faults calls faults' happenings,
    let x := Service.live faults' happenings
      (.opened (openStore codec config lastAccepted faults ⟨s, calls⟩))
    let x' := Service.live faults' happenings
      (.opened (openStore codec config lastAccepted faults ⟨s', calls⟩))
    x.repository? = x'.repository? ∧
      ∀ (r : Repository) (α : Type) (reading : Reading α), EndsAlike Store.Respelled
        (reading.program r faults' x.backend) (reading.program r faults' x'.backend)

variable {codec : Codec} {config : Config} {lastAccepted : Height} {s s' : Store} {start : Bytes}

/-- A backfill that comes to its end has written the marker anew. -/
theorem get?_marker_of_openStore {faults : Faults} {calls : Calls} {r : Repository} {b : Backend}
    (hdue : dueFrom s.view = some start)
    (hopen : openStore codec config lastAccepted faults ⟨s, calls⟩ = .ok r b) :
    b.store.committed.get? Key.marker = some (Marker.complete lastAccepted).encode := by
  obtain ⟨report, hrun, -⟩ := openStore_eq_ok_iff.1 hopen
  obtain ⟨t, -, -, hcommitted⟩ := exists_mergeAll_of_run hrun hdue
  rw [hcommitted, Table.get?_insert_self]

/-- **Opening respelled stores is one thing.** The first part is `respects_openStore` for this pair
of stores. For the second, the marker has been written anew on both, so the committed data differ in
nothing; the third is what comes after, on services that are alike. -/
theorem opensAlike_of_respelled (codec : Codec) (config : Config) (lastAccepted : Height)
    (h : s.Respelled s') : OpensAlike codec config lastAccepted s s' := by
  have hopening (faults : Faults) (calls : Calls) : EndsAlike Store.Respelled
      (openStore codec config lastAccepted faults ⟨s, calls⟩)
      (openStore codec config lastAccepted faults ⟨s', calls⟩) :=
    respects_openStore codec config lastAccepted faults _ _ ⟨h, rfl⟩
  refine ⟨hopening, fun faults calls start r b hdue hopen => ?_,
    fun faults calls faults' happenings => ?_⟩
  · -- The other store is due from the same place, and ends in the same way.
    have hdue' : dueFrom s'.view = some start := by
      rw [← h.view.dueFrom_eq]
      exact hdue
    have hends := hopening faults calls
    rw [hopen] at hends
    generalize hopen' : openStore codec config lastAccepted faults ⟨s', calls⟩ = result' at hends
    cases hends with
    | @ok _ _ b' hleft =>
      refine ⟨b', rfl, hleft.store.committed.eq_of_marker ?_⟩
      rw [get?_marker_of_openStore hdue hopen, get?_marker_of_openStore hdue' hopen']
  · have hlive := (Service.Respelled.opened (hopening faults calls)).live faults' happenings
    exact ⟨hlive.repository, fun r α reading => respects_reading r reading _ _ _ hlive.backend⟩

/-- **A marker has one meaning, and its forms are equivalent.** Bytes are read as a marker if and
only if they are what is written for it, with its tag or without; all others are refused as a
corrupted progress marker, for their length or for their tag. What is written is read back, and
bytes with a tag are written as they were read. On stores that differ in the form of the marker
alone, opening, whatever fails, does the same, and nothing that is asked afterwards has another
answer; a backfill leaves the same committed data. -/
theorem marker_forms_equivalent :
    (∀ bytes m, Marker.decode bytes = .ok m ↔ bytes = m.encode ∨ bytes = m.encode.tail) ∧
    (∀ bytes defect, Marker.decode bytes = .error defect ↔ Marker.Refused bytes defect) ∧
    (∀ bytes, (∀ m : Marker, bytes ≠ m.encode ∧ bytes ≠ m.encode.tail) →
      ∃ defect, Marker.Refused bytes defect ∧ ∀ faults b,
        b.store.view.get? Key.marker = some bytes → faults.store .get (b.calls.store .get) = none →
          ∃ b', Access.readMarker faults b = .error (.corruption defect) b') ∧
    (∀ m : Marker, Marker.decode m.encode = .ok m) ∧
    (∀ bytes m, Marker.decode bytes = .ok m → bytes.length = 9 ∨ bytes.length = 33 →
      m.encode = bytes) ∧
    ∀ (s s' : Store), s.Respelled s' →
      ∀ codec config lastAccepted, OpensAlike codec config lastAccepted s s' := by
  have hiff (bytes : Bytes) (m : Marker) :
      Marker.decode bytes = .ok m ↔ bytes = m.encode ∨ bytes = m.encode.tail :=
    Marker.decode_eq_ok_iff.trans Or.comm
  refine ⟨hiff, fun bytes defect => Marker.decode_eq_error_iff, fun bytes hother => ?_,
    Marker.decode_encode, fun bytes m => Marker.encode_of_decode, fun s s' h codec config lastAccepted =>
      opensAlike_of_respelled codec config lastAccepted h⟩
  -- Bytes that are neither of the two forms are refused, and a read that does not fail hands the
  -- refusal on.
  cases hdecode : Marker.decode bytes with
  | ok m =>
    rcases (hiff bytes m).1 hdecode with hencode | htail
    · exact absurd hencode (hother m).1
    · exact absurd htail (hother m).2
  | error defect =>
    refine ⟨defect, Marker.decode_eq_error_iff.1 hdecode, fun faults b hget hclear => ?_⟩
    rw [Access.readMarker_eq, Access.bind_apply, Access.callStore_of_clear hclear]
    rw [Store.get?_view] at hget
    rw [hget, Marker.found, hdecode]
    exact ⟨_, rfl⟩

/-- A position without its tag, and the same position with it. The backfill goes on from there, and
the data it commits are the same. -/
theorem marker_forms_equivalent_untagged_cursor :
    let m := Marker.inProgress (Sample.id 1)
    let s : Store := { committed := Sample.table.insert Key.marker m.body }
    let s' : Store := { committed := s.committed.insert Key.marker m.encode }
    m.body ≠ m.encode ∧ s.Respelled s' ∧
      ∃ r b b', openStore {} Sample.smallSteps 9 Faults.none ⟨s, {}⟩ = .ok r b ∧
        openStore {} Sample.smallSteps 9 Faults.none ⟨s', {}⟩ = .ok r b' ∧
        b.store.committed = b'.store.committed := by
  intro m s s'
  have hbody : Marker.decode m.body = .ok m := Marker.decode_eq_ok_iff.2 (.inl rfl)
  have hrespelled : s.Respelled s' :=
    .of_decode (Table.get?_insert_self ..) hbody (Marker.decode_encode m)
  -- The backfill on the untagged form is evaluated, and the other one follows.
  have hbuilt : (Access.committedOnOk?
      (openStore {} Sample.smallSteps 9 Faults.none ⟨s, {}⟩)).isSome = true := by
    decide +kernel
  obtain ⟨t, ht⟩ := Option.isSome_iff_exists.1 hbuilt
  obtain ⟨r, b, hopen, -⟩ := Access.exists_of_committedOnOk? ht
  have halike := marker_forms_equivalent.2.2.2.2.2 s s' hrespelled {} Sample.smallSteps 9
  have hdue : dueFrom s.view = some (Key.tx (Sample.id 1)) := by decide +kernel
  obtain ⟨b', hopen', hsame⟩ := halike.committed Faults.none {} _ r b hdue hopen
  exact ⟨by decide, hrespelled, r, b, b', hopen, hopen', hsame⟩

end Repository

end TxIndex

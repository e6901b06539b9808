import TxIndex.Proofs.Repository.Answers

/-!
# A repository is two indexes

A caller opens a repository, writes, commits, aborts, crashes and opens it again, in any order and
any number of times (`Operation`, `Session`). To this caller the store with its keys, encodings and
staged writes is no more than two indexes that are durable and two that it is working on (`Ledger`):
each operation does to them what its name says, and the answers at every moment are theirs
(`answers_of_run`).
-/

namespace TxIndex

/-- What a caller may do with a repository, where nothing fails but the codec in a write. -/
inductive Operation where
  /-- Writes the transactions of a height, while some calls of the codec fail. -/
  | write (height : Height) (txs : List Transaction)
      (failing : CodecCall → Nat → Option CodecError)
  | commit
  | abort
  /-- Loses the handle and opens a repository on a new one. -/
  | crash (config : Config) (lastAccepted : Height)
  /-- Takes the store out of the repository and opens another one on it. -/
  | handOver (config : Config) (lastAccepted : Height)

/-- The durable indexes, and those that the caller is working on. -/
structure Ledger where
  durable : Indexes
  working : Indexes

/-- What an operation does to the indexes. -/
def Ledger.step (m : Ledger) (succeeded : Bool) : Operation → Ledger
  | .write height txs _ =>
    if succeeded then { m with working := m.working.write height txs } else m
  | .commit => { m with durable := m.working }
  | .abort | .crash .. => { m with working := m.durable }
  | .handOver .. => m

/-- A repository with the store that it is on. -/
structure Session where
  repository : Repository
  store : Store

namespace Session

/-- The session after an opening, if that has succeeded. -/
def opened? : Access.Result Repository → Option Session
  | .ok r b => some ⟨r, b.store⟩
  | .error _ _ => none

/-- The session after a write, and whether that has succeeded. -/
def wrote (x : Session) : Access.Result Unit → Bool × Session
  | .ok _ b => (true, { x with store := b.store })
  | .error _ b => (false, { x with store := b.store })

/-- The session after a call of the store, if that has succeeded. -/
def called? (x : Session) : Access.Result Unit → Option Session
  | .ok _ b => some { x with store := b.store }
  | .error _ _ => none

/-- One operation: whether it has succeeded, and the session after it. A write may fail; any other
operation that fails ends the session. -/
def step (x : Session) : Operation → Option (Bool × Session)
  | .write height txs failing =>
    some (x.wrote (x.repository.write height txs { codec := failing } { store := x.store }))
  | .commit => (x.called? (Access.commit Faults.none { store := x.store })).map (true, ·)
  | .abort => (x.called? (Access.abort Faults.none { store := x.store })).map (true, ·)
  | .crash config lastAccepted =>
    (opened? (Repository.openStore x.repository.codec config lastAccepted Faults.none
      { store := x.store.reopen })).map (true, ·)
  | .handOver config lastAccepted =>
    (opened? (Repository.openStore x.repository.codec config lastAccepted Faults.none
      { store := x.store })).map (true, ·)

/-- Operations one after the other, and what they do to the indexes. -/
def run : List Operation → Session → Ledger → Option (Session × Ledger)
  | [], x, m => some (x, m)
  | op :: ops, x, m => do
    let (succeeded, x') ← x.step op
    run ops x' (m.step succeeded op)

/-- The session stands for the indexes: what is committed is durable, and what the handle reads is
worked on. -/
structure Refines (codec : Codec) (x : Session) (m : Ledger) : Prop where
  sameCodec : x.repository.codec = codec
  durable : Represents codec x.store.committed m.durable
  working : Represents codec x.store.view m.working

variable {codec : Codec} {x : Session} {m : Ledger}

/-! ## Writes -/

/-- Records staged one after the other are put under their ids one after the other. -/
theorem represents_records {r : Repository} {height : Height} {txs : List Transaction} {t : Table}
    {w : Indexes} (h : Represents r.codec t w)
    (hversion : r.config.codecVersion ∈ r.codec.supported)
    (hlen : ∀ tx ∈ txs, (r.payload tx).length < capacity 4) :
    Represents r.codec (t.insertAll (txs.map (r.recordEntry height)))
      (txs.foldl (fun w tx => w.putTx height tx) w) := by
  induction txs generalizing t w with
  | nil => exact h
  | cons tx txs ih =>
    have hread : readStored r.codec (r.recordEntry height tx).value = .ok (tx, height) :=
      Repository.readStored_recordEntry hversion (hlen tx List.mem_cons_self)
    exact ih (h.insert_tx hread) fun other hother => hlen other (List.mem_cons_of_mem _ hother)

/-- What a write stages does to the table what `Indexes.write` does to the indexes: records first,
then the batch, then the marker. The order matters where an id occurs twice in the list, for the
last one stays. -/
theorem represents_stagedEntries {r : Repository} {height : Height} {txs : List Transaction}
    {t : Table} {w : Indexes} (h : Represents r.codec t w) (haccepts : r.Accepts txs) :
    Represents r.codec (t.insertAll (r.stagedEntries height txs)) (w.write height txs) := by
  have hrecords : Represents r.codec (t.insertAll (txs.map (r.recordEntry height)))
      (txs.foldl (fun w tx => w.putTx height tx) w) :=
    represents_records h haccepts.version haccepts.payloads
  have hbatch : r.codec.unmarshal (r.batchEntry height txs).value = .ok txs :=
    Repository.unmarshal_batchEntry haccepts
  unfold Repository.stagedEntries
  rw [Table.insertAll_append]
  exact (hrecords.insert_height hbatch).insert_marker height

/-- A write that succeeds is one of the indexes, and one that fails changes nothing. Here the store
does not fail, so there is no third case. -/
theorem refines_write {height : Height} {txs : List Transaction}
    {failing : CodecCall → Nat → Option CodecError} (h : Refines codec x m) :
    ∃ succeeded x', x.step (.write height txs failing) = some (succeeded, x') ∧
      Refines codec x' (m.step succeeded (.write height txs failing)) := by
  refine ⟨_, _, rfl, ?_⟩
  -- Whichever calls fail, the write has staged all of its entries or none.
  cases hwrite : x.repository.write height txs { codec := failing } { store := x.store } with
  | ok _ b =>
    obtain ⟨haccepts, hstore⟩ := Repository.write_eq_ok hwrite
    refine ⟨h.sameCodec, ?_, ?_⟩
    · show Represents codec b.store.committed _
      rw [hstore, Store.committed_putAll]
      exact h.durable
    · show Represents codec b.store.view (m.working.write height txs)
      have hworking := h.working
      rw [← h.sameCodec] at hworking ⊢
      rw [hstore, Store.view_putAll]
      exact represents_stagedEntries hworking haccepts
  | error e b =>
    have hstore := Repository.store_of_write_error (fun _ => rfl) hwrite
    refine ⟨h.sameCodec, ?_, ?_⟩
    · show Represents codec b.store.committed _
      rw [hstore]
      exact h.durable
    · show Represents codec b.store.view _
      rw [hstore]
      exact h.working

/-! ## Opening again -/

/-- Opening again leaves the store as it is, and the marker tells what it reports. -/
theorem opened?_openStore {s : Store} {w : Indexes} (h : Represents codec s.view w)
    (config : Config) (lastAccepted : Height) :
    opened? (Repository.openStore codec config lastAccepted Faults.none { store := s }) =
      some ⟨{ codec, config, lastBackfill := { state := .done w.through } }, s⟩ := by
  obtain ⟨b, hopen, hstore⟩ := (runs_openStore_of_represents h config lastAccepted).eq_ending {}
  rw [hopen]
  show some (Session.mk _ b.store) = _
  rw [hstore]

/-! ## Any operation -/

/-- **One operation.** It succeeds, or it is a write and fails, and the session goes on standing for
the indexes to which the same has been done. A commit makes the working indexes durable, since it
makes the view the committed data; an abort and a crash go back to the durable ones. -/
theorem refines_step (h : Refines codec x m) (op : Operation) :
    ∃ succeeded x', x.step op = some (succeeded, x') ∧ Refines codec x' (m.step succeeded op) := by
  cases op with
  | write height txs failing => exact refines_write h
  | commit => exact ⟨true, _, rfl, h.sameCodec, h.working, h.working⟩
  | abort => exact ⟨true, _, rfl, h.sameCodec, h.durable, h.durable⟩
  | crash config lastAccepted =>
    -- The new handle has nothing staged, so it reads the durable indexes.
    have hopen := opened?_openStore (s := x.store.reopen) h.durable config lastAccepted
    rw [← h.sameCodec] at hopen
    exact ⟨true, _, congrArg (Option.map (true, ·)) hopen, h.sameCodec, h.durable, h.durable⟩
  | handOver config lastAccepted =>
    have hopen := opened?_openStore h.working config lastAccepted
    rw [← h.sameCodec] at hopen
    exact ⟨true, _, congrArg (Option.map (true, ·)) hopen, h.sameCodec, h.durable, h.working⟩

/-- **Any operations**, by induction on them: none of them can end the session. -/
theorem refines_run (ops : List Operation) (h : Refines codec x m) :
    ∃ x' m', run ops x m = some (x', m') ∧ Refines codec x' m' := by
  induction ops generalizing x m with
  | nil => exact ⟨x, m, rfl, h⟩
  | cons op ops ih =>
    obtain ⟨succeeded, x₁, hstep, hrefines⟩ := refines_step h op
    obtain ⟨x', m', hrun, h'⟩ := ih hrefines
    refine ⟨x', m', ?_, h'⟩
    unfold run
    rw [hstep]
    exact hrun

/-- **A repository is two indexes.** It has been opened with nothing staged on data that is
well-formed. Then what it reads are two indexes, and after any operations it still answers, as the
indexes do to which the same has been done. -/
theorem answers_of_run {config : Config} {lastAccepted : Height} {faults : Faults} {s : Store}
    {calls : Calls} {r : Repository} {b : Backend} (hstaged : s.staged = .empty)
    (hwell : WellFormed codec s.committed)
    (hopen : Repository.openStore codec config lastAccepted faults ⟨s, calls⟩ = .ok r b) :
    ∃ through, Represents codec b.store.committed (.ofTable codec b.store.committed through) ∧
      ∀ ops, ∃ x m, run ops ⟨r, b.store⟩
          ⟨.ofTable codec b.store.committed through, .ofTable codec b.store.committed through⟩ =
            some (x, m) ∧
        Answers x.repository x.store m.working ∧
        Represents codec x.store.committed m.durable := by
  obtain ⟨hempty, through, hrepresents⟩ := represents_of_openStore hstaged hwell hopen
  obtain ⟨report, -, hr⟩ := Repository.openStore_eq_ok_iff.1 hopen
  refine ⟨through, hrepresents, fun ops => ?_⟩
  -- Nothing is staged at first, so one pair of indexes is both the working and the durable one.
  have hview : b.store.view = b.store.committed := Store.view_of_staged_empty hempty
  have hstart : Refines codec ⟨r, b.store⟩ ⟨.ofTable codec b.store.committed through,
      .ofTable codec b.store.committed through⟩ := by
    rw [hr]
    exact ⟨rfl, hrepresents, hview ▸ hrepresents⟩
  obtain ⟨x, m, hrun, hrefines⟩ := refines_run ops hstart
  have hworking := hrefines.working
  rw [← hrefines.sameCodec] at hworking
  exact ⟨x, m, hrun, answers_of_represents hworking, hrefines.durable⟩

/-- The table of two records is well-formed, and opening it builds the index by height. -/
theorem answers_of_run_sample :
    ∃ r b through, Repository.openStore {} {} 9 Faults.none ⟨Sample.store, {}⟩ = .ok r b ∧
      Represents {} b.store.committed (.ofTable {} b.store.committed through) ∧
      ∀ ops, ∃ x m, run ops ⟨r, b.store⟩
          ⟨.ofTable {} b.store.committed through, .ofTable {} b.store.committed through⟩ =
            some (x, m) ∧
        Answers x.repository x.store m.working ∧
        Represents {} x.store.committed m.durable := by
  have hfirst : readStored {} (Sample.record 5 (Sample.tx 1)) = .ok (Sample.tx 1, 5) := by
    decide +kernel
  have hsecond : readStored {} (Sample.record 5 (Sample.tx 2)) = .ok (Sample.tx 2, 5) := by
    decide +kernel
  -- The table is well-formed, because it is the empty one with two records that can be read.
  have hempty : WellFormed {} Table.empty := fun _ _ hget => (nomatch hget)
  have hwell : WellFormed {} Sample.store.committed :=
    (hempty.insert (.tx hfirst)).insert (.tx hsecond)
  have hbuilt : Access.committedOnOk? (Repository.openStore {} {} 9 Faults.none
      ⟨Sample.store, {}⟩) = some ((Sample.table.insert (Key.height 5)
        (Sample.batch [Sample.tx 1, Sample.tx 2])).insert Key.marker
          (Marker.complete 9).encode) := by
    decide +kernel
  obtain ⟨r, b, hopen, -⟩ := Access.exists_of_committedOnOk? hbuilt
  obtain ⟨through, hanswers⟩ := answers_of_run rfl hwell hopen
  exact ⟨r, b, through, hopen, hanswers⟩

end Session

end TxIndex

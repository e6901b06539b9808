import TxIndex.Proofs.Cursor.Listing
import TxIndex.Proofs.Repository.Lookups
import TxIndex.Proofs.Repository.Write

/-!
# What a repository answers

On a store whose view represents two indexes, a repository answers every question as the indexes do:
look-ups, the height reached, the listings, and whether a write would be accepted (`Answers`).
-/

namespace TxIndex

variable {codec : Codec} {m : Indexes} {s : Store} {r : Repository}

/-- The entries are the index by id, in the order of the ids. -/
structure ListsIds (codec : Codec) (m : Indexes) (entries : List Entry) : Prop where
  ascending : entries.Pairwise Entry.Before
  sound : ∀ e ∈ entries, ∃ id found, e.key = id.val ∧ m.byId id = some found ∧
    readStored codec e.value = .ok found
  complete : ∀ id : TxId, m.byId id ≠ none → ∃ e ∈ entries, e.key = id.val

/-- The entries are the index by height from a start on, in the order of the heights. -/
structure ListsHeights (codec : Codec) (m : Indexes) (start : Bytes) (entries : List Entry) :
    Prop where
  ascending : entries.Pairwise Entry.Before
  sound : ∀ e ∈ entries, ∃ height txs, e.key = Height.pack height ∧ ¬ e.key < start ∧
    m.byHeight height = some txs ∧ codec.unmarshal e.value = .ok txs
  complete : ∀ height : Height, m.byHeight height ≠ none → ¬ height.pack < start →
    ∃ e ∈ entries, e.key = height.pack

/-- Without faults, the repository answers on the store as the indexes do, and its answers leave the
store. -/
structure Answers (r : Repository) (s : Store) (m : Indexes) : Prop where
  byId : ∀ id, Access.Runs (r.getByTxId id) s
    (match m.byId id with
      | some found => .ok found
      | none => .error (.txNotFound id)) s
  byHeight : ∀ height, Access.Runs (r.getByHeight height) s
    (match m.byHeight height with
      | some txs => .ok txs
      | none => .error (.heightNotFound height)) s
  through : Access.Runs Repository.indexHeight s (.ok (some m.through)) s
  ids : ∃ entries c, Access.Runs r.iterateByTxId.drain s (.ok (entries, .exhausted, c)) s ∧
    ListsIds r.codec m entries
  heights : ∀ start, ∃ entries c,
    Access.Runs (r.iterateByHeight start).drain s (.ok (entries, .exhausted, c)) s ∧
      ListsHeights r.codec m start entries
  writes : ∀ height txs, (∃ s', Access.Runs (r.write height txs) s (.ok ()) s') ↔ r.Accepts txs
  /-- Opening again does nothing, whatever the settings and the accepted height. -/
  opens : ∀ config lastAccepted, Access.Runs (Repository.openStore r.codec config lastAccepted) s
    (.ok { codec := r.codec, config, lastBackfill := { state := .done m.through } }) s

/-! ## Look-ups

A look-up is told by the codec and by what is stored under the one key. These are the look-ups under
any faults, where there are none. -/

namespace Repository

/-- The look-up of a transaction, without faults. A value is taken for what it is stored as, so the
answer is that of `readStored`. -/
theorem runs_getByTxId (r : Repository) (id : TxId) (s : Store) :
    Access.Runs (r.getByTxId id) s
      (lookedUp none (s.view.get? (Key.tx id)) (.txNotFound id) (readStored r.codec)) s :=
  .of_ending fun calls => r.getByTxId_eq_ending id Faults.none ⟨s, calls⟩

/-- The look-up of a height, without faults. It hands the value to the codec as it is. -/
theorem runs_getByHeight (r : Repository) (height : Height) (s : Store) :
    Access.Runs (r.getByHeight height) s
      (lookedUp none (s.view.get? (Key.height height)) (.heightNotFound height)
        (answerBatch r.codec.unmarshal)) s :=
  .of_ending fun calls => r.getByHeight_eq_ending height Faults.none ⟨s, calls⟩

end Repository

/-- Where the table represents two indexes, the look-up answers from the first one: a transaction is
stored just if the index has it, and what is stored is read as what the index has. -/
theorem runs_getByTxId_of_represents (h : Represents r.codec s.view m) (id : TxId) :
    Access.Runs (r.getByTxId id) s
      (match m.byId id with
        | some found => .ok found
        | none => .error (.txNotFound id)) s := by
  have hruns := r.runs_getByTxId id s
  cases hid : m.byId id with
  | some found =>
    obtain ⟨value, hvalue, hread⟩ := h.byId_eq_some hid
    rw [hvalue, Repository.lookedUp_some, hread] at hruns
    exact hruns
  | none =>
    rw [h.byId_eq_none hid, Repository.lookedUp_none] at hruns
    exact hruns

/-- The look-up of a height answers as the index does. The two look-ups have nothing in common but
the form of their outcome, so there is nothing to share between the proofs. -/
theorem runs_getByHeight_of_represents (h : Represents r.codec s.view m) (height : Height) :
    Access.Runs (r.getByHeight height) s
      (match m.byHeight height with
        | some txs => .ok txs
        | none => .error (.heightNotFound height)) s := by
  have hruns := r.runs_getByHeight height s
  cases hheight : m.byHeight height with
  | some txs =>
    obtain ⟨value, hvalue, hread⟩ := h.byHeight_eq_some hheight
    rw [hvalue, Repository.lookedUp_some, Repository.answerBatch, hread] at hruns
    exact hruns
  | none =>
    rw [h.byHeight_eq_none hheight, Repository.lookedUp_none] at hruns
    exact hruns

/-- The height that is told is the one the marker tells, for no cursor is in a complete marker. It
is told from what the handle reads, and so from a marker that is only staged as well. -/
theorem runs_indexHeight (h : Represents codec s.view m) :
    Access.Runs Repository.indexHeight s (.ok (some m.through)) s := by
  obtain ⟨bytes, hget, hdecode⟩ := h.through
  exact .bind (Backfill.runs_readMarker_some hget hdecode) (.pure _ s)

/-- The marker of a represented table is complete, so opening has nothing to do. This is why an
answer about opening can be given at all without knowing the store. -/
theorem runs_openStore_of_represents (h : Represents codec s.view m) (config : Config)
    (lastAccepted : Height) :
    Access.Runs (Repository.openStore codec config lastAccepted) s
      (.ok { codec, config, lastBackfill := { state := .done m.through } }) s :=
  Repository.runs_openStore (Backfill.runs_run_of_complete codec config lastAccepted h.through)

/-! ## Listings -/

/-- The listing of the records is that of the first index. Every listed key is that of an id, since
the table is well-formed; without this a cursor could give entries that no look-up would find. -/
theorem listsIds_suffixes {t : Table} (h : Represents codec t m) :
    ListsIds codec m (Space.txById.suffixes [] t) := by
  refine ⟨Space.ascending_suffixes .., fun e he => ?_, fun id hsome => ?_⟩
  · -- What is listed is stored, and what is stored under the tag is a record.
    obtain ⟨hget, -⟩ := Space.mem_suffixes_iff.1 he
    obtain ⟨id, -, hkey, -⟩ := (h.wellFormed _ _ hget).record (List.prefix_append ..)
    have hsuffix : e.key = id.val := Space.key_inj.1 hkey
    rw [hkey] at hget
    obtain ⟨found, hfound, hread⟩ := h.byId_of_get? hget
    exact ⟨id, found, hsuffix, hfound, hread⟩
  · -- What the index has is stored, and no id is before the empty suffix.
    obtain ⟨found, hfound⟩ := Option.ne_none_iff_exists'.1 hsome
    obtain ⟨value, hget, -⟩ := h.byId_eq_some hfound
    refine ⟨⟨id.val, value⟩, Space.mem_suffixes_iff.2 ⟨hget, ?_⟩, rfl⟩
    exact List.not_lt_nil _

/-- The listing of the batches is that of the second one, from any start on. The start need not be
the packed form of a height. -/
theorem listsHeights_suffixes {t : Table} (h : Represents codec t m) (start : Bytes) :
    ListsHeights codec m start (Space.txsByHeight.suffixes start t) := by
  refine ⟨Space.ascending_suffixes .., fun e he => ?_, fun height hsome hstart => ?_⟩
  · obtain ⟨hget, hstart⟩ := Space.mem_suffixes_iff.1 he
    obtain ⟨height, -, hkey, -⟩ := (h.wellFormed _ _ hget).batch (List.prefix_append ..)
    have hsuffix : e.key = height.pack := Space.key_inj.1 hkey
    rw [hkey] at hget
    obtain ⟨txs, hfound, hread⟩ := h.byHeight_of_get? hget
    exact ⟨height, txs, hsuffix, hstart, hfound, hread⟩
  · obtain ⟨txs, hfound⟩ := Option.ne_none_iff_exists'.1 hsome
    obtain ⟨value, hget, -⟩ := h.byHeight_eq_some hfound
    exact ⟨⟨height.pack, value⟩, Space.mem_suffixes_iff.2 ⟨hget, hstart⟩, rfl⟩

/-- **A store that represents two indexes answers as they do.** One part for each question; the
listings are those that a cursor drains, and the last two do not look at what is stored at all. -/
theorem answers_of_represents (h : Represents r.codec s.view m) : Answers r s m where
  byId := runs_getByTxId_of_represents h
  byHeight := runs_getByHeight_of_represents h
  through := runs_indexHeight h
  ids := by
    obtain ⟨c, hdrain⟩ := Cursor.runs_drain r.iterateByTxId s
    unfold Repository.iterateByTxId at hdrain ⊢
    rw [Cursor.pending_start] at hdrain
    exact ⟨_, c, hdrain, listsIds_suffixes h⟩
  heights start := by
    obtain ⟨c, hdrain⟩ := Cursor.runs_drain (r.iterateByHeight start) s
    unfold Repository.iterateByHeight at hdrain ⊢
    rw [Cursor.pending_start] at hdrain
    exact ⟨_, c, hdrain, listsHeights_suffixes h start⟩
  writes height txs := by
    -- A write that succeeds on one handle has been accepted, and being accepted names no store.
    refine ⟨fun hruns => ?_, fun haccepts => ⟨_, Repository.runs_write_ok height s haccepts⟩⟩
    obtain ⟨s', hruns⟩ := hruns
    obtain ⟨b, hwrite, -⟩ := hruns.eq_ending {}
    exact (Repository.write_eq_ok hwrite).1
  opens config lastAccepted := runs_openStore_of_represents h config lastAccepted

end TxIndex

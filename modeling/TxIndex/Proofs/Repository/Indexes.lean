import TxIndex.Proofs.Backfill.Opening
import TxIndex.Repository

/-!
# The indexes that a table represents

To a caller the repository is two indexes and a height: from ids to transactions, from heights to
lists of transactions, and how far the second one reaches (`Indexes`). `Represents` ties them to the
table that holds all three in one space of bytes. The three kinds of keys do not meet, so an
insertion under one of them is an update of that part alone.
-/

namespace TxIndex

/-- Two indexes of transactions and the height through which they are complete. -/
structure Indexes where
  byId : TxId → Option (Transaction × Height)
  byHeight : Height → Option (List Transaction)
  through : Height

/-- The transaction and the height that a stored record tells. -/
def readStored (codec : Codec) (bytes : Bytes) : Except Error (Transaction × Height) := do
  let record ← (Record.decode bytes).mapError .corruption
  let tx ← (codec.unmarshal record.payload).mapError fun cause => .corruption (.transaction cause)
  return (tx, record.height)

/-- A key of an index has the form that its space demands, and what is stored there can be read. -/
structure WellFormedAt (codec : Codec) (key value : Bytes) : Prop where
  record : Space.txById.tag <+: key →
    ∃ id found, key = Key.tx id ∧ readStored codec value = .ok found
  batch : Space.txsByHeight.tag <+: key →
    ∃ height txs, key = Key.height height ∧ codec.unmarshal value = .ok (txs : List Transaction)

/-- All entries of both indexes are well-formed; other keys may hold anything. -/
def WellFormed (codec : Codec) (t : Table) : Prop :=
  ∀ key value, t.get? key = some value → WellFormedAt codec key value

/-- The table represents the indexes: all that is stored can be read, and read it is what they have.
Both equations say that there is a value just where there is one in the index. -/
structure Represents (codec : Codec) (t : Table) (m : Indexes) : Prop where
  wellFormed : WellFormed codec t
  byId : ∀ id, (t.get? (Key.tx id)).map (readStored codec) = (m.byId id).map .ok
  byHeight : ∀ height, (t.get? (Key.height height)).map codec.unmarshal =
    (m.byHeight height).map .ok
  through : Backfill.CompleteThrough t m.through

variable {codec : Codec} {t : Table} {m : Indexes}

/-! ## Stored records -/

/-- What a stored record tells: it is the stored form of a record whose payload is the
transaction. -/
theorem readStored_eq_ok_iff {bytes : Bytes} {tx : Transaction} {height : Height} :
    readStored codec bytes = .ok (tx, height) ↔
      ∃ record, Record.decode bytes = .ok record ∧ codec.unmarshal record.payload = .ok tx ∧
        record.height = height := by
  unfold readStored
  simp only [Except.bind_eq_ok_iff, Except.mapError_eq_ok_iff]
  refine ⟨fun h => ?_, fun h => ?_⟩
  · obtain ⟨record, hrecord, tx', htx, h⟩ := h
    cases h
    exact ⟨record, hrecord, htx, rfl⟩
  · obtain ⟨record, hrecord, htx, rfl⟩ := h
    exact ⟨record, hrecord, tx, htx, rfl⟩

/-! ## Which indexes a table represents -/

/-- All that can be read in a table. -/
def Indexes.ofTable (codec : Codec) (t : Table) (through : Height) : Indexes where
  byId id := (t.get? (Key.tx id)).bind fun value => (readStored codec value).toOption
  byHeight height := (t.get? (Key.height height)).bind fun value => (codec.unmarshal value).toOption
  through

/-- A well-formed table with a complete marker represents what can be read in it. Where something is
stored, well-formedness says that it can be read, so nothing is lost in the partial reading of
`ofTable`. -/
theorem represents_ofTable {through : Height} (hwell : WellFormed codec t)
    (hthrough : Backfill.CompleteThrough t through) :
    Represents codec t (.ofTable codec t through) := by
  refine ⟨hwell, fun id => ?_, fun height => ?_, hthrough⟩
  · show _ = ((t.get? (Key.tx id)).bind _).map _
    cases hget : t.get? (Key.tx id) with
    | none => rfl
    | some value =>
      obtain ⟨-, found, -, hread⟩ := (hwell _ _ hget).record (List.prefix_append ..)
      simp [hread, Except.toOption]
  · show _ = ((t.get? (Key.height height)).bind _).map _
    cases hget : t.get? (Key.height height) with
    | none => rfl
    | some value =>
      obtain ⟨-, txs, -, hread⟩ := (hwell _ _ hget).batch (List.prefix_append ..)
      simp [hread, Except.toOption]

/-- What the first index has is stored, and read as such. This lemma and the five that follow take
the two equations of `Represents` apart, in the directions in which they are used. -/
theorem Represents.byId_eq_some {id : TxId} {found : Transaction × Height}
    (h : Represents codec t m) (hfound : m.byId id = some found) :
    ∃ value, t.get? (Key.tx id) = some value ∧ readStored codec value = .ok found := by
  have hid := h.byId id
  rw [hfound] at hid
  exact Option.map_eq_some_iff.1 hid

theorem Represents.byId_eq_none {id : TxId} (h : Represents codec t m)
    (hnone : m.byId id = none) : t.get? (Key.tx id) = none := by
  have hid := h.byId id
  rw [hnone] at hid
  exact Option.map_eq_none_iff.1 hid

theorem Represents.byHeight_eq_some {height : Height} {txs : List Transaction}
    (h : Represents codec t m) (hfound : m.byHeight height = some txs) :
    ∃ value, t.get? (Key.height height) = some value ∧ codec.unmarshal value = .ok txs := by
  have hheight := h.byHeight height
  rw [hfound] at hheight
  exact Option.map_eq_some_iff.1 hheight

theorem Represents.byHeight_eq_none {height : Height} (h : Represents codec t m)
    (hnone : m.byHeight height = none) : t.get? (Key.height height) = none := by
  have hheight := h.byHeight height
  rw [hnone] at hheight
  exact Option.map_eq_none_iff.1 hheight

theorem Represents.byId_of_get? {id : TxId} {value : Bytes} (h : Represents codec t m)
    (hget : t.get? (Key.tx id) = some value) :
    ∃ found, m.byId id = some found ∧ readStored codec value = .ok found := by
  have hid := h.byId id
  rw [hget] at hid
  obtain ⟨found, hfound, hread⟩ := Option.map_eq_some_iff.1 hid.symm
  exact ⟨found, hfound, hread.symm⟩

theorem Represents.byHeight_of_get? {height : Height} {value : Bytes} (h : Represents codec t m)
    (hget : t.get? (Key.height height) = some value) :
    ∃ txs, m.byHeight height = some txs ∧ codec.unmarshal value = .ok txs := by
  have hheight := h.byHeight height
  rw [hget] at hheight
  obtain ⟨txs, hfound, hread⟩ := Option.map_eq_some_iff.1 hheight.symm
  exact ⟨txs, hfound, hread.symm⟩

/-! ## One insertion -/

theorem WellFormedAt.tx {id : TxId} {value : Bytes} {found : Transaction × Height}
    (hread : readStored codec value = .ok found) : WellFormedAt codec (Key.tx id) value :=
  ⟨fun _ => ⟨id, found, rfl, hread⟩, fun h => (nomatch Space.tag_prefix_key_iff.1 h)⟩

theorem WellFormedAt.height {height : Height} {value : Bytes} {txs : List Transaction}
    (hread : codec.unmarshal value = .ok txs) : WellFormedAt codec (Key.height height) value :=
  ⟨fun h => (nomatch Space.tag_prefix_key_iff.1 h), fun _ => ⟨height, txs, rfl, hread⟩⟩

/-- The key of the marker is in neither index, so anything may be stored there. -/
theorem WellFormedAt.marker (codec : Codec) (value : Bytes) :
    WellFormedAt codec Key.marker value :=
  ⟨fun h => (nomatch Space.tag_prefix_key_iff.1 h),
    fun h => (nomatch Space.tag_prefix_key_iff.1 h)⟩

theorem WellFormed.insert {key value : Bytes} (h : WellFormed codec t)
    (hnew : WellFormedAt codec key value) : WellFormed codec (t.insert key value) := by
  intro other found hget
  rw [Table.get?_insert] at hget
  split at hget
  · next heq =>
    cases hget
    exact heq ▸ hnew
  · exact h other found hget

namespace Indexes

/-- Puts a transaction under its id. -/
def putTx (m : Indexes) (height : Height) (tx : Transaction) : Indexes :=
  { m with byId := fun id => if id = tx.id then some (tx, height) else m.byId id }

/-- Puts a list of transactions under a height. -/
def putBatch (m : Indexes) (height : Height) (txs : List Transaction) : Indexes :=
  { m with byHeight := fun other => if other = height then some txs else m.byHeight other }

/-- What a caller writes at a height: each of the transactions under its id, so that the last one of
an id stays, the list of them under the height, and the height as the one reached. -/
def write (m : Indexes) (height : Height) (txs : List Transaction) : Indexes :=
  { (txs.foldl (fun m tx => m.putTx height tx) m).putBatch height txs with through := height }

theorem byId_putTx (m : Indexes) (height : Height) (tx : Transaction) (id : TxId) :
    (m.putTx height tx).byId id = if id = tx.id then some (tx, height) else m.byId id := rfl

theorem byHeight_putBatch (m : Indexes) (height : Height) (txs : List Transaction)
    (other : Height) :
    (m.putBatch height txs).byHeight other =
      if other = height then some txs else m.byHeight other := rfl

end Indexes

/-- **A record that is stored is put into the first index.** The keys of the others are different
ones, so the other index and the height reached stay. -/
theorem Represents.insert_tx {value : Bytes} {tx : Transaction} {height : Height}
    (h : Represents codec t m) (hread : readStored codec value = .ok (tx, height)) :
    Represents codec (t.insert (Key.tx tx.id) value) (m.putTx height tx) := by
  refine ⟨h.wellFormed.insert (.tx hread), fun id => ?_, fun other => ?_, ?_⟩
  · rw [Table.get?_insert, Indexes.byId_putTx]
    by_cases hid : id = tx.id
    · subst hid
      rw [if_pos rfl, if_pos rfl, Option.map_some, Option.map_some, hread]
    · -- Other ids have other keys.
      have hkey : Key.tx tx.id ≠ Key.tx id := fun heq => hid (Key.tx_inj.1 heq).symm
      rw [if_neg hkey, if_neg hid]
      exact h.byId id
  · rw [Table.get?_insert, if_neg (Key.tx_ne_height _ other)]
    exact h.byHeight other
  · obtain ⟨bytes, hget, hdecode⟩ := h.through
    refine ⟨bytes, ?_, hdecode⟩
    rw [Table.get?_insert, if_neg (Key.tx_ne_marker _)]
    exact hget

/-- **A batch that is stored is put into the second index**, and the rest stays. -/
theorem Represents.insert_height {value : Bytes} {height : Height} {txs : List Transaction}
    (h : Represents codec t m) (hread : codec.unmarshal value = .ok txs) :
    Represents codec (t.insert (Key.height height) value) (m.putBatch height txs) := by
  refine ⟨h.wellFormed.insert (.height hread), fun id => ?_, fun other => ?_, ?_⟩
  · rw [Table.get?_insert, if_neg (Key.tx_ne_height id height).symm]
    exact h.byId id
  · rw [Table.get?_insert, Indexes.byHeight_putBatch]
    by_cases hheight : other = height
    · subst hheight
      rw [if_pos rfl, if_pos rfl, Option.map_some, Option.map_some, hread]
    · have hkey : Key.height height ≠ Key.height other :=
        fun heq => hheight (Key.height_inj.1 heq).symm
      rw [if_neg hkey, if_neg hheight]
      exact h.byHeight other
  · obtain ⟨bytes, hget, hdecode⟩ := h.through
    refine ⟨bytes, ?_, hdecode⟩
    rw [Table.get?_insert, if_neg (Key.height_ne_marker _)]
    exact hget

/-- **A complete marker tells the height reached**, and both indexes stay. -/
theorem Represents.insert_marker (h : Represents codec t m) (height : Height) :
    Represents codec (t.insert Key.marker (Marker.complete height).encode)
      { m with through := height } := by
  refine ⟨h.wellFormed.insert (.marker codec _), fun id => ?_, fun other => ?_,
    Backfill.completeThrough_insert t height⟩
  · rw [Table.get?_insert, if_neg (Key.tx_ne_marker id).symm]
    exact h.byId id
  · rw [Table.get?_insert, if_neg (Key.height_ne_marker other).symm]
    exact h.byHeight other

/-! ## Opening

A merge writes batches that can be read back, so a well-formed table stays well-formed. -/

theorem WellFormed.mergeAll {version : UInt16} {entries : List Entry} {t' : Table}
    (h : WellFormed codec t) (hmerge : Backfill.mergeAll codec version t entries = .ok t') :
    WellFormed codec t' := by
  -- A step writes nothing, or one batch as the codec has just encoded it.
  refine Backfill.mergeAll_induct (P := WellFormed codec) ?_ h hmerge
  intro u e u' hu hone
  obtain ⟨item, batch?, -, hext, rfl⟩ := Backfill.mergeInto_eq_ok_iff.1 hone
  obtain ⟨batch, -, hcase⟩ := Backfill.extension_eq_ok_iff.1 hext
  split at hcase
  · subst hcase
    exact hu
  · obtain ⟨bytes, hbytes, rfl⟩ := hcase
    exact hu.insert (.height (Codec.unmarshal_of_marshal_batch hbytes))

/-- A repository that opens on well-formed data with nothing staged has nothing staged, and its data
represents what can be read in it. -/
theorem represents_of_openStore {config : Config} {lastAccepted : Height} {faults : Faults}
    {b b' : Backend} {r : Repository} (hstaged : b.store.staged = .empty)
    (hwell : WellFormed codec b.store.committed)
    (hopen : Repository.openStore codec config lastAccepted faults b = .ok r b') :
    b'.store.staged = .empty ∧ ∃ through,
      Represents codec b'.store.committed (.ofTable codec b'.store.committed through) := by
  have hview : b.store.view = b.store.committed := Store.view_of_staged_empty hstaged
  obtain ⟨report, hrun, -⟩ := Repository.openStore_eq_ok_iff.1 hopen
  -- The index was complete already, or it has been built now.
  rcases Backfill.run_eq_ok hrun with ⟨⟨height, hthrough⟩, hstore⟩ | hbuilt
  · rw [hview] at hthrough
    rw [hstore]
    exact ⟨hstaged, height, represents_ofTable hwell hthrough⟩
  · obtain ⟨start, t, -, hmerge, hempty, hcommitted⟩ := hbuilt
    rw [hview] at hmerge
    refine ⟨hempty, lastAccepted, ?_⟩
    rw [hcommitted]
    exact represents_ofTable ((hwell.mergeAll hmerge).insert (.marker codec _))
      (Backfill.completeThrough_insert t lastAccepted)

end TxIndex

import TxIndex.Proofs.Backfill.Tables

/-!
# What a merge of many records comes to

Merging records one after the other decodes and encodes a batch again and again. What it comes to
in the end is said here height by height, without any order of events: behind the transactions that
were at the height stand its `arrivals`, the transactions of the records that name it, in the order
of the records, without those whose id was there already and without the second of two of one id.

* `Merged` is this description of a table, and `merged_of_mergeAll` says that it holds.
* `exists_mergeAll`: nothing stands in the way of the merge but a batch that does not decode, a
  version that the codec does not know, and a batch with more transactions than a length can tell.
-/

namespace TxIndex

namespace Backfill

/-- The transactions that a batch lacks, of each id the first one. -/
def newcomers (batch txs : List Transaction) : List Transaction :=
  (txs.filter fun tx => !hasId batch tx.id).eraseDupsBy fun a b => a.id == b.id

/-- The transactions of the records that name a height. -/
def txsAt (items : List Item) (h : Height) : List Transaction :=
  (items.filter fun item => item.record.height == h).map Item.tx

/-- The transactions indexed at a height; none if there is no batch that can be read. -/
def batchOf (codec : Codec) (t : Table) (h : Height) : List Transaction :=
  (batchAt codec t h).toOption.getD []

/-- The transactions that a merge adds at a height. -/
def arrivals (codec : Codec) (t : Table) (items : List Item) (h : Height) : List Transaction :=
  newcomers (batchOf codec t h) (txsAt items h)

/-- `t'` is `t` with the records merged into the index by height. -/
structure Merged (codec : Codec) (version : UInt16) (t : Table) (items : List Item) (t' : Table) :
    Prop where
  /-- The batches that the records name can be read. -/
  readable : ∀ item ∈ items, ∃ batch, batchAt codec t item.record.height = .ok batch
  /-- Where transactions arrive, they stand behind those that were there. -/
  grown : ∀ h, arrivals codec t items h ≠ [] → ∃ bytes,
    codec.marshal version (batchOf codec t h ++ arrivals codec t items h) = .ok bytes ∧
      t'.get? (Key.height h) = some bytes
  /-- Where none arrive, the stored bytes are left as they are. -/
  kept : ∀ h, arrivals codec t items h = [] → t'.get? (Key.height h) = t.get? (Key.height h)
  /-- Nothing but batches is touched. -/
  frame : ∀ key, (∀ h, key ≠ Key.height h) → t'.get? key = t.get? key

variable {codec : Codec} {version : UInt16} {t t' : Table}

/-! ## Newcomers -/

theorem newcomers_cons_of_hasId {batch txs : List Transaction} {tx : Transaction}
    (h : hasId batch tx.id = true) : newcomers batch (tx :: txs) = newcomers batch txs := by
  unfold newcomers
  rw [List.filter_cons_of_neg (by simp [h])]

/-- One whose id is new comes first, and from then on its id is there already. This is how the merge
goes through the transactions, with the batch in its hands. -/
theorem newcomers_cons_of_not_hasId {batch txs : List Transaction} {tx : Transaction}
    (h : ¬ hasId batch tx.id = true) :
    newcomers batch (tx :: txs) = tx :: newcomers (batch ++ [tx]) txs := by
  unfold newcomers
  rw [List.filter_cons_of_pos (by simp [h]), List.eraseDupsBy_cons, List.filter_filter]
  congr 2
  refine List.filter_congr fun other _ => ?_
  rw [hasId_append, BEq.comm]
  cases hasId batch other.id <;> cases tx.id == other.id <;> rfl

/-- Where all ids are new and distinct, all transactions are newcomers. -/
theorem newcomers_eq_self {batch txs : List Transaction}
    (hnodup : (txs.map Transaction.id).Nodup) (hnew : ∀ tx ∈ txs, ¬ hasId batch tx.id = true) :
    newcomers batch txs = txs := by
  induction txs generalizing batch with
  | nil => rfl
  | cons tx txs ih =>
    rw [List.map_cons, List.nodup_cons] at hnodup
    rw [newcomers_cons_of_not_hasId (hnew tx List.mem_cons_self), ih hnodup.2]
    intro other hother hid
    rw [hasId_append, Bool.or_eq_true, beq_iff_eq] at hid
    rcases hid with hid | hid
    · exact hnew other (List.mem_cons_of_mem _ hother) hid
    · exact hnodup.1 (hid ▸ List.mem_map_of_mem hother)

/-! ## One record -/

theorem batchOf_eq {h : Height} {batch : List Transaction}
    (hbatch : batchAt codec t h = .ok batch) : batchOf codec t h = batch := by
  unfold batchOf
  rw [hbatch]
  rfl

theorem txsAt_cons_self {item : Item} {items : List Item} :
    txsAt (item :: items) item.record.height = item.tx :: txsAt items item.record.height := by
  simp [txsAt]

theorem txsAt_cons_of_ne {item : Item} {items : List Item} {h : Height}
    (hne : h ≠ item.record.height) : txsAt (item :: items) h = txsAt items h := by
  simp [txsAt, Ne.symm hne]

/-- A record leaves the batches of all other heights, and what is to arrive at them. -/
theorem batchOf_extend_of_ne {h h' : Height} {batch? : Option Bytes} (hne : h' ≠ h) :
    batchOf codec (extend t h batch?) h' = batchOf codec t h' := by
  unfold batchOf
  rw [batchAt_congr (get?_extend_of_ne fun heq => hne (Key.height_inj.1 heq))]

/-- A batch that can be read after a record has been merged could be read before: it is the old one,
or the old one has been read to write it. -/
theorem exists_batchAt_of_extend {h h' : Height} {tx : Transaction} {batch? : Option Bytes}
    (hext : extension codec version t h tx = .ok batch?)
    (hread : ∃ batch, batchAt codec (extend t h batch?) h' = .ok batch) :
    ∃ batch, batchAt codec t h' = .ok batch := by
  by_cases hh : h' = h
  · subst hh
    obtain ⟨batch, hbatch, -⟩ := extension_eq_ok_iff.1 hext
    exact ⟨batch, hbatch⟩
  · rw [batchAt_congr (get?_extend_of_ne fun heq => hh (Key.height_inj.1 heq))] at hread
    exact hread

/-- At every height, what is there and what is to arrive make the same batch before and after a
record has been merged. This is the invariant of a merge: what arrives is only moved from the one
side to the other. -/
theorem batchOf_append_arrivals_extend {item : Item} {batch? : Option Bytes}
    (hext : extension codec version t item.record.height item.tx = .ok batch?) (items : List Item)
    (h : Height) :
    batchOf codec (extend t item.record.height batch?) h ++
        arrivals codec (extend t item.record.height batch?) items h =
      batchOf codec t h ++ arrivals codec t (item :: items) h := by
  unfold arrivals
  by_cases hh : h = item.record.height
  · subst hh
    obtain ⟨batch, hbatch, hcase⟩ := extension_eq_ok_iff.1 hext
    rw [txsAt_cons_self, batchOf_eq hbatch]
    by_cases hid : hasId batch item.tx.id = true
    · -- A duplicate is neither there nor to arrive.
      rw [if_pos hid] at hcase
      subst hcase
      rw [newcomers_cons_of_hasId hid]
      show batchOf codec t _ ++ newcomers (batchOf codec t _) _ = _
      rw [batchOf_eq hbatch]
    · -- It is the first of its id, and stands behind what was there.
      rw [if_neg hid] at hcase
      obtain ⟨bytes, hbytes, rfl⟩ := hcase
      show batchOf codec (t.insert _ bytes) _ ++ newcomers (batchOf codec (t.insert _ bytes) _) _ = _
      rw [batchOf_eq (batchAt_insert_of_marshal hbytes), newcomers_cons_of_not_hasId hid,
        List.append_assoc, List.singleton_append]
  · rw [batchOf_extend_of_ne hh, txsAt_cons_of_ne hh]

/-- Where nothing arrives any more after a record, the record has written all there is to write: the
height has its bytes from before, or the record was the last to arrive and has stored the whole
batch. -/
theorem get?_extend_of_arrivals_eq_nil {item : Item} {items : List Item} {batch? : Option Bytes}
    (hext : extension codec version t item.record.height item.tx = .ok batch?) {h : Height}
    (hnone : arrivals codec (extend t item.record.height batch?) items h = []) :
    (arrivals codec t (item :: items) h = [] ∧
      (extend t item.record.height batch?).get? (Key.height h) = t.get? (Key.height h)) ∨
    ∃ bytes, codec.marshal version
        (batchOf codec t h ++ arrivals codec t (item :: items) h) = .ok bytes ∧
      (extend t item.record.height batch?).get? (Key.height h) = some bytes := by
  have hsum := batchOf_append_arrivals_extend hext items h
  rw [hnone, List.append_nil] at hsum
  by_cases hh : h = item.record.height
  · subst hh
    obtain ⟨batch, hbatch, hcase⟩ := extension_eq_ok_iff.1 hext
    by_cases hid : hasId batch item.tx.id = true
    · rw [if_pos hid] at hcase
      subst hcase
      -- A duplicate writes nothing, and nothing has arrived with it.
      exact .inl ⟨List.self_eq_append_right.1 hsum, rfl⟩
    · rw [if_neg hid] at hcase
      obtain ⟨bytes, hbytes, rfl⟩ := hcase
      -- The last one to arrive has been encoded with all that was there before.
      refine .inr ⟨bytes, ?_, Table.get?_insert_self ..⟩
      rw [← hsum]
      show codec.marshal version (batchOf codec (t.insert _ bytes) _) = .ok bytes
      rw [batchOf_eq (batchAt_insert_of_marshal hbytes)]
      exact hbytes
  · rw [batchOf_extend_of_ne hh] at hsum
    refine .inl ⟨List.self_eq_append_right.1 hsum, get?_extend_of_ne ?_⟩
    exact fun heq => hh (Key.height_inj.1 heq)

/-! ## Many records -/

/-- Records that have been merged are all of the form they should have, since each has been read
before anything was written for it. -/
theorem exists_items_of_mergeAll {entries : List Entry}
    (h : mergeAll codec version t entries = .ok t') :
    ∃ items, entries.mapM (readItem codec) = .ok items := by
  induction entries generalizing t with
  | nil => exact ⟨[], rfl⟩
  | cons e entries ih =>
    obtain ⟨t₁, hone, h⟩ := mergeAll_cons_eq_ok_iff.1 h
    obtain ⟨item, batch?, hitem, -, -⟩ := mergeInto_eq_ok_iff.1 hone
    obtain ⟨rest, hrest⟩ := ih h
    exact ⟨item :: rest, Except.mapM_cons_eq_ok_iff.2 ⟨item, rest, hitem, hrest, rfl⟩⟩

/-- **A merge adds what arrives.** The induction is on the records, from the first one on: after it,
the others are merged into the table that it has left, and the invariant puts the two together. -/
theorem merged_of_mergeAll {entries : List Entry} {items : List Item}
    (hitems : entries.mapM (readItem codec) = .ok items)
    (h : mergeAll codec version t entries = .ok t') : Merged codec version t items t' := by
  induction entries generalizing t items with
  | nil =>
    cases hitems
    cases h
    have hnone (h : Height) : arrivals codec t' [] h = [] := rfl
    exact ⟨fun _ hitem => absurd hitem List.not_mem_nil, fun h hne => absurd (hnone h) hne,
      fun _ _ => rfl, fun _ _ => rfl⟩
  | cons e entries ih =>
    obtain ⟨item, rest, hitem, hrest, rfl⟩ := Except.mapM_cons_eq_ok_iff.1 hitems
    have hframe : ∀ key, (∀ h, key ≠ Key.height h) → t'.get? key = t.get? key :=
      fun key hne => get?_mergeAll_of_ne h hne
    obtain ⟨t₁, hone, h⟩ := mergeAll_cons_eq_ok_iff.1 h
    obtain ⟨item', batch?, hitem', hext, rfl⟩ := mergeInto_eq_ok_iff.1 hone
    rw [hitem] at hitem'
    cases hitem'
    have hmerged := ih hrest h
    -- Either more is to arrive after this record, or the record has written the last of it.
    refine ⟨fun other hother => ?_, fun height hne => ?_, fun height hnil => ?_, hframe⟩
    · rcases List.mem_cons.1 hother with rfl | hother
      · obtain ⟨batch, hbatch, -⟩ := extension_eq_ok_iff.1 hext
        exact ⟨batch, hbatch⟩
      · exact exists_batchAt_of_extend hext (hmerged.readable other hother)
    · by_cases hmore : arrivals codec (extend t item.record.height batch?) rest height = []
      · rw [hmerged.kept height hmore]
        rcases get?_extend_of_arrivals_eq_nil hext hmore with ⟨hnil, -⟩ | hlast
        · exact absurd hnil hne
        · exact hlast
      · rw [← batchOf_append_arrivals_extend hext]
        exact hmerged.grown height hmore
    · have hsum := batchOf_append_arrivals_extend hext rest height
      rw [hnil, List.append_nil] at hsum
      by_cases hh : height = item.record.height
      · subst hh
        obtain ⟨batch, hbatch, hcase⟩ := extension_eq_ok_iff.1 hext
        by_cases hid : hasId batch item.tx.id = true
        · rw [if_pos hid] at hcase
          subst hcase
          exact hmerged.kept _ (List.append_right_eq_self.1 hsum)
        · -- A record that was appended has arrived.
          unfold arrivals at hnil
          rw [txsAt_cons_self, batchOf_eq hbatch, newcomers_cons_of_not_hasId hid] at hnil
          cases hnil
      · rw [batchOf_extend_of_ne hh] at hsum
        rw [hmerged.kept _ (List.append_right_eq_self.1 hsum)]
        exact get?_extend_of_ne fun heq => hh (Key.height_inj.1 heq)

/-- **When a merge succeeds.** If the records are of the form they should have, the batches they
name can be read, the version is known and no batch gets too long, then nothing can fail. -/
theorem exists_mergeAll {entries : List Entry} {items : List Item}
    (hitems : entries.mapM (readItem codec) = .ok items)
    (hbatches : ∀ item ∈ items, ∃ batch, batchAt codec t item.record.height = .ok batch)
    (hversion : version ∈ codec.supported)
    (hfits : ∀ h, (batchOf codec t h ++ arrivals codec t items h).length < capacity 8) :
    ∃ t', mergeAll codec version t entries = .ok t' := by
  induction entries generalizing t items with
  | nil => exact ⟨t, rfl⟩
  | cons e entries ih =>
    obtain ⟨item, rest, hitem, hrest, rfl⟩ := Except.mapM_cons_eq_ok_iff.1 hitems
    obtain ⟨batch, hbatch⟩ := hbatches item List.mem_cons_self
    -- The longer batch is a part of what the height will have in the end, so it fits.
    have hext : ∃ batch?, extension codec version t item.record.height item.tx = .ok batch? := by
      by_cases hid : hasId batch item.tx.id = true
      · exact ⟨none, extension_eq_ok_iff.2 ⟨batch, hbatch, by rw [if_pos hid]⟩⟩
      · have hlen : (batch ++ [item.tx]).length < capacity 8 := by
          have hfit := hfits item.record.height
          unfold arrivals at hfit
          rw [txsAt_cons_self, batchOf_eq hbatch, newcomers_cons_of_not_hasId hid] at hfit
          simp only [List.length_append, List.length_cons, List.length_nil] at hfit ⊢
          omega
        obtain ⟨bytes, hbytes⟩ := Codec.exists_marshal_batch hversion hlen
        refine ⟨some bytes, extension_eq_ok_iff.2 ⟨batch, hbatch, ?_⟩⟩
        rw [if_neg hid]
        exact ⟨bytes, hbytes, rfl⟩
    obtain ⟨batch?, hext⟩ := hext
    -- The batch that this record has written can be read, and the others are as they were.
    have hbatches' : ∀ other ∈ rest, ∃ batch',
        batchAt codec (extend t item.record.height batch?) other.record.height = .ok batch' := by
      intro other hother
      obtain ⟨batch', hbatch'⟩ := hbatches other (List.mem_cons_of_mem _ hother)
      by_cases hh : other.record.height = item.record.height
      · rw [hh] at hbatch' ⊢
        obtain ⟨_, -, hcase⟩ := extension_eq_ok_iff.1 hext
        split at hcase
        · subst hcase
          exact ⟨batch', hbatch'⟩
        · obtain ⟨bytes, hbytes, rfl⟩ := hcase
          exact ⟨_, batchAt_insert_of_marshal hbytes⟩
      · refine ⟨batch', ?_⟩
        rw [batchAt_congr (get?_extend_of_ne fun heq => hh (Key.height_inj.1 heq)), hbatch']
    -- What is at a height and what is to arrive there come to the same length as before.
    have hfits' : ∀ h, (batchOf codec (extend t item.record.height batch?) h ++
        arrivals codec (extend t item.record.height batch?) rest h).length < capacity 8 := by
      intro h
      rw [batchOf_append_arrivals_extend hext]
      exact hfits h
    obtain ⟨t', ht'⟩ := ih hrest hbatches' hfits'
    have hone := mergeInto_eq_ok_iff.2 ⟨item, batch?, hitem, hext, rfl⟩
    exact ⟨t', mergeAll_cons_eq_ok_iff.2 ⟨_, hone, ht'⟩⟩

end Backfill

end TxIndex

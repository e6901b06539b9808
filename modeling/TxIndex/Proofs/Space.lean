import TxIndex.Proofs.Bytes.BigEndian
import TxIndex.Space

/-!
# Distinct keys in order

A key tells its space and what it holds (`Space.key_eq_key_iff`), so the marker, the records and the
batches lie under distinct keys, and so do any two batches. The keys of a space stand in the order
of what follows the tag (`Space.key_lt_key_iff`), and those of batches in the order of the heights
(`Key.height_lt_height_iff`).
-/

namespace TxIndex

theorem Height.pack_inj {h h' : Height} : h.pack = h'.pack ↔ h = h' := by
  refine ⟨fun heq => ?_, fun heq => heq ▸ rfl⟩
  have hread : Height.unpack h.pack = .ok h := Height.unpack_eq_ok_iff.2 rfl
  rw [heq, Height.unpack_eq_ok_iff.2 rfl] at hread
  cases hread
  rfl

/-- Packed heights stand in the order of the heights, because the most significant digit is the
first. -/
theorem Height.pack_lt_pack_iff {h h' : Height} : h.pack < h'.pack ↔ h < h' := by
  unfold Height.pack
  rw [bigEndian_lt_bigEndian_iff (toNat_lt_capacity h) (toNat_lt_capacity h'),
    UInt64.lt_iff_toNat_lt]

theorem Space.key_inj {s : Space} {a b : Bytes} : s.key a = s.key b ↔ a = b :=
  List.append_right_inj s.tag

/-- No key lies in two spaces. All tags have two bytes and no two of them are the same, so none is
the beginning of another one. -/
theorem Space.tag_prefix_key_iff {s s' : Space} {suffix : Bytes} :
    s'.tag <+: s.key suffix ↔ s' = s := by
  refine ⟨fun h => ?_, fun h => ?_⟩
  · -- Both tags are the first two bytes of the key.
    have htag : s'.tag = s.tag := by
      have hlen : s'.tag.length = s.tag.length := by cases s <;> cases s' <;> rfl
      rw [List.prefix_iff_eq_take.1 h, hlen]
      exact List.take_left
    revert htag
    cases s <;> cases s' <;> decide
  · subst h
    exact List.prefix_append ..

/-- **A key tells its space and its suffix.** The tags have one length, so none of them begins
another. -/
theorem Space.key_eq_key_iff {s s' : Space} {a b : Bytes} :
    s.key a = s'.key b ↔ s = s' ∧ a = b := by
  constructor
  · intro heq
    have htag : s.tag <+: s'.key b := heq ▸ List.prefix_append ..
    have hspace : s = s' := tag_prefix_key_iff.1 htag
    subst hspace
    exact ⟨rfl, key_inj.1 heq⟩
  · rintro ⟨rfl, rfl⟩
    rfl

/-- In a space, the keys stand in the order of their suffixes. So a cursor that starts at a suffix
has the greater ones before it. -/
theorem Space.key_lt_key_iff {space : Space} {a b : Bytes} :
    space.key a < space.key b ↔ a < b := by
  unfold Space.key
  generalize space.tag = tag
  induction tag with
  | nil => rfl
  | cons c tag ih =>
    rw [List.cons_append, List.cons_append, List.cons_lt_cons_self]
    exact ih

/-- A key with the tag of one space is none of another. -/
theorem Space.key_ne_of_tagged {s s' : Space} {suffix key : Bytes} (hne : s' ≠ s)
    (h : s'.tag <+: key) : s.key suffix ≠ key :=
  fun heq => hne (Space.tag_prefix_key_iff.1 (heq ▸ h))

namespace Key

theorem height_inj {h h' : Height} : Key.height h = Key.height h' ↔ h = h' := by
  unfold Key.height
  rw [Space.key_inj, Height.pack_inj]

theorem tx_inj {id id' : TxId} : Key.tx id = Key.tx id' ↔ id = id' := by
  unfold Key.tx
  rw [Space.key_inj, Subtype.ext_iff]

/-- The keys of batches stand in the order of their heights, so a scan meets them in this order. -/
theorem height_lt_height_iff {h h' : Height} : Key.height h < Key.height h' ↔ h < h' := by
  unfold Key.height
  rw [Space.key_lt_key_iff, Height.pack_lt_pack_iff]

/-- The marker lies under a key of its own. The keys of batches, of records and of the marker differ
in their tags. -/
theorem height_ne_marker (h : Height) : Key.height h ≠ Key.marker :=
  fun heq => (nomatch (Space.key_eq_key_iff.1 heq).1)

theorem tx_ne_marker (id : TxId) : Key.tx id ≠ Key.marker :=
  fun heq => (nomatch (Space.key_eq_key_iff.1 heq).1)

theorem tx_ne_height (id : TxId) (h : Height) : Key.tx id ≠ Key.height h :=
  fun heq => (nomatch (Space.key_eq_key_iff.1 heq).1)

/-- The key of a record tells the id, and nothing else is read as one. -/
theorem txId_eq_ok_iff {key : Bytes} {id : TxId} : Key.txId key = .ok id ↔ key = Key.tx id := by
  unfold Key.txId Key.tx
  cases hstrip : (Space.txById.strip? key).bind (FixedBytes.ofBytes? 32) with
  | some id' =>
    obtain ⟨suffix, hsuffix, hfixed⟩ := Option.bind_eq_some_iff.1 hstrip
    rw [Space.strip?_eq_some_iff] at hsuffix
    rw [FixedBytes.ofBytes?_eq_some_iff] at hfixed
    subst hfixed hsuffix
    rw [Space.key_inj, ← Subtype.ext_iff]
    exact Except.ok.injEq id' id ▸ Iff.rfl
  | none =>
    refine ⟨fun h => ?_, fun h => ?_⟩
    · cases h
    · subst h
      rw [Space.strip?_eq_some_iff.2 rfl] at hstrip
      simp at hstrip

end Key

end TxIndex

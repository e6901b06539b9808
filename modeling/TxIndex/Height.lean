import TxIndex.Defect

/-!
# Heights

A height is a 64-bit number. It is packed as eight big-endian bytes, so that packed heights are
ordered as the heights are.
-/

namespace TxIndex

/-- The position of a block of transactions in the chain, and all that the second index is keyed
by. -/
abbrev Height := UInt64

namespace Height

/-- How many bytes a packed height takes. -/
def width : Nat := 8

/-- Eight bytes of a height, the most significant first, so that larger heights have larger keys. -/
def pack (h : Height) : Bytes :=
  bigEndian 8 h.toNat

/-- The height that eight bytes hold. -/
def ofFixed (bytes : FixedBytes 8) : Height :=
  UInt64.ofNat (ofBigEndian bytes.val)

/-- Reads a packed height; only eight bytes are one. -/
def unpack (bytes : Bytes) : Except Defect Height :=
  match FixedBytes.ofBytes? 8 bytes with
  | some fixed => .ok (ofFixed fixed)
  | none => .error (.heightWidth bytes.length)

@[simp] theorem length_pack (h : Height) : h.pack.length = 8 :=
  length_bigEndian 8 _

/-- A height is read back from its packed form. -/
theorem ofFixed_pack (h : Height) : ofFixed ⟨h.pack, h.length_pack⟩ = h := by
  simp [ofFixed, pack, ofBigEndian_bigEndian (toNat_lt_capacity h)]

/-- Any eight bytes are the packed form of the height they are read as. So a key of the index by
height holds a height just if its suffix has eight bytes. -/
theorem pack_ofFixed (bytes : FixedBytes 8) : (ofFixed bytes).pack = bytes.val := by
  have hlt := ofBigEndian_lt bytes.val
  have hwrite := bigEndian_ofBigEndian bytes.val
  rw [bytes.property] at hlt hwrite
  rw [pack, ofFixed, UInt64.toNat_ofNat', Nat.mod_eq_of_lt (show _ < 2 ^ 64 from hlt), hwrite]

/-- A height is read from its packed form alone. -/
theorem unpack_eq_ok_iff {bytes : Bytes} {h : Height} : unpack bytes = .ok h ↔ bytes = h.pack := by
  unfold unpack
  cases hfixed : FixedBytes.ofBytes? 8 bytes with
  | some fixed =>
    rw [FixedBytes.ofBytes?_eq_some_iff] at hfixed
    subst hfixed
    constructor
    · intro hok
      cases hok
      exact (pack_ofFixed fixed).symm
    · intro heq
      -- The eight bytes are those of `h`, and packing keeps heights apart.
      have hfixed : fixed = ⟨h.pack, h.length_pack⟩ := Subtype.ext heq
      simp only [hfixed, ofFixed_pack]
  | none =>
    rw [FixedBytes.ofBytes?_eq_none_iff] at hfixed
    constructor
    · intro hok
      cases hok
    · rintro rfl
      exact absurd h.length_pack hfixed

end Height

end TxIndex

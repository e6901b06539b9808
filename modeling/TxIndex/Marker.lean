import TxIndex.Height

/-!
# The progress marker

One stored value tells how far the index by height has been built: it is complete through a height,
or a backfill has merged every transaction up to and including a cursor.

A marker is written with a tag in front, `0x00` before a height and `0x01` before a cursor. The two
forms without a tag are read as well; the length tells them apart. Any other length, and a tag that
does not go with its length, is a defect.
-/

namespace TxIndex

/-- How far the index by height has been built. -/
inductive Marker where
  | complete (height : Height)
  /-- A backfill has merged the stored identifiers up to and including `cursor`. -/
  | inProgress (cursor : TxId)
  deriving DecidableEq

namespace Marker

/-- The byte in front of the stored form, which tells a height from a cursor. -/
def tag : Marker → UInt8
  | complete _ => 0x00
  | inProgress _ => 0x01

/-- What a marker holds, without the tag. -/
def body : Marker → Bytes
  | complete height => height.pack
  | inProgress cursor => cursor.val

/-- The stored form: the tag, then the body. -/
def encode (m : Marker) : Bytes :=
  m.tag :: m.body

/-- Reads a body by its length alone. -/
def ofBody? (bytes : Bytes) : Option Marker :=
  if h : bytes.length = 8 then some (complete (Height.ofFixed ⟨bytes, h⟩))
  else if h : bytes.length = 32 then some (inProgress ⟨bytes, h⟩)
  else none

/-- Reads a stored marker, tagged or not. -/
def decode (bytes : Bytes) : Except Defect Marker :=
  match ofBody? bytes with
  | some marker => .ok marker
  | none =>
    match bytes with
    | [] => .error (.markerLength [])
    | tag :: body =>
      match ofBody? body with
      | none => .error (.markerLength bytes)
      | some marker =>
        if marker.tag = tag then .ok marker else .error (.markerTag tag body.length)

/-! ## Laws -/

/-- A marker is read from its body by the body's length. The two lengths differ, so no body is read
as a marker of the other kind. -/
theorem ofBody?_eq_some_iff {bytes : Bytes} {m : Marker} :
    ofBody? bytes = some m ↔ bytes = m.body := by
  unfold ofBody?
  constructor
  · intro h
    split at h
    · next hlen =>
      cases h
      exact (Height.pack_ofFixed ⟨bytes, hlen⟩).symm
    · split at h
      · cases h
        rfl
      · cases h
  · rintro rfl
    cases m with
    | complete height =>
      have hlen : (body (complete height)).length = 8 := height.length_pack
      rw [dif_pos hlen]
      exact congrArg (some ∘ complete) height.ofFixed_pack
    | inProgress cursor =>
      have hlen : (body (inProgress cursor)).length = 32 := cursor.property
      -- Thirty-two bytes are not read as a height before they are read as an id.
      rw [dif_neg (by omega), dif_pos hlen]
      rfl

/-- A body has eight bytes or thirty-two; neither length is one more than the other, which is why a
tag in front can be told from a first byte of the body. -/
theorem length_body_eq (m : Marker) : m.body.length = 8 ∨ m.body.length = 32 := by
  cases m with
  | complete height => exact .inl height.length_pack
  | inProgress cursor => exact .inr cursor.property

/-- A marker that is written is read back: the tagged form has a length that no body has, so it is
never taken for one. -/
theorem decode_encode (m : Marker) : decode m.encode = .ok m := by
  -- With its tag a marker has nine or thirty-three bytes, and no body has as many.
  have hbody : ofBody? m.encode = none := by
    cases hread : ofBody? m.encode with
    | none => rfl
    | some other =>
      have hlen := congrArg List.length (ofBody?_eq_some_iff.1 hread)
      have hm := m.length_body_eq
      have hother := other.length_body_eq
      simp only [encode, List.length_cons] at hlen
      omega
  unfold decode
  rw [hbody]
  simp only [encode, ofBody?_eq_some_iff.2 rfl, if_true]

end Marker

end TxIndex

import TxIndex.Proofs.Codec.Exact
import TxIndex.Proofs.Record

/-!
# Values that have lost their end

A reader ignores what follows a value, so nothing but the format itself tells that a value has lost
its end. It does: a value is read from all of its bytes, whatever follows them, so what is read from
a beginning of it would be read from the whole as well, with bytes left over
(`Formatted.unmarshal_of_cut`). This covers a cut between two fields or two elements.

* `Codec.refusesCuts_transactions`, `Codec.refusesCuts_batches`: no encoded value is a beginning of
  another one, and its proper beginnings are refused.
* `Record.exists_decode_of_cut`: a record announces its length, so the payload is not looked at.
-/

namespace TxIndex

/-- A proper beginning of a byte string. -/
def Cut (short whole : Bytes) : Prop :=
  short <+: whole ∧ short ≠ whole

theorem Cut.exists_tail {short whole : Bytes} (h : Cut short whole) :
    ∃ tail, tail ≠ [] ∧ short ++ tail = whole := by
  obtain ⟨⟨tail, htail⟩, hne⟩ := h
  refine ⟨tail, fun hnil => ?_, htail⟩
  rw [hnil, List.append_nil] at htail
  exact hne htail

namespace Codec

variable {α : Type} [Readable α] [Writable α] {codec : Codec} {Fits : α → Prop}
  {format : α → Bytes} {v : UInt16} {value : α} {bytes short : Bytes}

/-- The beginnings of an encoded value, and how they are refused. -/
structure RefusesCuts (α : Type) [Readable α] [Writable α] (codec : Codec) : Prop where
  unmarshal_cut : ∀ (v : UInt16) (value : α) (bytes short : Bytes),
    codec.marshal v value = .ok bytes → Cut short bytes →
      (codec.unmarshal short : Except CodecError α) =
        .error (if short.length < 2 then .truncated short.length else .decode .unexpectedEnd)
  /-- An encoded value with which another one begins is that other one. -/
  prefixFree : ∀ (v v' : UInt16) (value value' : α) (bytes bytes' : Bytes),
    codec.marshal v value = .ok bytes → codec.marshal v' value' = .ok bytes' → bytes <+: bytes' →
      v = v' ∧ value = value' ∧ bytes = bytes'

/-- A body that has lost its end is not read as a body. A value that would be read from it would be
read from the whole body too, with bytes left over, and the whole body is one value with none left
over. -/
theorem Formatted.read_of_cut (h : Formatted Fits format) (hfits : Fits value)
    (hcut : Cut short (format value)) : (Readable.read : Reader α) short = none := by
  cases hread : (Readable.read : Reader α) short with
  | none => rfl
  | some pair =>
    exfalso
    obtain ⟨value', rest⟩ := pair
    obtain ⟨hfits', hshort⟩ := (h.read_iff short value' rest).1 hread
    obtain ⟨tail, htail, hwhole⟩ := hcut.exists_tail
    -- The whole body is read as the one value with bytes left over, and as the other with none.
    have hmore : (Readable.read : Reader α) (format value) = some (value', rest ++ tail) := by
      refine (h.read_iff _ _ _).2 ⟨hfits', ?_⟩
      rw [← hwhole, hshort, List.append_assoc]
    have hall : (Readable.read : Reader α) (format value) = some (value, []) :=
      (h.read_iff _ _ _).2 ⟨hfits, (List.append_nil _).symm⟩
    rw [hall] at hmore
    have hrest : [] = rest ++ tail := (Prod.mk.inj (Option.some.inj hmore)).2
    exact htail (List.append_eq_nil_iff.1 hrest.symm).2

/-- **How a value that has lost its end is refused.** With less than two bytes there is no version;
with more the version is read, and then the body ends too soon. -/
theorem Formatted.unmarshal_of_cut (h : Formatted Fits format)
    (hmarshal : codec.marshal v value = .ok bytes) (hcut : Cut short bytes) :
    (codec.unmarshal short : Except CodecError α) =
      .error (if short.length < 2 then .truncated short.length else .decode .unexpectedEnd) := by
  obtain ⟨hv, body, hbody, rfl⟩ := marshal_eq_ok_iff.1 hmarshal
  obtain ⟨hfits, rfl⟩ := (h.write_iff _ _).1 hbody
  by_cases hshort : short.length < 2
  · rw [if_pos hshort]
    exact unmarshal_of_short hshort
  · rw [if_neg hshort]
    -- The two bytes of the version are whole, so the body has lost its end.
    obtain ⟨v', body, rfl⟩ := exists_version hshort
    obtain ⟨tail, htail, hwhole⟩ := hcut.exists_tail
    rw [List.append_assoc] at hwhole
    obtain ⟨hversion, hbody⟩ := List.append_inj hwhole (by simp)
    rw [hversion]
    have hcutBody : Cut body (format value) := by
      refine ⟨⟨tail, hbody⟩, fun heq => htail ?_⟩
      rwa [← heq, List.append_right_eq_self] at hbody
    exact unmarshal_of_end hv (h.read_of_cut hfits hcutBody)

/-- No codec reads a value that has lost its end, even one that knows other versions. What another
one reads, this one would read too, since the version in front is one that it has written. -/
theorem Formatted.exists_unmarshal_of_cut (h : Formatted Fits format)
    (hmarshal : codec.marshal v value = .ok bytes) (hcut : Cut short bytes) (codec' : Codec) :
    ∃ cause, (codec'.unmarshal short : Except CodecError α) = .error cause := by
  have hrefused := h.unmarshal_of_cut hmarshal hcut
  cases hread : (codec'.unmarshal short : Except CodecError α) with
  | error cause => exact ⟨cause, rfl⟩
  | ok value' =>
    -- What another codec reads begins with a version. It is the version of the whole value, so the
    -- codec that has written the value would read the cut as well.
    obtain ⟨hv, body, -, rfl⟩ := marshal_eq_ok_iff.1 hmarshal
    obtain ⟨v', -, body', -, hshort, -⟩ := unmarshal_eq_ok_iff.1 hread
    have hlength : (bigEndian 2 v.toNat).length ≤ short.length := by
      rw [hshort, List.length_append, length_bigEndian, length_bigEndian]
      omega
    have hknows : codec.Knows short :=
      ⟨v, hv, List.prefix_of_prefix_length_le (List.prefix_append _ _) hcut.1 hlength⟩
    rw [unmarshal_of_knows hread hknows] at hrefused
    cases hrefused

/-- A format refuses cuts; and of two encoded values none begins the other, because that would be a
cut of it. -/
theorem Formatted.refusesCuts (h : Formatted Fits format) (codec : Codec) :
    RefusesCuts α codec where
  unmarshal_cut _ _ _ _ hmarshal hcut := h.unmarshal_of_cut hmarshal hcut
  prefixFree v v' value value' bytes bytes' hmarshal hmarshal' hbegins := by
    have hread := (h.exact codec).unmarshal_marshal v value bytes [] hmarshal
    have hread' := (h.exact codec).unmarshal_marshal v' value' bytes' [] hmarshal'
    rw [List.append_nil] at hread hread'
    -- Equal bytes are read as equal values; otherwise the one is a cut of the other.
    by_cases heq : bytes = bytes'
    · subst heq
      obtain ⟨-, body, -, rfl⟩ := marshal_eq_ok_iff.1 hmarshal
      obtain ⟨-, body', -, hbytes⟩ := marshal_eq_ok_iff.1 hmarshal'
      obtain ⟨hversion, -⟩ := List.append_inj hbytes (by simp)
      have hv : v = v' := by
        rw [← ofBigEndian_version v, hversion, ofBigEndian_version]
      exact ⟨hv, Except.ok.inj (hread.symm.trans hread'), rfl⟩
    · obtain ⟨cause, hrefused⟩ := h.exists_unmarshal_of_cut hmarshal' ⟨hbegins, heq⟩ codec
      rw [hread] at hrefused
      cases hrefused

theorem refusesCuts_transactions (codec : Codec) : RefusesCuts Transaction codec :=
  formatted_transactions.refusesCuts codec

/-- Batches refuse cuts, too, and among them those between two transactions: the number in front is
that of the whole list. -/
theorem refusesCuts_batches (codec : Codec) : RefusesCuts (List Transaction) codec :=
  formatted_batches.refusesCuts codec

end Codec

/-! ## Records -/

/-- A record that has lost its end is refused before its payload is looked at. The header tells how
many bytes follow, and fewer do; a cut in the header leaves less than a header. -/
theorem Record.exists_decode_of_cut {record : Record} {bytes short : Bytes}
    (h : record.encode = .ok bytes) (hcut : Cut short bytes) :
    ∃ defect, Record.decode short = .error defect := by
  cases hdecode : Record.decode short with
  | error defect => exact ⟨defect, rfl⟩
  | ok record' =>
    exfalso
    -- Both are a header and a payload of the length that the header tells.
    obtain ⟨hlt, rfl⟩ := Record.encode_eq_ok_iff.1 h
    obtain ⟨hlt', rfl⟩ := Record.encode_eq_ok_iff.1 (Record.encode_of_decode hdecode)
    obtain ⟨tail, htail, hwhole⟩ := hcut.exists_tail
    rw [List.append_assoc] at hwhole
    obtain ⟨hheader, hpayload⟩ := List.append_inj hwhole (by simp)
    obtain ⟨-, hlength⟩ := List.append_inj hheader (by simp)
    have hannounced := congrArg ofBigEndian hlength
    rw [ofBigEndian_bigEndian hlt', ofBigEndian_bigEndian hlt] at hannounced
    have hsame := congrArg List.length hpayload
    rw [List.length_append, hannounced] at hsame
    exact htail (List.eq_nil_of_length_eq_zero (by omega))

end TxIndex

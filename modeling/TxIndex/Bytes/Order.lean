import TxIndex.Bytes.Basic

/-!
# The order of byte strings

Byte strings are ordered lexicographically. The order is strict and total, and appending a byte
makes a string larger. A string `pre` stands before everything that begins with it.
-/

namespace TxIndex.Bytes

/-- The laws of a strict total order are those of core's order of lists, under the names that are
used of byte strings. -/
theorem lt_irrefl (a : Bytes) : ¬ a < a :=
  List.lt_irrefl a

theorem lt_trans {a b c : Bytes} (hab : a < b) (hbc : b < c) : a < c :=
  List.lt_trans hab hbc

theorem lt_asymm {a b : Bytes} (h : a < b) : ¬ b < a :=
  List.lt_asymm h

/-- The order is total: what is neither smaller nor larger is the same string. -/
theorem eq_of_not_lt {a b : Bytes} (hab : ¬ a < b) (hba : ¬ b < a) : a = b :=
  List.le_antisymm hba hab

theorem ne_of_lt {a b : Bytes} (h : a < b) : a ≠ b :=
  fun heq => lt_irrefl b (heq ▸ h)

/-- Nothing larger than a larger string is smaller. -/
theorem lt_of_not_lt_of_lt {a b c : Bytes} (hba : ¬ b < a) (hbc : b < c) : a < c :=
  List.lt_of_le_of_lt hba hbc

/-- What is smaller than a string is smaller than any that is not smaller. -/
theorem lt_of_lt_of_not_lt {a b c : Bytes} (hab : a < b) (hcb : ¬ c < b) : a < c :=
  Decidable.byContradiction fun h => hcb (lt_of_not_lt_of_lt h hab)

/-- Every string is smaller than one that goes on behind it. This makes the key behind an entry, its
key and a zero byte, a place where a scan can take up without meeting the entry again. -/
theorem lt_append_cons (a : Bytes) (b : UInt8) (bs : Bytes) : a < a ++ b :: bs := by
  induction a with
  | nil => exact List.nil_lt_cons b bs
  | cons c cs ih => exact List.cons_lt_cons_self.2 ih

/-- A beginning is not larger than the whole. -/
theorem not_lt_of_prefix {pre whole : Bytes} (h : pre <+: whole) : ¬ whole < pre := by
  obtain ⟨rest, rfl⟩ := h
  cases rest with
  | nil => rw [List.append_nil]; exact lt_irrefl pre
  | cons b bs => exact lt_asymm (lt_append_cons pre b bs)

end TxIndex.Bytes

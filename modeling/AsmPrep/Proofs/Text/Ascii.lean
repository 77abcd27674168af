/-
Names as strings.

A scanner sees bytes, and an argument on the command line is a string.  An ASCII character is one
byte, and any other character has a byte above 127 in it, which no name has.  So a string is
scanned as a name when its characters say so.
-/
import AsmPrep.Proofs.Text.Delimiter

namespace AsmPrep

open Byte

namespace Text

/-! ### The bytes of a string -/

theorem ofString_eq (s : String) : ofString s = s.toList.flatMap String.utf8EncodeChar := by
  unfold ofString
  rw [String.toUTF8_eq_toByteArray, ← String.utf8Encode_toList, List.utf8Encode,
    List.data_toByteArray]

/-- The byte of an ASCII character. -/
def byteOf (c : Char) : Byte := UInt8.ofNat c.toNat

abbrev IsAscii (c : Char) : Prop := c.toNat ≤ 127

theorem utf8EncodeChar_of_ascii {c : Char} (h : IsAscii c) :
    String.utf8EncodeChar c = [byteOf c] := by
  unfold String.utf8EncodeChar
  exact if_pos h

/-- Other characters have a byte above 127. -/
theorem exists_byte_of_not_ascii {c : Char} (h : ¬ IsAscii c) :
    ∃ b ∈ String.utf8EncodeChar c, 127 < b.toNat := by
  have hlead (n m : Nat) (hm : 128 ≤ m) (hn : n + m < 256) : 127 < (UInt8.ofNat (n + m)).toNat := by
    rw [UInt8.toNat_ofNat', Nat.mod_eq_of_lt hn]
    omega
  have hlarge : ¬ c.val.toNat ≤ 127 := h
  unfold String.utf8EncodeChar
  dsimp only
  rw [if_neg hlarge]
  split
  · exact ⟨_, List.mem_cons_self, hlead _ 192 (by omega) (by omega)⟩
  · split
    · exact ⟨_, List.mem_cons_self, hlead _ 224 (by omega) (by omega)⟩
    · exact ⟨_, List.mem_cons_self, hlead _ 240 (by omega) (by omega)⟩

/-- Strings of ASCII characters have a byte for each. -/
theorem ofString_of_ascii {s : String} (h : ∀ c ∈ s.toList, IsAscii c) :
    ofString s = s.toList.map byteOf := by
  rw [ofString_eq]
  generalize s.toList = l at h ⊢
  induction l with
  | nil => rfl
  | cons c l ih =>
    rw [List.forall_mem_cons] at h
    rw [List.flatMap_cons, utf8EncodeChar_of_ascii h.1, ih h.2]
    rfl

theorem ascii_of_bytes {s : String} (h : ∀ b ∈ ofString s, b.toNat ≤ 127) :
    ∀ c ∈ s.toList, IsAscii c := by
  intro c hc
  by_contra hascii
  obtain ⟨b, hb, hlt⟩ := exists_byte_of_not_ascii hascii
  rw [ofString_eq] at h
  exact absurd (h b (List.mem_flatMap.2 ⟨c, hc, hb⟩)) (Nat.not_le.2 hlt)

/-! ### Classes -/

/-- What holds of the first 128 characters holds of an ASCII character. -/
theorem forall_ascii {p : Char → Prop} (h : ∀ n < 128, p (Char.ofNat n)) {c : Char}
    (hc : IsAscii c) : p c := by
  have hp := h c.toNat (Nat.lt_succ_of_le hc)
  rwa [Char.ofNat_toNat] at hp

theorem isIdentStart_byteOf {c : Char} (h : IsAscii c) :
    isIdentStart (byteOf c) = (c.isAlpha || c == '_') :=
  forall_ascii (p := fun c => isIdentStart (byteOf c) = (c.isAlpha || c == '_')) (by decide) h

theorem isIdentChar_byteOf {c : Char} (h : IsAscii c) :
    isIdentChar (byteOf c) = (c.isAlphanum || c == '_') :=
  forall_ascii (p := fun c => isIdentChar (byteOf c) = (c.isAlphanum || c == '_')) (by decide) h

/-- The characters that may stand before an identifier. -/
def sigils : List Char := ['.', '#', '$', '%', '@']

theorem isSigil_byteOf {c : Char} (h : IsAscii c) : isSigil (byteOf c) = sigils.contains c :=
  forall_ascii (p := fun c => isSigil (byteOf c) = sigils.contains c) (by decide) h

theorem ascii_of_isAlphanum {c : Char} (h : (c.isAlphanum || c == '_') = true) : IsAscii c := by
  have hlast (last : UInt32) (hlast : last.toNat ≤ 127) (hc : c.val ≤ last) : IsAscii c :=
    Nat.le_trans (UInt32.le_iff_toNat_le.1 hc) hlast
  have hclasses : ((c.isUpper || c.isLower) || c.isDigit || c == '_') = true := h
  simp only [Bool.or_eq_true, beq_iff_eq] at hclasses
  rcases hclasses with ((hupper | hlower) | hdigit) | rfl
  · exact hlast 90 (by decide) (of_decide_eq_true hupper).2
  · exact hlast 122 (by decide) (of_decide_eq_true (Bool.and_eq_true_iff.1 hlower).2)
  · exact hlast 57 (by decide) (of_decide_eq_true (Bool.and_eq_true_iff.1 hdigit).2)
  · decide

/-- A byte of a name is one of the first 128. -/
theorem le_of_isWordByte {b : Byte} (h : isWordByte b = true) : b.toNat ≤ 127 := by
  have hall : ∀ n < 256, isWordByte (UInt8.ofNat n) = true → n ≤ 127 := by decide +kernel
  refine hall b.toNat b.toNat_lt ?_
  rwa [UInt8.ofNat_toNat]

end Text

end AsmPrep

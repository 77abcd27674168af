/-
A recogniser neither loses nor invents a byte.

Lexeme and rest, put together again, are the text the recogniser was given.  For the
paste mark and for blanks, whose spelling is dropped, what follows is at least a tail of
the text.  Everything said about where a scan stands rests on this.
-/
import AsmPrep.Text.Lexeme

namespace AsmPrep

namespace Text

theorem skipBlanks_suffix (s : Text) : skipBlanks s <:+ s := List.dropWhile_suffix _

theorem toNat_ofNat (c : Byte) : (Char.ofNat c.toNat).toNat = c.toNat := by
  have hlt : c.toNat < 256 := c.toNat_lt
  have hvalid : c.toNat.isValidChar := .inl (Nat.lt_trans hlt (by decide))
  rw [Char.ofNat, dif_pos hvalid]
  rfl

/-- Different texts are different names. -/
theorem toName_inj {s t : Text} (h : toName s = toName t) : s = t := by
  have hchars := congrArg String.toList h
  rw [toName, toName, String.toList_ofList, String.toList_ofList] at hchars
  refine (List.map_inj_right ?_).1 hchars
  intro c d hcd
  have hnat := congrArg Char.toNat hcd
  rw [toNat_ofNat, toNat_ofNat] at hnat
  exact UInt8.toNat_inj.1 hnat

end Text

namespace Lexeme

open Byte

/-! ### Names and words -/

theorem identifier?_append {s lexeme rest : Text} (h : identifier? s = some (lexeme, rest)) :
    lexeme ++ rest = s := by
  cases s with
  | nil => simp [identifier?] at h
  | cons c s =>
    rw [identifier?] at h
    split at h
    · obtain ⟨rfl, rfl⟩ := Prod.mk.inj (Option.some.inj h)
      rw [List.cons_append, List.takeWhile_append_dropWhile]
    · exact absurd h (by simp)

theorem name?_append {s lexeme rest : Text} (h : name? s = some (lexeme, rest)) :
    lexeme ++ rest = s := by
  cases s with
  | nil => simp [name?] at h
  | cons c s =>
    rw [name?] at h
    split at h
    · obtain ⟨⟨n, r⟩, hn, hr⟩ := Option.map_eq_some_iff.1 h
      obtain ⟨rfl, rfl⟩ := Prod.mk.inj hr
      rw [List.cons_append, identifier?_append hn]
    · exact identifier?_append h

/-! ### Numbers -/

theorem run?_append {front : Text} {accept : Text → Bool} {s lexeme rest : Text}
    (h : run? front accept s = some (lexeme, rest)) : lexeme ++ rest = front ++ s := by
  simp only [run?] at h
  split at h
  · obtain ⟨rfl, rfl⟩ := Prod.mk.inj (Option.some.inj h)
    rw [List.append_assoc, List.takeWhile_append_dropWhile]
  · exact absurd h (by simp)

theorem markedNumber?_append {s lexeme rest : Text} (h : markedNumber? s = some (lexeme, rest)) :
    lexeme ++ rest = s := by
  unfold markedNumber? at h
  split at h
  · split at h
    · obtain ⟨digits, -, hr⟩ := Option.map_eq_some_iff.1 h
      obtain ⟨rfl, rfl⟩ := Prod.mk.inj hr
      simp only [List.cons_append, List.takeWhile_append_dropWhile]
    · exact absurd h (by simp)
  · exact absurd h (by simp)

theorem sigilNumber?_append {s lexeme rest : Text} (h : sigilNumber? s = some (lexeme, rest)) :
    lexeme ++ rest = s := by
  unfold sigilNumber? at h
  split at h
  · split at h
    · exact run?_append h
    · split at h
      · exact run?_append h
      · exact absurd h (by simp)
  · exact absurd h (by simp)

theorem digitNumber?_append {s lexeme rest : Text} (h : digitNumber? s = some (lexeme, rest)) :
    lexeme ++ rest = s := by
  unfold digitNumber? at h
  split at h
  · split at h
    · exact run?_append h
    · exact absurd h (by simp)
  · exact absurd h (by simp)

theorem number?_append {s lexeme rest : Text} (h : number? s = some (lexeme, rest)) :
    lexeme ++ rest = s := by
  simp only [number?, Option.or_eq_some_iff] at h
  rcases h with h | ⟨-, h | ⟨-, h⟩⟩
  · exact markedNumber?_append h
  · exact sigilNumber?_append h
  · exact digitNumber?_append h

/-! ### Quoted strings, angle brackets, the paste mark -/

theorem closeQuote_append (quote : Byte) (s : Text) :
    (closeQuote quote s).1 ++ (closeQuote quote s).2 = s := by
  fun_induction closeQuote quote s with
  | case1 => rfl
  | case2 => rfl
  | case3 => rfl
  | case4 d s _ ih => simpa using ih
  | case5 c d s _ _ ih => simpa using ih

theorem quoted?_append {s lexeme rest : Text} (h : quoted? s = some (lexeme, rest)) :
    lexeme ++ rest = s := by
  cases s with
  | nil => simp [quoted?] at h
  | cons c s =>
    rw [quoted?] at h
    split at h
    · obtain ⟨rfl, rfl⟩ := Prod.mk.inj (Option.some.inj h)
      rw [List.cons_append]
      exact congrArg (c :: ·) (closeQuote_append c s)
    · exact absurd h (by simp)

theorem angleText_append (s : Text) : (angleText s).1 ++ (angleText s).2 = s := by
  fun_induction angleText s with
  | case1 => rfl
  | case2 => rfl
  | case3 => rfl
  | case4 => rfl
  | case5 c d s _ _ ih => simpa using ih
  | case6 c d s _ _ ih => simpa using ih

theorem paste?_suffix {s rest : Text} (h : paste? s = some rest) : rest <:+ s := by
  unfold paste? at h
  split at h
  · split at h
    · obtain rfl := Option.some.inj h
      exact ((Text.skipBlanks_suffix _).trans (List.suffix_cons _ _)).trans (List.suffix_cons _ _)
    · exact absurd h (by simp)
  · exact absurd h (by simp)

end Lexeme

end AsmPrep

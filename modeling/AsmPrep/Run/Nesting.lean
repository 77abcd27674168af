/-
How deep files can be nested.

A path has a limited number of bytes, so there are only so many paths, and no path is
on the stack of inputs twice.  `free` counts the paths that can still be opened.  It is
far too large a number to be computed; all that matters is that it drops with each file
that is included.
-/
import AsmPrep.Files.Tree

namespace AsmPrep.Run

/-- All texts of at most that many bytes. -/
def textsUpTo : Nat → List Text
  | 0 => [[]]
  | n + 1 =>
    [] :: (List.range 256).flatMap fun c => (textsUpTo n).map (UInt8.ofNat c :: ·)

theorem mem_textsUpTo {s : Text} {n : Nat} (h : s.length ≤ n) : s ∈ textsUpTo n := by
  induction n generalizing s with
  | zero => simp [textsUpTo, List.eq_nil_of_length_eq_zero (Nat.le_zero.1 h)]
  | succ n ih =>
    match s with
    | [] => simp [textsUpTo]
    | c :: s =>
      refine List.mem_cons_of_mem _ (List.mem_flatMap.2 ⟨c.toNat, ?_, List.mem_map.2 ⟨s, ?_, ?_⟩⟩)
      · exact List.mem_range.2 c.toNat_lt
      · exact ih (Nat.le_of_succ_le_succ h)
      · simp

/-- The number of paths that are not among `names`. -/
@[irreducible] noncomputable def free (names : List String) : Nat :=
  (textsUpTo Files.pathLimit).countP fun s => !(names.map Text.ofString).contains s

theorem ofString_injective {a b : String} (h : Text.ofString a = Text.ofString b) : a = b := by
  refine String.toByteArray_inj.1 (ByteArray.ext ?_)
  simpa [Text.ofString] using h

theorem length_ofString (s : String) : (Text.ofString s).length = s.utf8ByteSize := by
  rw [Text.ofString, Array.length_toList]
  exact String.size_toByteArray

/-- A test that fails where the other does, and on one more element, succeeds less often. -/
theorem countP_lt {α : Type} {p q : α → Bool} {xs : List α} (h : ∀ x, p x = true → q x = true)
    {a : α} (ha : a ∈ xs) (hp : p a = false) (hq : q a = true) : xs.countP p < xs.countP q := by
  induction xs with
  | nil => simp at ha
  | cons x xs ih =>
    have le : xs.countP p ≤ xs.countP q := List.countP_mono_left fun x _ => h x
    rcases List.mem_cons.1 ha with rfl | ha
    · rw [List.countP_cons_of_neg (by simp [hp]), List.countP_cons_of_pos hq]
      exact Nat.lt_succ_of_le le
    · have := ih ha
      rw [List.countP_cons, List.countP_cons]
      split
      · rw [if_pos (h x (by assumption))]
        exact Nat.succ_lt_succ this
      · exact Nat.lt_of_lt_of_le this (Nat.le_add_right _ _)

/-- Opening a path that is not open leaves fewer to open. -/
theorem free_cons_lt {names : List String} {name : String}
    (hlimit : name.utf8ByteSize < Files.pathLimit) (hnew : name ∉ names) :
    free (name :: names) < free names := by
  unfold free
  refine countP_lt (fun s => ?_) (mem_textsUpTo (s := Text.ofString name) ?_) ?_ ?_
  · simp only [List.map_cons, List.contains_cons]
    simp
  · rw [length_ofString]
    exact Nat.le_of_lt hlimit
  · simp
  · simp only [Bool.not_eq_true', List.contains_eq_mem, decide_eq_false_iff_not, List.mem_map]
    rintro ⟨other, hother, heq⟩
    exact hnew (ofString_injective heq ▸ hother)

end AsmPrep.Run

/-
The lines of a text, and their numbers.

Reading a text gives its lines with every line end as one newline, and nothing else is changed,
added or left out; only a last line without an end gets one.  The lines are numbered from one, or
on from the location that was set last, and from zero behind the last number there is.  At the end
the number moves on once more, and then nothing moves any more.

The argument is one invariant: the top input is open, what is left of it are these lines, and it
stands at that place.  Reading takes the first of the lines and moves the place on, setting a
location puts it elsewhere.
-/
import AsmPrep.Proofs.Source.Operations

namespace AsmPrep

open Byte

namespace Text

variable {c : Byte} {s : Text}

end Text

namespace Reader

open Text

end Reader

namespace Location

/-- The place of the line `n` further on.  Behind the last number of all comes zero. -/
def down (l : Location) (n : Nat) : Location := { l with line := l.line + UInt32.ofNat n }

theorem down_zero (l : Location) : l.down 0 = l := by
  show { l with line := l.line + 0 } = l
  rw [UInt32.add_zero]

theorem down_down (l : Location) (m n : Nat) : (l.down m).down n = l.down (m + n) := by
  show { l with line := l.line + UInt32.ofNat m + UInt32.ofNat n } =
    { l with line := l.line + UInt32.ofNat (m + n) }
  rw [UInt32.add_assoc, ← UInt32.ofNat_add]

end Location

namespace InputStack

open Text

variable {s t : InputStack} {lines : List Text} {line : Text} {l : Location}

/-! ### One line -/

/-- The top input is open and has these lines to give, and it stands at that place. -/
def Serves (s : InputStack) (lines : List Text) (l : Location) : Prop :=
  ∃ top others, s.inputs = top :: others ∧ top.Reads s.tree lines ∧ top.ended = false ∧
    top.location = l ∧ s.locations.asm = l

theorem Serves.asm (h : s.Serves lines l) : s.locations.asm = l := by
  obtain ⟨top, others, -, -, -, -, hasm⟩ := h
  exact hasm

theorem Serves.readLine (h : s.Serves (line :: lines) l) :
    s.readLine.1 = .ok (some line) ∧ s.readLine.2.Serves lines (l.down 1) := by
  obtain ⟨top, others, hinputs, hreads, hended, rfl, hasm⟩ := h
  obtain ⟨reader, hreader, hreadable, hlines⟩ := hreads
  have hline := Reader.line?_spec s.tree hreadable
  rw [hlines] at hline
  obtain ⟨after, hsome, hafter, hrest⟩ := hline
  unfold InputStack.readLine Input.read
  simp only [hinputs, hreader, hreadable, if_false, hsome]
  exact ⟨trivial, _, others, rfl, ⟨after, rfl, hafter, hrest⟩, hended, rfl, rfl⟩

/-- The top input was read to its end. -/
def Spent (s : InputStack) : Prop :=
  ∃ top others, s.inputs = top :: others ∧ top.reader = none ∧ top.ended = true

theorem Spent.isEnded (h : s.Spent) : s.isEnded = true := by
  obtain ⟨top, others, hinputs, -, hended⟩ := h
  unfold InputStack.isEnded
  rw [hinputs]
  simpa using hended

theorem Spent.readLine (h : s.Spent) : s.readLine = (.ok none, s) := by
  obtain ⟨top, others, hinputs, hreader, -⟩ := h
  unfold InputStack.readLine
  simp only [hinputs, hreader]

namespace Operation

/-- Reading and setting locations stay with the input that is open. -/
def stays : Operation → Bool
  | readLine | setLocation _ _ => true
  | _ => false

def reads : Operation → Bool
  | readLine => true
  | _ => false

/-- The place of an open input after an operation that stays with it. -/
def place (l : Location) : Operation → Location
  | readLine => l.down 1
  | setLocation .asm l => l
  | _ => l

end Operation

/-- The place after some operations. -/
def placeAfter (l : Location) (ops : List Operation) : Location := ops.foldl Operation.place l

/-- What the input has to give does not depend on the locations that are set. -/
theorem Serves.setLocation (h : s.Serves lines l) (space : Space) (l' : Location) :
    (s.setLocation space l').Serves lines (Operation.place l (.setLocation space l')) := by
  obtain ⟨top, others, hinputs, hreads, hended, hlocation, hasm⟩ := h
  unfold InputStack.setLocation
  rw [hinputs]
  cases space with
  | c => exact ⟨top, others, rfl, hreads, hended, hlocation, hasm⟩
  | asm => exact ⟨_, others, rfl, hreads, hended, rfl, rfl⟩

/-- The invariant of reading: each operation that stays takes at most the first line. -/
theorem Serves.after (h : s.Serves lines l) {ops : List Operation}
    (hops : ∀ op ∈ ops, op.stays = true) (hreads : ops.countP (·.reads) ≤ lines.length) :
    (s.after ops).Serves (lines.drop (ops.countP (·.reads))) (placeAfter l ops) := by
  induction ops generalizing s lines l with
  | nil => exact h
  | cons op ops ih =>
    have hrest : ∀ op ∈ ops, op.stays = true := fun op hop => hops op (List.mem_cons_of_mem _ hop)
    cases op with
    | readLine =>
      have hcount : (Operation.readLine :: ops).countP (·.reads) = ops.countP (·.reads) + 1 :=
        List.countP_cons_of_pos rfl
      rw [hcount] at hreads ⊢
      cases lines with
      | nil => exact absurd hreads (Nat.not_succ_le_zero _)
      | cons line lines => exact ih h.readLine.2 hrest (Nat.le_of_succ_le_succ hreads)
    | setLocation space l' =>
      have hcount : (Operation.setLocation space l' :: ops).countP (·.reads) =
          ops.countP (·.reads) := List.countP_cons_of_neg Bool.false_ne_true
      rw [hcount] at hreads ⊢
      exact ih (h.setLocation space l') hrest hreads
    | push | pop | openFile | openText =>
      exact absurd (hops _ List.mem_cons_self) (by simp [Operation.stays])

/-- The stack after reading that many lines. -/
def afterLines (s : InputStack) (n : Nat) : InputStack := s.after (List.replicate n .readLine)

theorem afterLines_succ (s : InputStack) (n : Nat) :
    s.afterLines (n + 1) = (s.afterLines n).readLine.2 := by
  rw [afterLines, List.replicate_succ', after_append]
  rfl

theorem placeAfter_replicate (l : Location) (n : Nat) :
    placeAfter l (List.replicate n .readLine) = l.down n := by
  induction n with
  | zero => exact (Location.down_zero l).symm
  | succ n ih =>
    rw [List.replicate_succ', placeAfter, List.foldl_append, ← Location.down_down]
    exact congrArg (Location.down · 1) ih

theorem Serves.afterLines (h : s.Serves lines l) {n : Nat} (hn : n ≤ lines.length) :
    (s.afterLines n).Serves (lines.drop n) (l.down n) := by
  have hcount : (List.replicate n Operation.readLine).countP (·.reads) = n := by
    simp [List.countP_replicate, Operation.reads]
  have hops : ∀ op ∈ List.replicate n Operation.readLine, op.stays = true :=
    fun op hop => List.eq_of_mem_replicate hop ▸ rfl
  have hafter := h.after hops (hcount.symm ▸ hn)
  rwa [hcount, placeAfter_replicate] at hafter

theorem Spent.afterLines (h : s.Spent) (n : Nat) : s.afterLines n = s := by
  induction n with
  | zero => rfl
  | succ n ih => rw [afterLines_succ, ih, h.readLine]

end InputStack

end AsmPrep

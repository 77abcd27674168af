/-
Where raw lines come from.

A source answers each request with a line, with its end, or with a fault, and keeps its
locations up to date.  How much it still holds never grows, and a line that it gives is
taken from that; so reading a source to its end is a finite business.

The entries of a listing go to the source as well.  A listing can be one of the files
that are read, and then what it says is part of what is still to come.
-/
import AsmPrep.Diagnostic
import AsmPrep.Text.Basic

namespace AsmPrep

class LineSource (σ : Type) where
  /-- The next line with its line end, nothing at the end, or a fault. -/
  nextLine : σ → Except Fault (Option Text) × σ
  locations : σ → Locations
  /-- Takes an entry for the listing, where one is kept. -/
  record : Text → σ → σ
  /-- A bound on the lines still to come. -/
  remaining : σ → Nat
  remaining_le : ∀ s, remaining (nextLine s).2 ≤ remaining s
  remaining_lt : ∀ s line, (nextLine s).1 = .ok (some line) → remaining (nextLine s).2 < remaining s
  remaining_record : ∀ entry s, remaining (record entry s) ≤ remaining s

namespace LineSource

variable {σ : Type} [LineSource σ]

/-- `Served s n t`: after `n` requests, and entries recorded between them, `s` is `t`. -/
inductive Served (s : σ) : Nat → σ → Prop where
  | start : Served s 0 s
  | request {n : Nat} {t : σ} (h : Served s n t) : Served s (n + 1) (nextLine t).2
  | entry {n : Nat} {t : σ} (text : Text) (h : Served s n t) : Served s n (record text t)

namespace Served

theorem trans {s t u : σ} {m n : Nat} (hst : Served s m t) (htu : Served t n u) :
    Served s (m + n) u := by
  induction htu with
  | start => exact hst
  | request _ ih => exact .request ih
  | entry text _ ih => exact .entry text ih

theorem remaining_le {s t : σ} {n : Nat} (h : Served s n t) : remaining t ≤ remaining s := by
  induction h with
  | start => exact Nat.le_refl _
  | request _ ih => exact Nat.le_trans (LineSource.remaining_le _) ih
  | entry text _ ih => exact Nat.le_trans (remaining_record text _) ih

end Served

end LineSource

end AsmPrep

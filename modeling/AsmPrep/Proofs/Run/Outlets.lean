/-
The files that a run writes to.

While inputs are read, the output and the listing are the only files that change, and each
of them is what its writer was given, as far as that has reached it.  Reading changes no
file at all.  That the two are different files is part of what outlets are: two writers on
one file would write over each other.
-/
import AsmPrep.Proofs.Files.Writer
import AsmPrep.Proofs.Run.Follow
import AsmPrep.Proofs.Source.Stack

namespace AsmPrep.Run

open Files

/-- Where the output and the listing of a run are, so far as it has them. -/
structure Outlets where
  output : Option Place := none
  listing : Option Place := none
  apart : ∀ place ∈ output, place ∉ listing

namespace Outlets

/-- The run writes to that place. -/
def Written (o : Outlets) (p : Place) : Prop := p ∈ o.output ∨ p ∈ o.listing

/-- A writer for that file, where there is one, which holds all that it was given. -/
def Serves (place : Option Place) (t : Tree) (w : Option Writer) : Prop :=
  w.map (·.place) = place ∧ ∀ x ∈ w, ∃ text, x.Holds t text

namespace Serves

variable {place : Option Place} {t t' : Tree} {w : Option Writer} {p : Place}

theorem mem (h : Serves place t w) {x : Writer} (hx : x ∈ w) : x.place ∈ place := by
  rw [← h.1]
  exact Option.map_eq_some_iff.2 ⟨x, hx, rfl⟩

theorem writer (h : Serves place t w) (hp : p ∈ place) : ∃ x ∈ w, x.place = p := by
  rw [← h.1] at hp
  exact Option.map_eq_some_iff.1 hp

theorem at?_writeTo (h : Serves place t w) (hp : p ∉ place) (s : Text) :
    (writeTo w s t).2.at? p = t.at? p := by
  exact at?_writeTo_ne (fun x hx (heq : x.place = p) => hp (heq ▸ h.mem hx)) s t

theorem at?_flushTo (h : Serves place t w) (hp : p ∉ place) : (flushTo w t).2.at? p = t.at? p := by
  exact at?_flushTo_ne (fun x hx (heq : x.place = p) => hp (heq ▸ h.mem hx)) t

theorem write (h : Serves place t w) (s : Text) :
    Serves place (writeTo w s t).2 (writeTo w s t).1 := by
  match w, h with
  | none, h => exact h
  | some w, ⟨hplace, hholds⟩ =>
    obtain ⟨text, htext⟩ := hholds w rfl
    refine ⟨?_, ?_⟩
    · simpa [writeTo] using hplace
    · rintro x hx
      obtain rfl := Option.some.inj hx
      exact ⟨_, Writer.write_holds htext s⟩

theorem flush (h : Serves place t w) : Serves place (flushTo w t).2 (flushTo w t).1 := by
  match w, h with
  | none, h => exact h
  | some w, ⟨hplace, hholds⟩ =>
    obtain ⟨text, htext⟩ := hholds w rfl
    refine ⟨?_, ?_⟩
    · simpa [flushTo] using hplace
    · rintro x hx
      obtain rfl := Option.some.inj hx
      exact ⟨_, Writer.flush_holds htext⟩

theorem of_at? (h : Serves place t w) (ht : ∀ p ∈ place, t'.at? p = t.at? p) :
    Serves place t' w := by
  refine ⟨h.1, fun x hx => ?_⟩
  obtain ⟨text, htext⟩ := h.2 x hx
  refine ⟨text, ?_⟩
  unfold Writer.Holds
  rw [ht _ (h.mem hx)]
  exact htext

/-- Its file is there. -/
theorem file (h : Serves place t w) (hp : p ∈ place) :
    ∃ content, t.at? p = some (.file content) := by
  obtain ⟨x, hx, rfl⟩ := h.writer hp
  obtain ⟨text, content, hfile, -⟩ := h.2 x hx
  exact ⟨content, hfile⟩

/-- It is ahead of a writer that has been given nothing yet. -/
theorem ahead {u : Tree} {v : Option Writer} (h : Serves place t w) (h' : Serves place u v)
    (hnil : ∀ x ∈ v, x.Holds u []) :
    ∃ text, (∀ x ∈ w, x.Holds t text) ∧ Ahead text t u w v := by
  have hplaces : w.map (·.place) = v.map (·.place) := h.1.trans h'.1.symm
  match w, v, hplaces with
  | none, none, _ => exact ⟨[], fun x hx => absurd hx (Option.not_mem_none x), trivial⟩
  | some w, some v, hplaces =>
    obtain ⟨text, htext⟩ := h.2 w rfl
    refine ⟨text, ?_, Option.some.inj hplaces, [], ?_, hnil v rfl⟩
    · rintro x hx
      obtain rfl := Option.some.inj hx
      exact htext
    · rwa [List.append_nil]

end Serves

/-- Since the tree was `t₀`, nothing but the outlets has changed. -/
structure Kept (o : Outlets) (t₀ t : Tree) (output listing : Option Writer) : Prop where
  home : t.home = t₀.home
  off : ∀ p, ¬ o.Written p → t.at? p = t₀.at? p
  output : Serves o.output t output
  listing : Serves o.listing t listing

namespace Kept

variable {o : Outlets} {t₀ t u : Tree} {output listing : Option Writer}

theorem writeOutput (h : o.Kept t₀ t output listing) (s : Text) :
    o.Kept t₀ (writeTo output s t).2 (writeTo output s t).1 listing where
  home := (home_writeTo output s t).trans h.home
  off p hp := (h.output.at?_writeTo (fun hmem => hp (.inl hmem)) s).trans (h.off p hp)
  output := h.output.write s
  listing := h.listing.of_at? fun p hp =>
    h.output.at?_writeTo (fun hmem => o.apart p hmem hp) s

theorem writeListing (h : o.Kept t₀ t output listing) (s : Text) :
    o.Kept t₀ (writeTo listing s t).2 output (writeTo listing s t).1 where
  home := (home_writeTo listing s t).trans h.home
  off p hp := (h.listing.at?_writeTo (fun hmem => hp (.inr hmem)) s).trans (h.off p hp)
  output := h.output.of_at? fun p hp => h.listing.at?_writeTo (fun hmem => o.apart p hp hmem) s
  listing := h.listing.write s

theorem flushOutput (h : o.Kept t₀ t output listing) :
    o.Kept t₀ (flushTo output t).2 (flushTo output t).1 listing where
  home := (home_flushTo output t).trans h.home
  off p hp := (h.output.at?_flushTo fun hmem => hp (.inl hmem)).trans (h.off p hp)
  output := h.output.flush
  listing := h.listing.of_at? fun p hp => h.output.at?_flushTo fun hmem => o.apart p hmem hp

theorem flushListing (h : o.Kept t₀ t output listing) :
    o.Kept t₀ (flushTo listing t).2 output (flushTo listing t).1 where
  home := (home_flushTo listing t).trans h.home
  off p hp := (h.listing.at?_flushTo fun hmem => hp (.inr hmem)).trans (h.off p hp)
  output := h.output.of_at? fun p hp => h.listing.at?_flushTo fun hmem => o.apart p hp hmem
  listing := h.listing.flush

/-- Trees that came from one agree but for the outlets. -/
theorem agrees {output' listing' : Option Writer} (h : o.Kept t₀ t output listing)
    (h' : o.Kept t₀ u output' listing') : Tree.Agrees o.Written t u where
  home := h.home.trans h'.home.symm
  off p hp := (h.off p hp).trans (h'.off p hp).symm
  on p hp := by
    rcases hp with hp | hp
    · exact ⟨h.output.file hp, h'.output.file hp⟩
    · exact ⟨h.listing.file hp, h'.listing.file hp⟩

end Kept

end Outlets

/-! ### Passes -/

/-- Something about the files and the writers that writing keeps up. -/
structure Upkeep where
  Holds : Tree → Option Writer → Option Writer → Prop
  writeOutput : ∀ {t output listing}, Holds t output listing → ∀ s : Text,
    Holds (writeTo output s t).2 (writeTo output s t).1 listing
  writeListing : ∀ {t output listing}, Holds t output listing → ∀ s : Text,
    Holds (writeTo listing s t).2 output (writeTo listing s t).1
  flushListing : ∀ {t output listing}, Holds t output listing →
    Holds (flushTo listing t).2 output (flushTo listing t).1

/-- What was written is in the outlets, and nothing else has changed. -/
def Outlets.upkeep (o : Outlets) (t₀ : Tree) : Upkeep :=
  ⟨o.Kept t₀, fun h => h.writeOutput, fun h => h.writeListing, fun h => h.flushListing⟩

namespace Pass

variable {k : Upkeep}

def Kept (k : Upkeep) (p : Pass) : Prop := k.Holds p.stack.tree p.output p.desk.listing

theorem served_kept {d e : Desk} {n : Nat} {output : Option Writer}
    (hs : LineSource.Served d n e) (h : k.Holds d.stack.tree output d.listing) :
    k.Holds e.stack.tree output e.listing := by
  induction hs with
  | start => exact h
  | @request n e _ ih =>
    have hsame : (LineSource.nextLine e).2.stack.tree = e.stack.tree := e.stack.readLine_tree
    have hlisting : (LineSource.nextLine e).2.listing = e.listing := rfl
    rw [hsame, hlisting]
    exact ih
  | entry text _ ih => exact k.writeListing ih text

theorem obey_kept {p : Pass} (h : p.Kept k) (statement : Text) :
    (p.obey statement).2.Kept k := by
  unfold obey
  split
  · exact k.writeOutput h statement
  · exact h
  · exact h
  · exact h

theorem step_kept {p : Pass} (h : p.Kept k) : p.step.2.Kept k := by
  obtain ⟨n, hn⟩ := Preprocessor.nextStatement_served p.pp p.desk
  have hserved := served_kept hn h
  unfold step
  split
  · rename_i hs
    rw [hs] at hserved
    exact hserved
  · rename_i statement pp desk hs
    rw [hs] at hserved
    exact obey_kept (p := { p with pp, desk }) hserved statement

theorem leave_kept {p : Pass} (h : p.Kept k) : p.leave.Kept k := by
  have hsame : p.stack.pop.tree = p.stack.tree := p.stack.pop_tree
  unfold Kept leave withStack stack
  dsimp only
  rw [show p.desk.stack.pop.tree = p.desk.stack.tree from hsame]
  exact h

theorem load_kept {p : Pass} (h : p.Kept k) (file : String) : (p.load file).2.Kept k := by
  unfold load enter
  dsimp only
  have hsame := p.stack.push.bind_tree file (p.stack.tree.search file p.stack.includePath)
    (p.stack.tree.reader? (p.stack.tree.search file p.stack.includePath))
  split
  · rename_i stack hb
    rw [hb] at hsame
    show k.Holds stack.tree _ _
    rw [hsame]
    exact h
  · rename_i fault stack hb
    rw [hb] at hsame
    refine leave_kept ?_
    show k.Holds stack.tree _ _
    rw [hsame]
    exact h

/-- **A run keeps up what writing keeps up**: it changes files in no other way. -/
theorem follow_kept {p : Pass} (h : p.Kept k) : p.follow.Kept k := by
  induction p using follow_induction with
  | exhausted p q hs => simpa only [hs] using step_kept h
  | done p q hs ih => exact ih (by simpa only [hs] using step_kept h)
  | refused p q file entered hs hload ih =>
    have hq : q.Kept k := by simpa only [hs] using step_kept h
    exact ih (by simpa only [hload] using load_kept hq file)
  | loaded p q file entered hs hload ihi ihr =>
    have hq : q.Kept k := by simpa only [hs] using step_kept h
    exact ihr (leave_kept (ihi (by simpa only [hload] using load_kept hq file)))

end Pass

end AsmPrep.Run

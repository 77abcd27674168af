/-
What a listing holds, and that it does nothing else.

A source can be watched: every line that it hands out is noted, with the place that it comes
from.  A preprocessor does the same over a watched source as over the source itself.  So the
events of a run are there to be told without a listing: the lines that were handed out, whoever
asked for them, and the statements that were answered.

A listing beside the source takes an entry for each of them, in their order and as long as it can
take any.  Nothing is ever read from it, so the run is the one without it.
-/
import AsmPrep.Proofs.Preprocessor.Reset
import AsmPrep.Source.Stack

namespace AsmPrep

open LineSource

/-! ### Events -/

namespace Listing

/-- What an entry is made for. -/
inductive Occasion where
  /-- A raw line was handed out. -/
  | line (place : Location) (text : Text)
  /-- A statement was answered. -/
  | statement (place : Location) (text : Text)

/-- What a listing says of it: the place, and the line below it.  Both are commented out for a
raw line. -/
def Occasion.entry : Occasion → Text
  | line place text =>
    Text.ofString (";\tLINE " ++ toString place.line ++ ", \"" ++ place.file.getD "" ++ "\"\n;\t") ++
      text
  | statement place text =>
    Text.ofString ("\tLINE " ++ toString place.line ++ ", \"" ++ place.file.getD "" ++ "\"\n\t") ++
      text

theorem ofString_append (a b : String) :
    Text.ofString (a ++ b) = Text.ofString a ++ Text.ofString b := by
  unfold Text.ofString
  simp

/-- A raw line is entered so. -/
theorem Occasion.entry_line (place : Location) (text : Text) :
    (line place text).entry = rawEntry place text := by
  have hfront : Text.ofString ";\tLINE " = Text.ofString ";\t" ++ Text.ofString "LINE " := by decide
  have hback : Text.ofString "\"\n;\t" = Text.ofString "\"" ++ Text.ofString "\n;\t" := by decide
  unfold entry rawEntry header
  simp only [ofString_append, hfront, hback, List.append_assoc]

/-- And so is a statement. -/
theorem Occasion.entry_statement (place : Location) (text : Text) :
    (statement place text).entry = statementEntry place text := by
  have hfront : Text.ofString "\tLINE " = Text.ofString "\t" ++ Text.ofString "LINE " := by decide
  have hback : Text.ofString "\"\n\t" = Text.ofString "\"" ++ Text.ofString "\n\t" := by decide
  unfold entry statementEntry header
  simp only [ofString_append, hfront, hback, List.append_assoc]

/-! ### Entries -/

/-- Takes entries, one after the other. -/
def writeAll (l : Listing) (entries : List Text) : Listing := entries.foldl write l

theorem writeAll_append (l : Listing) (entries more : List Text) :
    l.writeAll (entries ++ more) = (l.writeAll entries).writeAll more := List.foldl_append

/-- A listing that was dropped stays as it is. -/
theorem writeAll_dropped {l : Listing} (h : l.attached = false) (entries : List Text) :
    l.writeAll entries = l := by
  induction entries with
  | nil => rfl
  | cons entry entries ih =>
    have hwrite : l.write entry = l := by
      rw [write, h]
      rfl
    show (l.write entry).writeAll entries = l
    rw [hwrite, ih]

/-- What fits of some entries. -/
def fitting (l : Listing) (entries : List Text) : List Text :=
  match l.capacity with
  | none => entries
  | some n => entries.take (n - l.written.length)

theorem fitting_of_isFull {l : Listing} (h : l.isFull = true) (entries : List Text) :
    l.fitting entries = [] := by
  unfold isFull at h
  unfold fitting
  cases hc : l.capacity with
  | none =>
    rw [hc] at h
    exact absurd h Bool.false_ne_true
  | some n =>
    rw [hc] at h
    have hn : n ≤ l.written.length := by simpa using h
    show entries.take (n - l.written.length) = []
    rw [Nat.sub_eq_zero_of_le hn, List.take_zero]

theorem fitting_cons {l : Listing} (h : l.isFull = false) (entry : Text) (entries : List Text) :
    l.fitting (entry :: entries) =
      entry :: fitting { l with written := entry :: l.written } entries := by
  unfold isFull at h
  unfold fitting
  cases hc : l.capacity with
  | none => rfl
  | some n =>
    rw [hc] at h
    have hn : ¬ n ≤ l.written.length := by simpa using h
    have hroom : n - l.written.length = (n - (l.written.length + 1)) + 1 := by omega
    show (entry :: entries).take (n - l.written.length) =
      entry :: entries.take (n - (l.written.length + 1))
    rw [hroom, List.take_succ_cons]

/-- **What fits is written, in order.** -/
theorem written_writeAll {l : Listing} (h : l.attached = true) (entries : List Text) :
    (l.writeAll entries).written.reverse = l.written.reverse ++ l.fitting entries := by
  induction entries generalizing l with
  | nil =>
    have hnone : l.fitting [] = [] := by
      unfold fitting
      split
      · rfl
      · exact List.take_nil
    rw [hnone, List.append_nil]
    rfl
  | cons entry entries ih =>
    show ((l.write entry).writeAll entries).written.reverse = _
    unfold write
    rw [h]
    by_cases hfull : l.isFull = true
    · rw [if_neg (by simp), if_pos hfull, writeAll_dropped rfl, fitting_of_isFull hfull,
        List.append_nil]
    · rw [if_neg (by simp), if_neg hfull, ih rfl, fitting_cons (by simpa using hfull),
        List.reverse_cons, List.append_assoc, List.singleton_append, h]

/-- The first entries, as many as a new listing can take. -/
def firstOf (capacity : Option Nat) (entries : List Text) : List Text :=
  match capacity with
  | none => entries
  | some n => entries.take n

/-- Makes the entries for some occasions in a listing, where one is kept. -/
def enter (listing : Option Listing) (occasions : List Occasion) : Option Listing :=
  listing.map (·.writeAll (occasions.map Occasion.entry))

theorem enter_nil (listing : Option Listing) : enter listing [] = listing := by
  cases listing with
  | none => rfl
  | some l => rfl

theorem enter_line (listing : Option Listing) (place : Location) (text : Text) :
    enter listing [.line place text] = listing.map (·.write (rawEntry place text)) := by
  rw [enter, List.map_singleton, Occasion.entry_line]
  rfl

theorem enter_statement (listing : Option Listing) (place : Location) (text : Text) :
    enter listing [.statement place text] = listing.map (·.write (statementEntry place text)) := by
  rw [enter, List.map_singleton, Occasion.entry_statement]
  rfl

theorem enter_append (listing : Option Listing) (occasions more : List Occasion) :
    enter listing (occasions ++ more) = enter (enter listing occasions) more := by
  unfold enter
  rw [Option.map_map, List.map_append]
  congr 1
  funext l
  exact writeAll_append _ _ _

theorem text_writeAll (capacity : Option Nat) (entries : List Text) :
    (writeAll { capacity } entries).text = (firstOf capacity entries).flatten := by
  rw [text, written_writeAll rfl]
  rfl

end Listing

open Listing (Occasion)

/-- A source, and the lines that it handed out. -/
structure Watched (σ : Type) where
  source : σ
  seen : List Occasion := []

namespace Watched

variable {σ : Type} [LineSource σ]

/-- Notes a line, and nothing else. -/
def note (place : Location) : Except Fault (Option Text) → List Occasion
  | .ok (some line) => [.line place line]
  | _ => []

instance : LineSource (Watched σ) where
  nextLine w :=
    let asked := nextLine w.source
    (asked.1, ⟨asked.2, w.seen ++ note (locations asked.2).asm asked.1⟩)
  locations w := locations w.source
  record entry w := { w with source := record entry w.source }
  remaining w := remaining w.source
  remaining_le w := LineSource.remaining_le w.source
  remaining_lt w := LineSource.remaining_lt w.source
  remaining_record entry w := LineSource.remaining_record entry w.source

/-- A source is not told that it is watched. -/
def lockstep (σ : Type) [LineSource σ] : Lockstep (Watched σ) σ where
  Alike w s := w.source = s
  Near := Eq
  Over _ := False
  near := by
    rintro w _ rfl
    rfl
  next := by
    rintro w _ rfl
    exact .inr ⟨rfl, rfl⟩
  record := by
    rintro w _ l _ entry rfl rfl
    rfl
  over_next := id
  over_record _ := id

end Watched

/-- Two sources that go on alike, both of them watched. -/
def Lockstep.watched {σ τ : Type} [LineSource σ] [LineSource τ] (L : Lockstep σ τ)
    (hnear : ∀ {l l'}, L.Near l l' → l.asm = l'.asm) : Lockstep (Watched σ) (Watched τ) where
  Alike w v := L.Alike w.source v.source ∧ w.seen = v.seen
  Near := L.Near
  Over w := L.Over w.source
  near h := L.near h.1
  next := by
    rintro w v ⟨hsource, hseen⟩
    rcases L.next hsource with hover | ⟨hanswer, hnext⟩
    · exact .inl hover
    · refine .inr ⟨hanswer, hnext, ?_⟩
      show w.seen ++ Watched.note _ _ = v.seen ++ Watched.note _ _
      rw [hseen, hanswer, hnear (L.near hnext)]
  record := by
    rintro w v l l' entry ⟨hsource, hseen⟩ hl
    exact ⟨L.record entry hsource hl, hseen⟩
  over_next := L.over_next
  over_record entry := L.over_record entry

/-- A source goes on in the same way with any listing beside it. -/
def Listed.lockstep (σ : Type) [LineSource σ] : Lockstep (Listed σ) (Listed σ) where
  Alike l l' := l.source = l'.source
  Near := Eq
  Over _ := False
  near := by
    rintro ⟨source, listing⟩ ⟨_, listing'⟩ rfl
    rfl
  next := by
    rintro ⟨source, listing⟩ ⟨_, listing'⟩ rfl
    exact .inr ⟨rfl, rfl⟩
  record := by
    rintro ⟨source, listing⟩ ⟨_, listing'⟩ l l' entry rfl -
    rfl
  over_next := id
  over_record _ := id

namespace Preprocessor

/-! ### Lines that are pulled -/

section Lines

variable {σ : Type} [LineSource σ]

/-- `Pulled s t`: from `s` to `t` nothing was done but to fetch lines. -/
inductive Pulled (s : σ) : σ → Prop where
  | start : Pulled s s
  | fetch {t : σ} (pp : Preprocessor) (h : Pulled s t) : Pulled s (pp.fetchLine t).2.2

theorem Pulled.trans {s t u : σ} (h : Pulled s t) (h' : Pulled t u) : Pulled s u := by
  induction h' with
  | start => exact h
  | fetch pp _ ih => exact .fetch pp ih

theorem Pulled.of_fetchLine {pp pp' : Preprocessor} {s t : σ} {line? : Option Text}
    (h : pp.fetchLine s = (line?, pp', t)) : Pulled s t := by
  simpa only [h] using Pulled.fetch pp (.start (s := s))

theorem readBody_pulled (pp : Preprocessor) (text : Text) (src : σ) :
    Pulled src (pp.readBody text src).2.2 := by
  fun_induction readBody pp text src with
  | case1 pp text src added _ line pp' src' h ih => exact (Pulled.of_fetchLine h).trans ih
  | case2 pp text src added _ pp' src' h => exact .of_fetchLine h
  | case3 => exact .start

theorem processLine_pulled (pp : Preprocessor) (line : Text) (src : σ) :
    Pulled src (pp.processLine line src).2 := by
  unfold processLine
  split
  · exact .start
  · unfold defineFrom
    split
    · exact .start
    · dsimp only
      split
      · exact .start
      · split
        · exact .start
        · exact readBody_pulled _ _ _
  · exact .start
  · unfold continueFrom
    split
    · exact .start
    · exact readBody_pulled _ _ _
  · exact .start

/-- A statement costs no more than lines. -/
theorem fill_pulled (pp : Preprocessor) (src : σ) : Pulled src (pp.fill src).2 := by
  fun_induction fill pp src with
  | case1 pp src _ pp' src' h => exact .of_fetchLine h
  | case2 pp src _ line pp' src' h processed ih =>
    exact ((Pulled.of_fetchLine h).trans (processLine_pulled pp' line src')).trans ih
  | case3 => exact .start

end Lines

/-! ### What is entered -/

open Listing (enter)

/-- The lines that were handed out in between are those that were entered. -/
def Told {σ : Type} (w v : Watched (Listed σ)) : Prop :=
  ∃ new, v.seen = w.seen ++ new ∧ v.source.listing = enter w.source.listing new

namespace Told

theorem refl {σ : Type} (w : Watched (Listed σ)) : Told w w :=
  ⟨[], (List.append_nil _).symm, (Listing.enter_nil _).symm⟩

theorem trans {σ : Type} {w v u : Watched (Listed σ)} (h : Told w v) (h' : Told v u) :
    Told w u := by
  obtain ⟨new, hseen, hlisting⟩ := h
  obtain ⟨more, hseen', hlisting'⟩ := h'
  refine ⟨new ++ more, ?_, ?_⟩
  · rw [hseen', hseen, List.append_assoc]
  · rw [hlisting', hlisting, Listing.enter_append]

variable {σ : Type} [LineSource σ]

/-- Where no line is handed out nothing is entered. -/
theorem of_note {w : Watched (Listed σ)}
    (h : Watched.note (LineSource.locations (nextLine w.source).2).asm (nextLine w.source).1 = []) :
    Told w (nextLine w).2 := by
  refine ⟨[], ?_, (Listing.enter_nil _).symm⟩
  show w.seen ++ Watched.note _ _ = w.seen ++ []
  rw [h]

/-- A line that is fetched is handed out and entered. -/
theorem of_fetchLine (pp : Preprocessor) (w : Watched (Listed σ)) :
    Told w (pp.fetchLine w).2.2 := by
  unfold Preprocessor.fetchLine
  dsimp only
  split
  · rename_i line hline
    have hanswer : (nextLine w.source).1 = .ok (some line) := hline
    refine ⟨[.line (LineSource.locations (nextLine w).2).asm line], ?_, ?_⟩
    · show w.seen ++ Watched.note _ (nextLine w.source).1 = _
      rw [hanswer]
      rfl
    · exact (Listing.enter_line _ _ _).symm
  · rename_i hnone
    have hanswer : (nextLine w.source).1 = .ok none := hnone
    exact of_note (by rw [hanswer]; rfl)
  · rename_i fault hfault
    have hanswer : (nextLine w.source).1 = .error fault := hfault
    exact of_note (by rw [hanswer]; rfl)

theorem of_pulled {w v : Watched (Listed σ)} (h : Pulled w v) : Told w v := by
  induction h with
  | start => exact .refl w
  | fetch pp _ ih => exact ih.trans (.of_fetchLine pp _)

end Told

section Requests

variable {σ : Type} [LineSource σ]

/-- What a request is an occasion for: the lines that are handed out meanwhile, and the
statement. -/
def occasionsOf (pp : Preprocessor) (src : σ) : Request σ → List Occasion
  | .next =>
    let asked := pp.nextStatement (⟨src, []⟩ : Watched σ)
    asked.2.2.seen ++ asked.1.toList.map (.statement (LineSource.locations asked.2.2).asm)
  | _ => []

/-- What requests are occasions for, in their order. -/
def occasions (pp : Preprocessor) (src : σ) : List (Request σ) → List Occasion
  | [] => []
  | request :: requests =>
    let answered := pp.answer src request
    pp.occasionsOf src request ++ answered.2.1.occasions answered.2.2 requests

/-- The same request, with a listing beside the source. -/
def Request.beside : Request σ → Request (Listed σ)
  | .define name value => .define name value
  | .undefine name => .undefine name
  | .isDefined name => .isDefined name
  | .lookup name => .lookup name
  | .next => .next
  | .source f => .source fun l => { l with source := f l.source }
  | .reset => .reset

/-- What is asked of a watched source is answered as over the source itself. -/
theorem nextStatement_watched (pp : Preprocessor) (src : σ) :
    (pp.nextStatement (⟨src, []⟩ : Watched σ)).1 = (pp.nextStatement src).1 ∧
      (pp.nextStatement (⟨src, []⟩ : Watched σ)).2.2.source = (pp.nextStatement src).2.2 := by
  obtain ⟨hanswer, -, hsource⟩ := (Lockstep.nextStatement (L := Watched.lockstep σ)
    (s := ⟨src, []⟩) (t := src) (Paired.self pp) rfl).resolve_left id
  exact ⟨hanswer, hsource⟩

/-- The lines that a statement cost are entered, and then the statement. -/
theorem nextStatement_listing (pp : Preprocessor) (l : Listed σ) :
    let asked := pp.nextStatement (⟨l, []⟩ : Watched (Listed σ))
    asked.2.2.source.listing = enter l.listing (pp.occasionsOf l .next) := by
  let filled := pp.fill (⟨l, []⟩ : Watched (Listed σ))
  have htold : Told ⟨l, []⟩ filled.2 := .of_pulled (fill_pulled pp _)
  obtain ⟨new, hseen, hlisting⟩ := htold
  rw [List.nil_append] at hseen
  unfold occasionsOf nextStatement
  dsimp only
  split
  · show filled.2.source.listing = enter l.listing (filled.2.seen ++ [])
    rw [hlisting, hseen, List.append_nil]
  · rename_i statement _ _
    let place := (LineSource.locations filled.2).asm
    show filled.2.source.listing.map (·.write (Listing.statementEntry place statement)) =
      enter l.listing (filled.2.seen ++ [.statement place statement])
    rw [hlisting, hseen, Listing.enter_append, Listing.enter_statement]

/-- **A request makes one entry for each occasion.** -/
theorem answer_listing (pp : Preprocessor) (l : Listed σ) (request : Request σ) :
    (pp.answer l request.beside).2.2.listing =
      enter l.listing (pp.occasionsOf l request.beside) := by
  cases request with
  | next =>
    show (pp.nextStatement l).2.2.listing = _
    rw [← (nextStatement_watched pp l).2]
    exact nextStatement_listing pp l
  | define name value => exact (Listing.enter_nil _).symm
  | undefine name => exact (Listing.enter_nil _).symm
  | isDefined name => exact (Listing.enter_nil _).symm
  | lookup name => exact (Listing.enter_nil _).symm
  | source f => exact (Listing.enter_nil _).symm
  | reset => exact (Listing.enter_nil _).symm

theorem answers_listing (pp : Preprocessor) (l : Listed σ) (requests : List (Request σ)) :
    (pp.answers l (requests.map .beside)).2.2.listing =
      enter l.listing (pp.occasions l (requests.map .beside)) := by
  induction requests generalizing pp l with
  | nil => exact (Listing.enter_nil _).symm
  | cons request requests ih =>
    show ((pp.answer l request.beside).2.1.answers (pp.answer l request.beside).2.2
      (requests.map .beside)).2.2.listing = _
    rw [ih, answer_listing, ← Listing.enter_append]
    rfl

/-! ### What it does to the run -/

variable {old old' : List Diagnostic} {pp pp' : Preprocessor}

/-- One request, with different listings beside the same source. -/
theorem answer_beside (h : Paired Eq old old' pp pp') {l l' : Listed σ}
    (hsource : l.source = l'.source) (request : Request σ) :
    (pp.answer l request.beside).1 = (pp'.answer l' request.beside).1 ∧
      Paired Eq old old' (pp.answer l request.beside).2.1 (pp'.answer l' request.beside).2.1 ∧
      (pp.answer l request.beside).2.2.source = (pp'.answer l' request.beside).2.2.source ∧
      pp.occasionsOf l request.beside = pp'.occasionsOf l' request.beside := by
  have hlookup : ∀ name, pp.lookup name = pp'.lookup name := fun name => by
    rw [Preprocessor.lookup, Preprocessor.lookup, h.table]
  cases request with
  | define name value =>
    obtain ⟨hresult, hpp⟩ := h.define name value
    exact ⟨congrArg Answer.defined hresult, hpp, hsource, rfl⟩
  | undefine name => exact ⟨rfl, h.undefine name, hsource, rfl⟩
  | isDefined name =>
    refine ⟨congrArg Answer.known ?_, h, hsource, rfl⟩
    rw [isDefined, isDefined, hlookup]
  | lookup name => exact ⟨congrArg Answer.found (hlookup name), h, hsource, rfl⟩
  | next =>
    obtain ⟨hstatement, hpp, hafter⟩ :=
      (Lockstep.nextStatement (L := Listed.lockstep σ) h hsource).resolve_left id
    obtain ⟨hwatched, -, hwsource, hseen⟩ := (Lockstep.nextStatement
      (L := (Listed.lockstep σ).watched fun hl => congrArg Locations.asm hl)
      (s := ⟨l, []⟩) (t := ⟨l', []⟩) h ⟨hsource, rfl⟩).resolve_left id
    refine ⟨congrArg Answer.statement hstatement, hpp, hafter, ?_⟩
    have hplace : LineSource.locations (pp.nextStatement (⟨l, []⟩ : Watched (Listed σ))).2.2 =
        LineSource.locations (pp'.nextStatement (⟨l', []⟩ : Watched (Listed σ))).2.2 :=
      congrArg (LineSource.locations (σ := σ)) hwsource
    show _ ++ _ = _ ++ _
    rw [hwatched, hseen, hplace]
  | source f => exact ⟨rfl, h, congrArg f hsource, rfl⟩
  | reset => exact ⟨rfl, .reset rfl h.log, hsource, rfl⟩

theorem answers_beside (h : Paired Eq old old' pp pp') {l l' : Listed σ}
    (hsource : l.source = l'.source) (requests : List (Request σ)) :
    (pp.answers l (requests.map .beside)).1 = (pp'.answers l' (requests.map .beside)).1 ∧
      Paired Eq old old' (pp.answers l (requests.map .beside)).2.1
        (pp'.answers l' (requests.map .beside)).2.1 ∧
      (pp.answers l (requests.map .beside)).2.2.source =
        (pp'.answers l' (requests.map .beside)).2.2.source ∧
      pp.occasions l (requests.map .beside) = pp'.occasions l' (requests.map .beside) := by
  induction requests generalizing pp pp' l l' with
  | nil => exact ⟨rfl, h, hsource, rfl⟩
  | cons request requests ih =>
    obtain ⟨hfirst, hpp, hafter, hoccasion⟩ := answer_beside h hsource request
    obtain ⟨hothers, hpaired, hlast, hoccasions⟩ := ih hpp hafter
    exact ⟨congrArg₂ List.cons hfirst hothers, hpaired, hlast,
      congrArg₂ (· ++ ·) hoccasion hoccasions⟩

/-- **The listing holds an entry for each event, and has no influence.**  Whatever is asked, with
a listing that takes some number of entries, or any number, beside the source: the answers, the
reports, the macros and what is left of the source are those of the run without it.  Written are
the first entries, one for each raw line that is handed out and each statement that is answered
in the run without it, with the place in the assembly text. -/
theorem listing_is_complete_and_silent (pp : Preprocessor) (src : σ) (capacity : Option Nat)
    (requests : List (Request σ)) :
    let plain := pp.answers (⟨src, none⟩ : Listed σ) (requests.map .beside)
    let kept := pp.answers (⟨src, some { capacity }⟩ : Listed σ) (requests.map .beside)
    kept.1 = plain.1 ∧ kept.2.1.log = plain.2.1.log ∧ kept.2.1.table = plain.2.1.table ∧
      kept.2.2.source = plain.2.2.source ∧
      kept.2.2.listing.map Listing.text = some (Listing.firstOf capacity
        ((pp.occasions (⟨src, none⟩ : Listed σ) (requests.map .beside)).map
          Occasion.entry)).flatten := by
  intro plain kept
  have hsame : (⟨src, some { capacity }⟩ : Listed σ).source = (⟨src, none⟩ : Listed σ).source := rfl
  obtain ⟨hanswers, hpaired, hsource, hoccasions⟩ :=
    answers_beside (Paired.self pp) hsame requests
  refine ⟨hanswers, ?_, hpaired.table, hsource, ?_⟩
  · obtain ⟨new, hnew, hnew'⟩ := hpaired.log.same
    exact congrArg Log.mk (hnew.trans hnew'.symm)
  · have hlisting := answers_listing pp (⟨src, some { capacity }⟩ : Listed σ) requests
    rw [hoccasions] at hlisting
    rw [hlisting]
    exact congrArg some (Listing.text_writeAll _ _)

end Requests

/-- A text with a definition and a line that uses it. -/
def listedSource : InputStack :=
  (({} : InputStack).push.openText "test.asm" (Text.ofString "#define A 1\nA\n")).2

/-- Both lines and the statement are in the listing, or as many of them as it can take. -/
theorem listing_is_complete_and_silent_of_macro :
    let kept (capacity : Option Nat) := (answers {} (⟨listedSource, some { capacity }⟩ : Listed _)
      ([.next, .next].map Request.beside)).2.2.listing.map Listing.text
    kept none = some (Text.ofString (";\tLINE 1, \"test.asm\"\n;\t#define A 1\n" ++
      ";\tLINE 2, \"test.asm\"\n;\tA\n" ++ "\tLINE 2, \"test.asm\"\n\t1\n")) ∧
    kept (some 2) = some (Text.ofString (";\tLINE 1, \"test.asm\"\n;\t#define A 1\n" ++
      ";\tLINE 2, \"test.asm\"\n;\tA\n")) := by
  intro kept
  have hentries : (occasions {} (⟨listedSource, none⟩ : Listed _)
      ([.next, .next].map Request.beside)).map Occasion.entry =
        [Text.ofString ";\tLINE 1, \"test.asm\"\n;\t#define A 1\n",
          Text.ofString ";\tLINE 2, \"test.asm\"\n;\tA\n",
          Text.ofString "\tLINE 2, \"test.asm\"\n\t1\n"] := by decide +kernel
  have hkept (capacity : Option Nat) : kept capacity = _ :=
    (listing_is_complete_and_silent {} listedSource capacity [.next, .next]).2.2.2.2
  rw [hkept, hkept, hentries]
  decide +kernel

end Preprocessor

end AsmPrep

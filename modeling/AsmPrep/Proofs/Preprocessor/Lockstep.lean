/-
Two sources that answer alike.

A preprocessor knows its source by the answers and the locations.  Over two sources with
the same answers, two preprocessors with the same macros make the same statements and the
same reports, whatever names they have seen.  The locations need not be the same: what is
asked of them here is only some relation that the sources keep up.

The first source may come to an end that the second one does not have.  Up to there all is
alike, and nothing is said of what comes after.
-/
import AsmPrep.Proofs.Preprocessor.Lines
import Mathlib.Data.List.Forall2

namespace AsmPrep

namespace Preprocessor

/-- The same report, with locations that go together. -/
def Reported (Near : Locations → Locations → Prop) (d d' : Diagnostic) : Prop :=
  d.fault = d'.fault ∧ Near d.locations d'.locations

/-- Since the logs were `old` and `old'`, the same was reported. -/
def Since (Near : Locations → Locations → Prop) (old old' entries entries' : List Diagnostic) :
    Prop :=
  ∃ new new', entries = old ++ new ∧ entries' = old' ++ new' ∧ List.Forall₂ (Reported Near) new new'

theorem Since.start {Near : Locations → Locations → Prop} (old old' : List Diagnostic) :
    Since Near old old' old old' :=
  ⟨[], [], (List.append_nil _).symm, (List.append_nil _).symm, .nil⟩

theorem Since.append {Near : Locations → Locations → Prop}
    {old old' entries entries' more more' : List Diagnostic}
    (h : Since Near old old' entries entries')
    (hmore : List.Forall₂ (Reported Near) more more') :
    Since Near old old' (entries ++ more) (entries' ++ more') := by
  obtain ⟨new, new', rfl, rfl, hnew⟩ := h
  exact ⟨new ++ more, new' ++ more', List.append_assoc .., List.append_assoc ..,
    List.rel_append hnew hmore⟩

/-- Apart from the locations, all that the one reported was added to what the other one had. -/
theorem Since.map_fault {Near : Locations → Locations → Prop}
    {old' entries entries' : List Diagnostic} (h : Since Near [] old' entries entries') :
    entries'.map (·.fault) = old'.map (·.fault) ++ entries.map (·.fault) := by
  obtain ⟨new, new', rfl, rfl, hall⟩ := h
  rw [List.map_append]
  congr 1
  induction hall with
  | nil => rfl
  | cons hfirst _ ih => rw [List.map_cons, List.map_cons, ih, hfirst.1]

/-- With the same locations, the same reports altogether. -/
theorem Since.same {old old' entries entries' : List Diagnostic}
    (h : Since Eq old old' entries entries') :
    ∃ new, entries = old ++ new ∧ entries' = old' ++ new := by
  have hsame : Reported Eq = Eq := by
    funext d d'
    refine propext ⟨?_, ?_⟩
    · rintro ⟨hfault, hlocations⟩
      cases d
      cases d'
      cases hfault
      cases hlocations
      rfl
    · rintro rfl
      exact ⟨rfl, rfl⟩
  obtain ⟨new, new', hnew, hnew', hall⟩ := h
  rw [hsame, List.forall₂_eq_eq_eq] at hall
  exact ⟨new, hnew, hall ▸ hnew'⟩

theorem Since.prefix_left {Near : Locations → Locations → Prop}
    {old old' entries entries' : List Diagnostic} (h : Since Near old old' entries entries') :
    old <+: entries := by
  obtain ⟨new, -, rfl, -, -⟩ := h
  exact List.prefix_append _ _

/-- Two preprocessors that go on in the same way. -/
structure Paired (Near : Locations → Locations → Prop) (old old' : List Diagnostic)
    (pp pp' : Preprocessor) : Prop where
  table : pp.table = pp'.table
  queue : pp.queue = pp'.queue
  inGroup : pp.inGroup = pp'.inGroup
  locations : Near pp.locations pp'.locations
  log : Since Near old old' pp.log.entries pp'.log.entries

namespace Paired

variable {Near : Locations → Locations → Prop} {old old' : List Diagnostic} {pp pp' : Preprocessor}

/-- A preprocessor goes together with itself. -/
theorem self (pp : Preprocessor) : Paired Eq pp.log.entries pp.log.entries pp pp :=
  ⟨rfl, rfl, rfl, rfl, .start _ _⟩

/-- It does whatever becomes of the locations. -/
theorem free (pp : Preprocessor) :
    Paired (fun _ _ => True) pp.log.entries pp.log.entries pp pp :=
  ⟨rfl, rfl, rfl, trivial, .start _ _⟩

theorem reportAll (h : Paired Near old old' pp pp') (faults : List Fault) :
    Since Near old old' (pp.log.reportAll faults pp.locations).entries
      (pp'.log.reportAll faults pp'.locations).entries := by
  refine h.log.append ?_
  induction faults with
  | nil => exact .nil
  | cons fault faults ih => exact .cons ⟨rfl, h.locations⟩ ih

theorem reportAt (h : Paired Near old old' pp pp') (fault : Fault) {l l' : Locations}
    (hl : Near l l') : Paired Near old old' (pp.reportAt fault l) (pp'.reportAt fault l') :=
  { h with log := h.log.append (.cons ⟨rfl, hl⟩ .nil) }

theorem report (h : Paired Near old old' pp pp') (fault : Fault) :
    Paired Near old old' (pp.report fault) (pp'.report fault) := h.reportAt fault h.locations

theorem withTable (h : Paired Near old old' pp pp') {names names' : Names.Pool}
    (table : MacroTable) :
    Paired Near old old' { pp with names, table } { pp' with names := names', table } :=
  { h with table := rfl }

theorem define (h : Paired Near old old' pp pp') (name value : String) :
    (pp.define name value).1 = (pp'.define name value).1 ∧
      Paired Near old old' (pp.define name value).2 (pp'.define name value).2 := by
  unfold Preprocessor.define
  dsimp only
  rw [← h.table]
  split
  · exact ⟨rfl, h.withTable _⟩
  · exact ⟨rfl, h.withTable _⟩

theorem undefine (h : Paired Near old old' pp pp') (name : String) :
    Paired Near old old' (pp.undefine name) (pp'.undefine name) := by
  unfold Preprocessor.undefine
  rw [h.table]
  exact h.withTable _

/-- Only its reports tell a preprocessor that was reset from another. -/
theorem reset (hnear : Near {} {}) (hlog : Since Near old old' pp.log.entries pp'.log.entries) :
    Paired Near old old' pp.reset pp'.reset where
  table := rfl
  queue := rfl
  inGroup := rfl
  locations := hnear
  log := hlog

theorem undefineFrom (h : Paired Near old old' pp pp') (text : Text) :
    Paired Near old old' (pp.undefineFrom text) (pp'.undefineFrom text) := by
  unfold Preprocessor.undefineFrom
  split
  · exact h.report _
  · exact h.undefine _

theorem expandLine (h : Paired Near old old' pp pp') (line : Text) :
    Paired Near old old' (pp.expandLine line) (pp'.expandLine line) := by
  unfold Preprocessor.expandLine
  rw [h.table, h.inGroup, h.queue]
  exact { table := rfl, queue := rfl, inGroup := rfl, locations := h.locations
          log := h.reportAll _ }

end Paired

end Preprocessor

open LineSource
open Preprocessor (Paired)

/-! ### Sources -/

/-- A relation between two sources that their answers keep up, for as long as the first of them
is not over. -/
structure Lockstep (σ τ : Type) [LineSource σ] [LineSource τ] where
  /-- The sources are going to answer alike. -/
  Alike : σ → τ → Prop
  /-- What the locations of the two have to do with each other. -/
  Near : Locations → Locations → Prop
  /-- The first source was asked for more than it has to do with the second. -/
  Over : σ → Prop
  near : ∀ {s t}, Alike s t → Near (locations s) (locations t)
  next : ∀ {s t}, Alike s t →
    Over (nextLine s).2 ∨ (nextLine s).1 = (nextLine t).1 ∧ Alike (nextLine s).2 (nextLine t).2
  record : ∀ {s t l l'} (entry : Location → Text), Alike s t → Near l l' →
    Alike (record (entry l.asm) s) (record (entry l'.asm) t)
  over_next : ∀ {s}, Over s → Over (nextLine s).2
  over_record : ∀ {s} (entry : Text), Over s → Over (LineSource.record entry s)

namespace Lockstep

/-- One and the same source on both sides. -/
def refl (σ : Type) [LineSource σ] : Lockstep σ σ where
  Alike := Eq
  Near := Eq
  Over _ := False
  near := by
    rintro s _ rfl
    rfl
  next := by
    rintro s _ rfl
    exact .inr ⟨rfl, rfl⟩
  record := by
    rintro s _ l _ entry rfl rfl
    rfl
  over_next := id
  over_record _ := id

variable {σ τ : Type} [LineSource σ] [LineSource τ] (L : Lockstep σ τ)

theorem over_served {s s' : σ} {n : Nat} (h : Served s n s') (hover : L.Over s) : L.Over s' := by
  induction h with
  | start => exact hover
  | request _ ih => exact L.over_next ih
  | entry text _ ih => exact L.over_record text ih

variable {L} {old old' : List Diagnostic} {pp pp' : Preprocessor} {s : σ} {t : τ}

/-! ### One line -/

variable (L) in
/-- A preprocessor and its source go together with those of the other side, or the first source
is over. -/
def Together (old old' : List Diagnostic) (a : Preprocessor × σ) (b : Preprocessor × τ) : Prop :=
  L.Over a.2 ∨ Paired L.Near old old' a.1 b.1 ∧ L.Alike a.2 b.2

variable (L) in
/-- The same answer from both sides, or the first source is over. -/
def Answered {α : Type} (old old' : List Diagnostic) (a : α × Preprocessor × σ)
    (b : α × Preprocessor × τ) : Prop :=
  L.Over a.2.2 ∨ a.1 = b.1 ∧ Paired L.Near old old' a.2.1 b.2.1 ∧ L.Alike a.2.2 b.2.2

theorem fetchLine (h : Paired L.Near old old' pp pp') (hs : L.Alike s t) :
    L.Answered old old' (pp.fetchLine s) (pp'.fetchLine t) := by
  rcases L.next hs with hover | ⟨hanswer, hnext⟩
  · refine .inl ?_
    unfold Preprocessor.fetchLine
    dsimp only
    split
    · exact L.over_record _ hover
    · exact hover
    · exact hover
  · have hnear := L.near hnext
    have hfetched : Paired L.Near old old'
        { pp with locations := LineSource.locations (nextLine s).2 }
        { pp' with locations := LineSource.locations (nextLine t).2 } :=
      { h with locations := hnear }
    refine .inr ?_
    unfold Preprocessor.fetchLine
    dsimp only
    rw [← hanswer]
    split
    · rename_i line _
      exact ⟨rfl, hfetched, L.record (Listing.rawEntry · line) hnext hnear⟩
    · exact ⟨rfl, hfetched, hnext⟩
    · rename_i fault _
      exact ⟨rfl, hfetched.report fault, hnext⟩

theorem readBody (h : Paired L.Near old old' pp pp') (hs : L.Alike s t) (text : Text) :
    L.Answered old old' (pp.readBody text s) (pp'.readBody text t) := by
  fun_induction Preprocessor.readBody pp text s generalizing pp' t with
  | case1 pp text s added hmore line pp₁ s₁ hf =>
    rename_i ih
    have hfetch := fetchLine h hs
    rw [hf] at hfetch
    rcases hfetch with hover | ⟨hanswer, hpp₁, hs₁⟩
    · obtain ⟨n, hn⟩ := Preprocessor.readBody_served pp₁ line s₁
      exact .inl (L.over_served hn hover)
    · obtain ⟨⟨answer, pp₂, t₁⟩, hf'⟩ : ∃ fetched, pp'.fetchLine t = fetched := ⟨_, rfl⟩
      rw [hf'] at hanswer hpp₁ hs₁
      obtain rfl : some line = answer := hanswer
      rw [Preprocessor.readBody_of_fetchLine hmore hf']
      rcases ih hpp₁ hs₁ with hover | ⟨hbody, hafter⟩
      · exact .inl hover
      · exact .inr ⟨congrArg (added.1 ++ ·) hbody, hafter⟩
  | case2 pp text s added hmore pp₁ s₁ =>
    rename_i hf
    have hfetch := fetchLine h hs
    rw [hf] at hfetch
    rcases hfetch with hover | ⟨hanswer, hafter⟩
    · exact .inl hover
    · obtain ⟨⟨answer, pp₂, t₁⟩, hf'⟩ : ∃ fetched, pp'.fetchLine t = fetched := ⟨_, rfl⟩
      rw [hf'] at hanswer hafter
      obtain rfl : none = answer := hanswer
      rw [Preprocessor.readBody_of_end hmore hf']
      exact .inr ⟨rfl, hafter⟩
  | case3 pp text s added =>
    rename_i hmore
    rw [Preprocessor.readBody_of_closed (by simpa using hmore)]
    exact .inr ⟨rfl, h, hs⟩

theorem readMacroText (h : Paired L.Near old old' pp pp') (hs : L.Alike s t) (text : Text) :
    L.Answered old old' (pp.readMacroText text s) (pp'.readMacroText text t) := by
  rcases readBody h hs (Text.skipBlanks text) with hover | ⟨hbody, hafter⟩
  · exact .inl hover
  · exact .inr ⟨congrArg Text.chomp hbody, hafter⟩

theorem defineFrom (h : Paired L.Near old old' pp pp') (hs : L.Alike s t) (text : Text) :
    L.Together old old' (pp.defineFrom text s) (pp'.defineFrom text t) := by
  unfold Preprocessor.defineFrom
  split
  · exact .inr ⟨h.report _, hs⟩
  · rename_i name rest _
    dsimp only
    rw [← h.table]
    split
    · refine .inr ⟨Paired.report ?_ _, hs⟩
      exact h.withTable _
    · rename_i table _
      split
      · exact .inr ⟨(h.withTable table).report _, hs⟩
      · rename_i rest' _
        rcases readMacroText (h.withTable table) hs rest' with hover | ⟨hbody, hpp, hsrc⟩
        · exact .inl hover
        · refine .inr ⟨?_, hsrc⟩
          dsimp only
          rw [hbody, hpp.table]
          exact hpp.withTable _

theorem continueFrom (h : Paired L.Near old old' pp pp') (hs : L.Alike s t) (text : Text) :
    L.Together old old' (pp.continueFrom text s) (pp'.continueFrom text t) := by
  unfold Preprocessor.continueFrom
  rw [← h.table]
  split
  · exact .inr ⟨h.report _, hs⟩
  · rcases readMacroText h hs text with hover | ⟨hbody, hpp, hsrc⟩
    · exact .inl hover
    · refine .inr ⟨?_, hsrc⟩
      dsimp only
      rw [hbody, hpp.table]
      exact hpp.withTable _

/-- **A raw line does the same on both sides**, with the lines that it takes in. -/
theorem processLine (h : Paired L.Near old old' pp pp') (hs : L.Alike s t) (line : Text) :
    L.Together old old' (pp.processLine line s) (pp'.processLine line t) := by
  unfold Preprocessor.processLine
  split
  · exact .inr ⟨h.expandLine line, hs⟩
  · exact defineFrom h hs _
  · exact .inr ⟨h.undefineFrom _, hs⟩
  · exact continueFrom h hs _
  · exact .inr ⟨h, hs⟩

/-! ### Statements -/

theorem fill (h : Paired L.Near old old' pp pp') (hs : L.Alike s t) :
    L.Together old old' (pp.fill s) (pp'.fill t) := by
  fun_induction Preprocessor.fill pp s generalizing pp' t with
  | case1 pp s hq pp₁ s₁ hf =>
    have hfetch := fetchLine h hs
    rw [hf] at hfetch
    rcases hfetch with hover | ⟨hanswer, hafter⟩
    · exact .inl hover
    · obtain ⟨⟨answer, pp₂, t₁⟩, hf'⟩ : ∃ fetched, pp'.fetchLine t = fetched := ⟨_, rfl⟩
      rw [hf'] at hanswer hafter
      obtain rfl : none = answer := hanswer
      rw [Preprocessor.fill_of_end (h.queue ▸ List.isEmpty_iff.1 hq) hf']
      exact .inr hafter
  | case2 pp s hq line pp₁ s₁ hf processed =>
    rename_i ih
    have hfetch := fetchLine h hs
    rw [hf] at hfetch
    rcases hfetch with hover | ⟨hanswer, hpp₁, hs₁⟩
    · obtain ⟨m, hm⟩ := Preprocessor.processLine_served pp₁ line s₁
      obtain ⟨n, hn⟩ := Preprocessor.fill_served processed.1 processed.2
      exact .inl (L.over_served (hm.trans hn) hover)
    · obtain ⟨⟨answer, pp₂, t₁⟩, hf'⟩ : ∃ fetched, pp'.fetchLine t = fetched := ⟨_, rfl⟩
      rw [hf'] at hanswer hpp₁ hs₁
      obtain rfl : some line = answer := hanswer
      rw [Preprocessor.fill_of_fetchLine (h.queue ▸ List.isEmpty_iff.1 hq) hf']
      rcases processLine hpp₁ hs₁ line with hover | ⟨hpp, hsrc⟩
      · obtain ⟨n, hn⟩ := Preprocessor.fill_served processed.1 processed.2
        exact .inl (L.over_served hn hover)
      · exact ih hpp hsrc
  | case3 pp s hq =>
    have hne : pp'.queue ≠ [] := by
      rw [← h.queue]
      simpa using hq
    rw [Preprocessor.fill_of_queue hne]
    exact .inr ⟨h, hs⟩

/-- **The next statement is the same on both sides.** -/
theorem nextStatement (h : Paired L.Near old old' pp pp') (hs : L.Alike s t) :
    L.Answered old old' (pp.nextStatement s) (pp'.nextStatement t) := by
  unfold Preprocessor.nextStatement
  rcases fill h hs with hover | ⟨hpp, hsrc⟩
  · refine .inl ?_
    dsimp only
    split
    · exact hover
    · exact L.over_record _ hover
  · refine .inr ?_
    dsimp only
    rw [← hpp.queue]
    split
    · exact ⟨rfl, hpp, hsrc⟩
    · rename_i statement others _
      exact ⟨rfl, { hpp with queue := rfl },
        L.record (Listing.statementEntry · statement) hsrc (L.near hsrc)⟩

end Lockstep

end AsmPrep

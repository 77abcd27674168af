/-
Ends and faults between the lines.

A source may give an end or a fault and then go on.  Where no macro text is being read, that is
noticed and does no more: what comes of the lines before it and of those after it is the same.

Where a macro text is being read, it is ended with what there is of it.  The run then goes on
behind it with fresh lines.

Whether a text is being read behind some answers is seen from a run over these answers alone: its
last line then asks for more than there is.
-/
import AsmPrep.Proofs.Preprocessor.Notices

namespace AsmPrep

open LineSource

namespace LineSource

theorem Reply.isLine_eq_false {answer : Reply} (h : ∀ line, answer ≠ .ok (some line)) :
    answer.isLine = false := by
  match answer with
  | .ok none => rfl
  | .ok (some line) => exact absurd rfl (h line)
  | .error fault => rfl

namespace Playback

/-- A source goes on like one that has fewer answers, until it has taken those. -/
def lockstepWithin (σ τ : Type) [LineSource σ] [Playback σ] [LineSource τ] [Playback τ]
    (more : List Reply) : Lockstep σ τ where
  Alike s t := left s = left t ++ more ∧ ended s = false ∧ ended t = false
  Near _ _ := True
  Over s := ended s = true ∨ (left s).length < more.length
  near _ := trivial
  next := by
    rintro s t ⟨hleft, hs, ht⟩
    cases hcons : left t with
    | nil =>
      rw [hcons, List.nil_append] at hleft
      cases more with
      | nil => exact .inl (.inl (nextLine_nil hleft).2.2)
      | cons answer others =>
        refine .inl (.inr ?_)
        rw [(nextLine_cons hleft).2.1]
        exact Nat.lt_succ_self _
    | cons answer others =>
      rw [hcons, List.cons_append] at hleft
      obtain ⟨hs₁, hs₂, hs₃⟩ := nextLine_cons hleft
      obtain ⟨ht₁, ht₂, ht₃⟩ := nextLine_cons hcons
      exact .inr ⟨hs₁.trans ht₁.symm, by rw [ht₂, hs₂], hs₃.trans hs, ht₃.trans ht⟩
  record := by
    rintro s t l l' entry ⟨hleft, hs, ht⟩ -
    exact ⟨by rw [left_record, left_record, hleft], by rw [ended_record, hs],
      by rw [ended_record, ht]⟩
  over_next := by
    rintro s hover
    cases hcons : left s with
    | nil => exact .inl (nextLine_nil hcons).2.2
    | cons answer others =>
      obtain ⟨-, hleft, hended⟩ := nextLine_cons hcons
      refine hover.imp hended.trans fun hlt => ?_
      rw [hcons, List.length_cons] at hlt
      rw [hleft]
      exact Nat.lt_of_succ_lt hlt
  over_record := by
    rintro s entry hover
    rw [ended_record, left_record]
    exact hover

end Playback

end LineSource

namespace Preprocessor

variable {pp pp' : Preprocessor}

/-! ### Texts that are being read -/

/-- Whether a macro text is being read behind these answers: whether the last line asks for more
answers than there are.  The statements that wait have nothing to do with it. -/
def pendingAfter (pp : Preprocessor) : List Reply → Bool
  | [] => false
  | .ok (some line) :: answers =>
    let made := processLine { pp with queue := [] } line (Feed.ofAnswers "" answers)
    made.2.ended || made.1.pendingAfter made.2.answers
  | _ :: answers => pendingAfter { pp with queue := [] } answers
termination_by answers => answers.length
decreasing_by
  · obtain ⟨n, hn⟩ := processLine_served { pp with queue := [] } line (Feed.ofAnswers "" answers)
    exact Nat.lt_succ_of_le (Playback.length_left_served hn)
  · exact Nat.lt_succ_self _

theorem pendingAfter_nil (pp : Preprocessor) : pp.pendingAfter [] = false := by rw [pendingAfter]

theorem pendingAfter_line (pp : Preprocessor) (line : Text) (answers : List Reply) :
    pp.pendingAfter (.ok (some line) :: answers) =
      ((processLine { pp with queue := [] } line (Feed.ofAnswers "" answers)).2.ended ||
        (processLine { pp with queue := [] } line (Feed.ofAnswers "" answers)).1.pendingAfter
          (processLine { pp with queue := [] } line (Feed.ofAnswers "" answers)).2.answers) := by
  rw [pendingAfter]

theorem pendingAfter_other {answer : Reply} (hanswer : answer.isLine = false)
    (pp : Preprocessor) (answers : List Reply) :
    pp.pendingAfter (answer :: answers) = pendingAfter { pp with queue := [] } answers := by
  match answer with
  | .ok none => rw [pendingAfter]; simp
  | .ok (some line) => exact absurd hanswer (by simp [Reply.isLine])
  | .error fault => rw [pendingAfter]; simp

theorem drained_eq (hq : pp.queue = []) : { pp with queue := [] } = pp := by
  cases pp
  cases hq
  rfl

/-- What is being read depends on the macros. -/
theorem pendingAfter_congr (h : Peer pp pp') (answers : List Reply) :
    pp.pendingAfter answers = pp'.pendingAfter answers := by
  fun_induction pendingAfter pp answers generalizing pp' with
  | case1 => exact (pendingAfter_nil pp').symm
  | case2 pp line answers made =>
    rename_i ih
    obtain ⟨-, hmade, hleft, hended⟩ := processLine_same h.drained line
      (Feed.ofAnswers "" answers)
    have hleft' : made.2.answers = (processLine { pp' with queue := [] } line
      (Feed.ofAnswers "" answers)).2.answers := hleft
    have hended' : made.2.ended = (processLine { pp' with queue := [] } line
      (Feed.ofAnswers "" answers)).2.ended := hended
    rw [pendingAfter_line, ← hended', ← hleft', ih hmade]
  | case3 pp answer answers hanswer ih =>
    rw [pendingAfter_other (Reply.isLine_eq_false hanswer)]
    exact ih h.drained

theorem pendingAfter_drained (pp : Preprocessor) (answers : List Reply) :
    pp.pendingAfter answers = pendingAfter { pp with queue := [] } answers := by
  match answers with
  | [] => rw [pendingAfter_nil, pendingAfter_nil]
  | .ok (some line) :: answers => rw [pendingAfter_line, pendingAfter_line]
  | .ok none :: answers => rw [pendingAfter_other rfl, pendingAfter_other rfl]
  | .error fault :: answers => rw [pendingAfter_other rfl, pendingAfter_other rfl]

/-! ### One run behind another -/

/-- What is noticed when more answers follow. -/
def behind (a : List Notice × Preprocessor) (back : List Reply) : List Notice × Preprocessor :=
  (a.2.come back).map (a.1 ++ ·) id

theorem Agree.behind {a b : List Notice × Preprocessor} (h : Agree a b) (back : List Reply) :
    Agree (behind a back) (behind b back) := by
  unfold Preprocessor.behind
  rw [h.1]
  exact (come_congr h.2 back).map _

theorem behind_map (notices : List Notice) (a : List Notice × Preprocessor) (back : List Reply) :
    behind (a.map (notices ++ ·) id) back = (behind a back).map (notices ++ ·) id := by
  simp [behind, Prod.map, List.append_assoc]

/-- A line that finds all it asks for takes the same of more answers. -/
theorem come_line_append (hq : pp.queue = []) {line : Text} {answers : List Reply}
    (hended : (pp.processLine line (Feed.ofAnswers "" answers)).2.ended = false)
    (back : List Reply) :
    let made := pp.processLine line (Feed.ofAnswers "" answers)
    Agree (pp.come (.ok (some line) :: (answers ++ back)))
        ((made.1.come (made.2.answers ++ back)).map (pp.reportsTo made.1 ++ ·) id) ∧
      pp.pendingAfter (.ok (some line) :: (answers ++ back)) =
        made.1.pendingAfter (made.2.answers ++ back) := by
  intro made
  rcases Lockstep.processLine (L := Playback.lockstepUpTo Feed Feed back)
    (s := Feed.ofAnswers "" answers) (t := Feed.ofAnswers "" (answers ++ back))
    (Paired.free pp) ⟨rfl, rfl, rfl⟩ line with hover | ⟨hmade, hleft, -, hends⟩
  · exact absurd (hover.symm.trans hended) (by simp)
  · constructor
    · refine (come_line hq line (answers ++ back)).trans ?_
      rw [← hmade.log.reportsTo_eq]
      exact (attend_congr hmade.peer.symm hleft hends).map _
    · have hfound : (processLine pp line (Feed.ofAnswers "" (answers ++ back))).2.answers =
          made.2.answers ++ back := hleft
      have hopen : (processLine pp line (Feed.ofAnswers "" (answers ++ back))).2.ended = false :=
        hends
      rw [pendingAfter_line, drained_eq hq, hopen, Bool.false_or, hfound]
      exact pendingAfter_congr hmade.peer.symm _

/-- A run over answers goes on behind the first of them as it would begin there. -/
def Divides (pp : Preprocessor) (front back : List Reply) : Prop :=
  Agree (pp.come (front ++ back)) (behind (pp.come front) back) ∧
    pp.pendingAfter (front ++ back) = (pp.come front).2.pendingAfter back

namespace Divides

variable {front back : List Reply}

/-- The statements that wait may be left out. -/
theorem of_drained (h : Divides { pp with queue := [] } front back) : Divides pp front back := by
  obtain ⟨hcome, hpending⟩ := h
  have hfront := come_of_queue pp front
  constructor
  · refine ((come_of_queue pp (front ++ back)).trans (hcome.map _)).trans ?_
    rw [← behind_map]
    exact (hfront.behind back).symm
  · rw [pendingAfter_drained, hpending]
    exact pendingAfter_congr hfront.2.symm back

theorem nil (hq : pp.queue = []) : Divides pp [] back := by
  have hnil := come_nil hq
  constructor
  · exact (hnil.behind back).symm
  · exact pendingAfter_congr hnil.2.symm back

theorem line (hq : pp.queue = []) {text : Text}
    (hended : (pp.processLine text (Feed.ofAnswers "" front)).2.ended = false)
    (h : Divides (pp.processLine text (Feed.ofAnswers "" front)).1
      (pp.processLine text (Feed.ofAnswers "" front)).2.answers back) :
    Divides pp (.ok (some text) :: front) back := by
  obtain ⟨hcome, hpending⟩ := come_line_append hq hended back
  obtain ⟨hfront, -⟩ := come_line_append hq hended []
  rw [List.append_nil, List.append_nil] at hfront
  constructor
  · refine (hcome.trans (h.1.map _)).trans ?_
    rw [← behind_map]
    exact (hfront.behind back).symm
  · rw [List.cons_append, hpending, h.2]
    exact pendingAfter_congr hfront.2.symm back

theorem other (hq : pp.queue = []) {answer : Reply} (hanswer : answer.isLine = false)
    (h : Divides pp front back) : Divides pp (answer :: front) back := by
  have hfront := come_other hq hanswer front
  constructor
  · refine ((come_other hq hanswer (front ++ back)).trans (h.1.map _)).trans ?_
    rw [← behind_map]
    exact (hfront.behind back).symm
  · rw [List.cons_append, pendingAfter_other hanswer, ← pendingAfter_drained, h.2]
    exact pendingAfter_congr hfront.2.symm back

end Divides

/-- **Behind answers that leave no text open, a run begins anew.** -/
theorem come_append {front : List Reply} (h : pp.pendingAfter front = false)
    (back : List Reply) : Divides pp front back := by
  fun_induction pendingAfter pp front with
  | case1 pp => exact .of_drained (.nil rfl)
  | case2 pp line answers made =>
    rename_i ih
    obtain ⟨hended, hafter⟩ := Bool.or_eq_false_iff.1 h
    exact .of_drained (.line rfl hended (ih hafter))
  | case3 pp answer answers hanswer ih =>
    exact .of_drained (.other rfl (Reply.isLine_eq_false hanswer) (ih h))

/-! ### Ends and faults put in -/

/-- What is noticed of ends and faults, and of the answers behind each of them. -/
def pieces (pp : Preprocessor) :
    List (Reply × List Reply) → List (List Notice × List Notice)
  | [] => []
  | (answer, own) :: parts =>
    (interruption answer, (pp.come own).1) :: (pp.come own).2.pieces parts

/-- **Ends and faults that are put in where no text is being read are noticed at their places.**
All else is noticed as without them. -/
theorem come_pieces (first : List Reply) (parts : List (Reply × List Reply))
    (hother : ∀ part ∈ parts, part.1.isLine = false)
    (hrest : ∀ k < parts.length,
      pp.pendingAfter (first ++ (parts.take k).flatMap (·.2)) = false) :
    ∃ last,
      Agree (pp.come (first ++ parts.flatMap (·.2)))
          ((pp.come first).1 ++ ((pp.come first).2.pieces parts).flatMap (·.2), last) ∧
        Agree (pp.come (first ++ parts.flatMap fun part => part.1 :: part.2))
          ((pp.come first).1 ++
            ((pp.come first).2.pieces parts).flatMap (fun piece => piece.1 ++ piece.2), last) := by
  induction parts generalizing pp first with
  | nil =>
    refine ⟨(pp.come first).2, ?_, ?_⟩
    · simp only [List.flatMap_nil, List.append_nil, pieces]
      exact .refl _
    · simp only [List.flatMap_nil, List.append_nil, pieces]
      exact .refl _
  | cons part parts ih =>
    obtain ⟨answer, own⟩ := part
    have hfirst : pp.pendingAfter first = false := by
      simpa using hrest 0 (Nat.succ_pos _)
    obtain ⟨last, hown, hput⟩ := ih own
      (fun part hp => hother part (List.mem_cons_of_mem _ hp)) fun k hk => by
        have hk' := hrest (k + 1) (Nat.succ_lt_succ hk)
        rw [List.take_succ_cons, List.flatMap_cons, (come_append hfirst _).2] at hk'
        exact hk'
    refine ⟨last, ?_, ?_⟩
    · rw [List.flatMap_cons, pieces, List.flatMap_cons]
      exact (come_append hfirst _).1.trans (hown.map _)
    · rw [List.flatMap_cons, pieces, List.flatMap_cons, List.append_assoc (interruption answer)]
      have hanswer := come_other (come_queue pp first) (hother _ List.mem_cons_self)
        (own ++ parts.flatMap fun part => part.1 :: part.2)
      exact (come_append hfirst _).1.trans ((hanswer.trans (hput.map _)).map _)

section Pieces

variable (pp) (parts : List (Reply × List Reply))

theorem statements_interruption (answer : Reply) :
    (interruption answer).filterMap Notice.statement? = [] := by
  match answer with
  | .ok _ => rfl
  | .error _ => rfl

theorem countP_interruption (answer : Reply) :
    (interruption answer).countP Notice.isNothing = 1 := by
  match answer with
  | .ok _ => rfl
  | .error _ => rfl

/-- No statement is lost or added. -/
theorem statements_pieces :
    ((pp.pieces parts).flatMap fun piece => piece.1 ++ piece.2).filterMap Notice.statement? =
      ((pp.pieces parts).flatMap (·.2)).filterMap Notice.statement? := by
  induction parts generalizing pp with
  | nil => rfl
  | cons part parts ih =>
    simp only [pieces, List.flatMap_cons, List.filterMap_append, statements_interruption, ih,
      List.nil_append]

/-- Each end or fault is once noticed as nothing. -/
theorem countP_pieces :
    ((pp.pieces parts).flatMap fun piece => piece.1 ++ piece.2).countP Notice.isNothing =
      ((pp.pieces parts).flatMap (·.2)).countP Notice.isNothing + parts.length := by
  induction parts generalizing pp with
  | nil => rfl
  | cons part parts ih =>
    simp only [pieces, List.flatMap_cons, List.countP_append, countP_interruption, ih,
      List.length_cons]
    omega

end Pieces

/-! ### The text that is being read -/

/-- `BeginsText pp line pp₁ params text`: the line begins the text of a macro.  `pp₁` is the
preprocessor that reads it, `params` are the parameters of the macro, and `text` is what stands
in the line of the text. -/
inductive BeginsText (pp : Preprocessor) (line : Text) : Preprocessor → List String → Text → Prop
  | define {text rest rest' : Text} {name : String} {table : MacroTable}
      (hline : Directive.ofLine? line = some (.define text))
      (hname : Directive.takeName? text = some (name, rest))
      (hdefine : pp.table.define? name = some table)
      (hparams : (Directive.params rest).rest? = some rest') :
      BeginsText pp line
        { pp with table, names := (pp.names.insert name).insertAll (Directive.params rest).names }
        (Directive.params rest).names rest'
  | continuation {text : Text} {m : Macro}
      (hline : Directive.ofLine? line = some (.continuation text))
      (htarget : pp.table.targetMacro? = some m) : BeginsText pp line pp [] text

section Texts

variable {σ : Type} [LineSource σ] {pp₁ : Preprocessor} {line text : Text} {params : List String}
  {src : σ}

/-- What is done with a line that begins a text. -/
theorem BeginsText.processLine (h : BeginsText pp line pp₁ params text) (src : σ) :
    pp.processLine line src =
      let read := pp₁.readMacroText text src
      ({ read.2.1 with
          table := read.2.1.table.updateTarget fun m => (m.addParams params).appendLine read.1 },
        read.2.2) := by
  unfold Preprocessor.processLine
  cases h with
  | define hline hname hdefine hparams =>
    rw [hline]
    dsimp only
    unfold defineFrom
    rw [hname]
    dsimp only
    rw [hdefine]
    dsimp only
    rw [hparams]
  | continuation hline htarget =>
    rw [hline]
    dsimp only
    unfold continueFrom
    rw [htarget]
    simp [Macro.addParams]

theorem BeginsText.log (h : BeginsText pp line pp₁ params text) : pp₁.log = pp.log := by
  cases h with
  | define => rfl
  | continuation => rfl

/-- Only such a line asks for further lines. -/
theorem exists_beginsText (h : (pp.processLine line src).2 ≠ src) :
    ∃ pp₁ params text, BeginsText pp line pp₁ params text := by
  unfold Preprocessor.processLine at h
  split at h
  · exact absurd rfl h
  · rename_i hline
    unfold defineFrom at h
    split at h
    · exact absurd rfl h
    · rename_i hname
      dsimp only at h
      split at h
      · exact absurd rfl h
      · rename_i hdefine
        split at h
        · exact absurd rfl h
        · rename_i hparams
          exact ⟨_, _, _, .define hline hname hdefine hparams⟩
  · exact absurd rfl h
  · rename_i hline
    unfold continueFrom at h
    split at h
    · exact absurd rfl h
    · rename_i htarget
      exact ⟨_, _, _, .continuation hline htarget⟩
  · exact absurd rfl h

variable [Playback σ]

/-- The text runs on in the next line. -/
def RunsOn (text : Text) : Prop := (Directive.bodyLine text).2 = true

/-- What is met in place of a line: the first of these answers, or the end when there are none. -/
def met (rest : List Reply) : List Fault := rest.head?.toList.flatMap Reply.faults

theorem fetchLine_of_rest {rest : List Reply} (pp : Preprocessor) (h : left src = rest)
    (hrest : ∀ answer ∈ rest.head?, answer.isLine = false) :
    ∃ locations src', pp.fetchLine src =
        (none, { pp with locations, log := pp.log.reportAll (met rest) locations }, src') ∧
      left src' = rest.tail ∧ ended src' = (rest.isEmpty || ended src) := by
  cases rest with
  | nil =>
    obtain ⟨locations, src', hfetch, hleft, hended⟩ := fetchLine_of_nil pp h
    refine ⟨locations, src', ?_, hleft, hended⟩
    rw [hfetch]
    simp [met, Log.reportAll]
  | cons answer others =>
    obtain ⟨locations, src', hfetch, hleft, hended⟩ := fetchLine_of_other pp h (hrest _ rfl)
    refine ⟨locations, src', ?_, hleft, hended⟩
    rw [hfetch]
    simp [met]

/-- A text is ended with what there is of it where no line comes. -/
theorem readBody_of_rest {more : List Text} {rest : List Reply} (pp : Preprocessor)
    (hon : ∀ line ∈ text :: more, RunsOn line) (h : left src = more.map (.ok ∘ some) ++ rest)
    (hrest : ∀ answer ∈ rest.head?, answer.isLine = false) :
    ∃ locations src', pp.readBody text src =
        ((text :: more).flatMap (Directive.bodyLine · |>.1),
          { pp with locations, log := pp.log.reportAll (met rest) locations }, src') ∧
      left src' = rest.tail ∧ ended src' = (rest.isEmpty || ended src) := by
  induction more generalizing pp text src with
  | nil =>
    obtain ⟨locations, src', hfetch, hafter⟩ := fetchLine_of_rest pp h hrest
    refine ⟨locations, src', ?_, hafter⟩
    rw [readBody_of_end (hon _ List.mem_cons_self) hfetch]
    simp
  | cons line more ih =>
    obtain ⟨fetched, src₁, hfetch, hleft, hended⟩ := fetchLine_of_line pp h
    obtain ⟨locations, src', hread, hafter, hends⟩ := ih { pp with locations := fetched }
      (fun line hl => hon line (List.mem_cons_of_mem _ hl)) hleft
    refine ⟨locations, src', ?_, hafter, hends.trans (by rw [hended])⟩
    rw [readBody_of_fetchLine (hon _ List.mem_cons_self) hfetch, hread]
    rfl

/-- A line that was fetched was the next answer. -/
theorem left_of_fetchLine_some {fetched : Preprocessor} {src' : σ}
    (h : pp.fetchLine src = (some line, fetched, src')) :
    left src = .ok (some line) :: left src' ∧ ended src' = ended src := by
  obtain ⟨hline, -, rfl⟩ := fetchLine_some h
  rw [Playback.left_record, Playback.ended_record]
  cases hleft : left src with
  | nil => exact absurd (hline.symm.trans (Playback.nextLine_nil hleft).1) (by simp)
  | cons answer others =>
    obtain ⟨hanswer, hothers, hended⟩ := Playback.nextLine_cons hleft
    exact ⟨by rw [hothers, ← hanswer, hline], hended⟩

/-- Only a source with no answers left is ended by a request. -/
theorem left_of_fetchLine_ended (hsrc : ended src = false)
    (h : ended (pp.fetchLine src).2.2 = true) : left src = [] := by
  have hnext : ended (nextLine src).2 = true := by
    unfold fetchLine at h
    dsimp only at h
    split at h
    · rw [← h, Playback.ended_record]
    · exact h
    · exact h
  cases hleft : left src with
  | nil => rfl
  | cons answer others =>
    exact absurd ((hsrc.symm.trans (Playback.nextLine_cons hleft).2.2.symm).trans hnext)
      Bool.false_ne_true

/-- A text that asks for more lines than there are runs on in all that there are. -/
theorem runsOn_of_ended (pp : Preprocessor) (text : Text) (src : σ) (hsrc : ended src = false)
    (h : ended (pp.readBody text src).2.2 = true) :
    ∃ more, left src = more.map (.ok ∘ some) ∧ ∀ line ∈ text :: more, RunsOn line := by
  fun_induction readBody pp text src with
  | case1 pp text src added hmore line pp₁ src₁ hfetch =>
    rename_i ih
    obtain ⟨hleft, hended⟩ := left_of_fetchLine_some hfetch
    obtain ⟨more, hmap, hon⟩ := ih (hended.trans hsrc) h
    refine ⟨line :: more, ?_, List.forall_mem_cons.2 ⟨hmore, hon⟩⟩
    rw [hleft, hmap]
    rfl
  | case2 pp text src added hmore pp₁ src₁ =>
    rename_i hfetch
    have hfetched : ended (pp.fetchLine src).2.2 = true := by rwa [hfetch]
    have hleft : left src = [] := left_of_fetchLine_ended hsrc hfetched
    exact ⟨[], hleft, List.forall_mem_singleton.2 hmore⟩
  | case3 pp text src added hmore => exact absurd (hsrc.symm.trans h) (by simp)

end Texts

/-- A text that is being read. -/
structure OpenText (pp : Preprocessor) where
  /-- What comes before the line that begins it. -/
  before : List Reply
  line : Text
  /-- The lines that it runs on in. -/
  more : List Text
  reader : Preprocessor
  params : List String
  text : Text
  rest : pp.pendingAfter before = false
  begins : BeginsText (pp.come before).2 line reader params text
  runsOn : ∀ line ∈ Text.skipBlanks text :: more, RunsOn line

namespace OpenText

variable (o : OpenText pp)

/-- The answers behind which it is being read. -/
def front : List Reply := o.before ++ .ok (some o.line) :: o.more.map (.ok ∘ some)

/-- What there is of the text. -/
def soFar : Text :=
  Text.chomp ((Text.skipBlanks o.text :: o.more).flatMap fun line => (Directive.bodyLine line).1)

/-- The macro has the text that there is. -/
def closed : Preprocessor :=
  { o.reader with
    table := o.reader.table.updateTarget fun m => (m.addParams o.params).appendLine o.soFar }

/-- The line that begins the text, over all that comes after it. -/
theorem processLine {rest : List Reply} (hrest : ∀ answer ∈ rest.head?, answer.isLine = false) :
    ∃ locations src',
      (pp.come o.before).2.processLine o.line
          (Feed.ofAnswers "" (o.more.map (.ok ∘ some) ++ rest)) =
        ({ o.closed with locations, log := (pp.come o.before).2.log.reportAll (met rest) locations },
          src') ∧
      left src' = rest.tail ∧ ended src' = rest.isEmpty := by
  obtain ⟨locations, src', hread, hleft, hended⟩ := readBody_of_rest o.reader
    o.runsOn (left_ofAnswers "" (o.more.map (.ok ∘ some) ++ rest)) hrest
  refine ⟨locations, src', ?_, hleft, hended.trans (Bool.or_false _)⟩
  rw [o.begins.processLine]
  unfold readMacroText
  rw [hread, o.begins.log]
  rfl

theorem closed_queue : o.closed.queue = [] := by
  have hq := come_queue pp o.before
  show o.reader.queue = []
  generalize o.reader = reader, o.params = params, o.begins = hbegins
  cases hbegins with
  | define => exact hq
  | continuation => exact hq

/-- **A text that is being read is ended by an end or a fault**, with what there is of it.  Then
the run goes on. -/
theorem come_append {rest : List Reply}
    (hrest : ∀ answer ∈ rest.head?, answer.isLine = false) :
    Agree (pp.come (o.front ++ rest)) ((o.closed.come rest.tail).map
      ((pp.come o.before).1 ++ (met rest).map .report ++ ·) id) := by
  obtain ⟨locations, src', hmade, hleft, hended⟩ := o.processLine hrest
  have hfront : o.front ++ rest =
      o.before ++ .ok (some o.line) :: (o.more.map (.ok ∘ some) ++ rest) := by
    rw [front, List.append_assoc, List.cons_append]
  let after : Preprocessor := { o.closed with
    locations, log := (pp.come o.before).2.log.reportAll (met rest) locations }
  have hreports : (pp.come o.before).2.reportsTo after = (met rest).map .report :=
    reportsTo_of_reportAll rfl
  have hrun : Agree (after.attend src') (o.closed.come rest.tail) := by
    have hpeer : Peer after o.closed := ⟨rfl, rfl, rfl⟩
    cases rest with
    | nil =>
      have hsame : Agree ([], after) ([], o.closed) := ⟨rfl, hpeer⟩
      have hnothing : Agree (after.attend src') ([], after) := attend_nil o.closed_queue hleft
      exact hnothing.trans
        (hsame.trans (come_nil o.closed_queue).symm)
    | cons answer others => exact attend_congr hpeer hleft hended
  have hline := come_line (come_queue pp o.before) o.line (o.more.map (.ok ∘ some) ++ rest)
  rw [hmade] at hline
  rw [hfront]
  refine (Preprocessor.come_append o.rest _).1.trans ((hline.map _).trans ?_)
  refine ⟨?_, hrun.2⟩
  show (pp.come o.before).1 ++ ((pp.come o.before).2.reportsTo after ++ (after.attend src').1) =
    (pp.come o.before).1 ++ (met rest).map .report ++ (o.closed.come rest.tail).1
  rw [hreports, hrun.1, List.append_assoc]

end OpenText

/-- The line after `before` asks for more answers than these. -/
structure AsksOn (pp : Preprocessor) (before : List Reply) (line : Text) (answers : List Reply) :
    Prop where
  rest : pp.pendingAfter before = false
  ended : ((pp.come before).2.processLine line (Feed.ofAnswers "" answers)).2.ended = true

namespace AsksOn

variable {before answers others : List Reply} {line text : Text}

/-- It depends on the macros. -/
theorem of_peer (hrest : pp.pendingAfter before = false) (hpeer : Peer (pp.come before).2 pp')
    (hended : (pp'.processLine line (Feed.ofAnswers "" answers)).2.ended = true) :
    AsksOn pp before line answers :=
  ⟨hrest, (processLine_same hpeer line (Feed.ofAnswers "" answers)).2.2.2.trans hended⟩

theorem of_drained (h : AsksOn { pp with queue := [] } before line answers) :
    AsksOn pp before line answers :=
  of_peer ((pendingAfter_drained pp before).trans h.rest) (come_of_queue pp before).2 h.ended

theorem nil (hq : pp.queue = [])
    (h : (pp.processLine line (Feed.ofAnswers "" answers)).2.ended = true) :
    AsksOn pp [] line answers :=
  of_peer (pendingAfter_nil pp) (come_nil hq).2 h

theorem other (hq : pp.queue = []) {answer : Reply} (hanswer : answer.isLine = false)
    (h : AsksOn pp before line answers) : AsksOn pp (answer :: before) line answers := by
  refine of_peer ?_ (come_other hq hanswer before).2 h.ended
  rw [pendingAfter_other hanswer, ← pendingAfter_drained, h.rest]

/-- The answers that a line takes are the same when there are others behind them. -/
theorem after_line (hq : pp.queue = [])
    (hended : (pp.processLine text (Feed.ofAnswers "" others)).2.ended = false)
    (h : AsksOn (pp.processLine text (Feed.ofAnswers "" others)).1 before line answers) :
    ∃ taken,
      others = taken ++ (pp.processLine text (Feed.ofAnswers "" others)).2.answers ∧
        AsksOn pp (.ok (some text) :: (taken ++ before)) line answers := by
  obtain ⟨n, hn⟩ := processLine_served pp text (Feed.ofAnswers "" others)
  have hafter : (pp.processLine text (Feed.ofAnswers "" others)).2.answers = others.drop n :=
    Playback.left_served hn
  have hothers : others =
      others.take n ++ (pp.processLine text (Feed.ofAnswers "" others)).2.answers := by
    rw [hafter, List.take_append_drop]
  refine ⟨others.take n, hothers, ?_⟩
  -- Of the answers that it takes nothing is left, and it does not ask for more.
  obtain ⟨hmade, hleft, -, hopen⟩ := (Lockstep.processLine
    (L := Playback.lockstepWithin Feed Feed
      (pp.processLine text (Feed.ofAnswers "" others)).2.answers)
    (s := Feed.ofAnswers "" others) (t := Feed.ofAnswers "" (others.take n))
    (Paired.free pp) ⟨hothers, rfl, rfl⟩ text).resolve_left fun hover =>
      hover.elim (fun hover => Bool.false_ne_true (hended.symm.trans hover)) (Nat.lt_irrefl _)
  have hnone : (pp.processLine text (Feed.ofAnswers "" (others.take n))).2.answers = [] :=
    List.self_eq_append_left.1 hleft
  obtain ⟨hcome, hpending⟩ := come_line_append hq hopen before
  rw [hnone, List.nil_append] at hcome hpending
  refine of_peer ?_ (hcome.2.trans (come_congr hmade.peer.symm before).2) h.ended
  rw [hpending, pendingAfter_congr hmade.peer.symm, h.rest]

end AsksOn

/-- A text is being read where a line asks for more than there is. -/
theorem exists_asksOn {front : List Reply} (h : pp.pendingAfter front = true) :
    ∃ before line answers, front = before ++ .ok (some line) :: answers ∧
      AsksOn pp before line answers := by
  fun_induction pendingAfter pp front with
  | case1 pp => exact absurd h (by simp)
  | case2 pp line answers made =>
    rename_i ih
    by_cases hended : made.2.ended = true
    · exact ⟨[], line, answers, rfl, .of_drained (.nil rfl hended)⟩
    · rw [Bool.not_eq_true] at hended
      rw [hended, Bool.false_or] at h
      obtain ⟨before, last, others, hsplit, hasks⟩ := ih h
      obtain ⟨taken, htaken, hline⟩ := AsksOn.after_line rfl hended hasks
      refine ⟨.ok (some line) :: (taken ++ before), last, others, ?_, .of_drained hline⟩
      rw [List.cons_append, List.append_assoc, ← hsplit, ← htaken]
  | case3 pp answer answers hanswer ih =>
    obtain ⟨before, line, others, rfl, hasks⟩ := ih h
    exact ⟨answer :: before, line, others, rfl,
      .of_drained (.other rfl (Reply.isLine_eq_false hanswer) hasks)⟩

/-- **A text is being read behind answers when a line begins it and goes on in all that follow.** -/
theorem pendingAfter_iff {front : List Reply} :
    pp.pendingAfter front = true ↔ ∃ o : OpenText pp, o.front = front := by
  constructor
  · intro h
    obtain ⟨before, line, answers, rfl, hasks⟩ := exists_asksOn h
    have hended := hasks.ended
    have hasked : ((pp.come before).2.processLine line (Feed.ofAnswers "" answers)).2 ≠
        Feed.ofAnswers "" answers := by
      intro hsame
      rw [hsame] at hended
      exact Bool.false_ne_true hended
    obtain ⟨reader, params, text, hbegins⟩ := exists_beginsText hasked
    rw [hbegins.processLine] at hended
    obtain ⟨more, hmore, hon⟩ := runsOn_of_ended reader (Text.skipBlanks text)
      (Feed.ofAnswers "" answers) rfl hended
    obtain rfl : answers = more.map (.ok ∘ some) := hmore
    exact ⟨⟨before, line, more, reader, params, text, hasks.rest, hbegins, hon⟩, rfl⟩
  · rintro ⟨o, rfl⟩
    have hnone : ∀ answer ∈ ([] : List Reply).head?, answer.isLine = false := by simp
    obtain ⟨locations, src', hmade, -, hended⟩ := o.processLine hnone
    rw [List.append_nil] at hmade
    have hdrained := drained_eq (come_queue pp o.before)
    have hends : src'.ended = true := hended
    rw [OpenText.front, (come_append o.rest _).2, pendingAfter_line, hdrained, hmade, hends,
      Bool.true_or]

/-! ### Over any source -/

/-- **Ends and faults lose no line.**  `t` gives what `s` gives, and ends and faults between it
where no text is being read.  Then the same statements are made, each end or fault is once
answered with nothing, and each fault is reported in its place; all other reports are the same.
Where a text is being read, an end or a fault ends it with what there is of it, and the run goes
on with the answers that come after. -/
theorem ends_and_faults_lose_no_line {σ τ : Type} [LineSource σ] [Playback σ] [LineSource τ]
    [Playback τ] (pp : Preprocessor) {s : σ} {t : τ} (hs : ended s = false)
    (ht : ended t = false) :
    (∀ (first : List Reply) (parts : List (Reply × List Reply)),
        (∀ part ∈ parts, part.1.isLine = false) →
        (∀ k < parts.length,
          pp.pendingAfter (first ++ (parts.take k).flatMap (·.2)) = false) →
        left s = first ++ parts.flatMap (·.2) →
        (left t = first ++ parts.flatMap fun part => part.1 :: part.2) →
        let without := (pp.attend s).1
        let given := (pp.attend t).1
        let pieces := (pp.come first).2.pieces parts
        without = (pp.come first).1 ++ pieces.flatMap (·.2) ∧
          given = (pp.come first).1 ++ pieces.flatMap (fun piece => piece.1 ++ piece.2) ∧
          given.filterMap Notice.statement? = without.filterMap Notice.statement? ∧
          given.countP Notice.isNothing = without.countP Notice.isNothing + parts.length ∧
          Peer (pp.attend s).2 (pp.attend t).2) ∧
      ∀ front rest : List Reply, pp.pendingAfter front = true →
        (∀ answer ∈ rest.head?, answer.isLine = false) → left t = front ++ rest →
        ∃ o : OpenText pp, o.front = front ∧
          (pp.attend t).1 =
            (pp.come o.before).1 ++ (met rest).map .report ++ (o.closed.come rest.tail).1 ∧
          Peer (pp.attend t).2 (o.closed.come rest.tail).2 := by
  constructor
  · intro first parts hother hrest hleft hgiven without given pieces
    obtain ⟨last, hown, hput⟩ := come_pieces first parts hother hrest
    have hwithout := (attend_agree (.refl pp) hleft hs).trans hown
    have hgiven := (attend_agree (.refl pp) hgiven ht).trans hput
    have hwithout₁ : without = (pp.come first).1 ++ pieces.flatMap (·.2) := hwithout.1
    have hgiven₁ : given =
        (pp.come first).1 ++ pieces.flatMap (fun piece => piece.1 ++ piece.2) := hgiven.1
    refine ⟨hwithout₁, hgiven₁, ?_, ?_, hwithout.2.trans hgiven.2.symm⟩
    · rw [hgiven₁, hwithout₁, List.filterMap_append, List.filterMap_append, statements_pieces]
    · rw [hgiven₁, hwithout₁, List.countP_append, List.countP_append, countP_pieces,
        Nat.add_assoc]
  · intro front rest hpending hother hleft
    obtain ⟨o, rfl⟩ := pendingAfter_iff.1 hpending
    obtain ⟨hnotices, hpeer⟩ := (attend_agree (.refl pp) hleft ht).trans (o.come_append hother)
    exact ⟨o, rfl, hnotices, hpeer⟩

/-- The text of a definition is ended by an end.  The fault behind it is reported, and the call in
the next line is read. -/
theorem call_behind_end_and_fault :
    let define : Reply := .ok (some (Text.ofString "#define A x \\\n"))
    let fault : Reply := .error (.cannotRead "a")
    let call : Reply := .ok (some (Text.ofString "A\n"))
    let without := ({} : Preprocessor).attend (Feed.ofAnswers "a" [define, .ok none, call])
    let given := ({} : Preprocessor).attend (Feed.ofAnswers "a" [define, .ok none, fault, call])
    given.1.filterMap Notice.statement? = without.1.filterMap Notice.statement? ∧
      given.1.countP Notice.isNothing = without.1.countP Notice.isNothing + 1 ∧
      ∃ o : OpenText {}, o.front = [define] ∧
        given.1 = (({} : Preprocessor).come o.before).1 ++ (o.closed.come [fault, call]).1 := by
  intro define fault call without given
  obtain ⟨hbetween, hreading⟩ := ends_and_faults_lose_no_line {}
    (s := Feed.ofAnswers "a" [define, .ok none, call])
    (t := Feed.ofAnswers "a" [define, .ok none, fault, call]) rfl rfl
  have hrest : pendingAfter {} [define, .ok none] = false := by decide +kernel
  have hopen : pendingAfter {} [define] = true := by decide +kernel
  obtain ⟨-, -, hstatements, hnothing, -⟩ := hbetween [define, .ok none] [(fault, [call])]
    (fun part hp => by rw [List.mem_singleton.1 hp]; rfl)
    (fun k hk => by rw [Nat.lt_one_iff.1 hk]; exact hrest) rfl rfl
  obtain ⟨o, hfront, hnotices, -⟩ := hreading [define] [.ok none, fault, call] hopen
    (fun answer ha => by rw [← Option.some.inj ha]; rfl) rfl
  refine ⟨hstatements, hnothing, o, hfront, ?_⟩
  simpa [met, Reply.faults] using hnotices

end Preprocessor

end AsmPrep

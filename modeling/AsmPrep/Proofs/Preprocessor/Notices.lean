/-
What a caller notices of a run.

A caller asks for one statement after the other and notices what it is answered, and what was
reported in the meantime.  Over a source whose answers are there from the beginning this goes on
until all of them are used up.

What is noticed depends on the answers, and not on anything else about the source: not on its
locations, nor on what it makes of the entries of a listing.  Nor does it depend on what was
reported before or on the names that were met.  So it is enough to say what answers come to, and
this can be said answer by answer: an end is noticed as nothing, a fault as a report and nothing,
and a raw line as its reports and then its statements.
-/
import AsmPrep.Proofs.Preprocessor.Lockstep
import AsmPrep.Source.Feed

namespace AsmPrep

namespace LineSource

/-- What a source answers to a request: a line, its end, or a fault. -/
abbrev Reply := Except Fault (Option Text)

namespace Reply

/-- Whether the answer is a line. -/
def isLine : Reply → Bool
  | .ok (some _) => true
  | _ => false

/-- The source's own fault. -/
def faults : Reply → List Fault
  | .error fault => [fault]
  | .ok _ => []

end Reply

/-- A source whose answers are there from the beginning.  Past the last one it gives its end.  What
its locations are and what it does with entries is left open. -/
class Playback (σ : Type) [LineSource σ] where
  /-- The answers still to give. -/
  left : σ → List Reply
  /-- Whether it was asked past the last of them. -/
  ended : σ → Bool
  nextLine_cons : ∀ {s : σ} {answer : Reply} {others : List Reply}, left s = answer :: others →
    (nextLine s).1 = answer ∧ left (nextLine s).2 = others ∧ ended (nextLine s).2 = ended s
  nextLine_nil : ∀ {s : σ}, left s = [] →
    (nextLine s).1 = .ok none ∧ left (nextLine s).2 = [] ∧ ended (nextLine s).2 = true
  left_record : ∀ (entry : Text) (s : σ), left (record entry s) = left s
  ended_record : ∀ (entry : Text) (s : σ), ended (record entry s) = ended s

export Playback (left ended)

instance : Playback Feed where
  left := Feed.answers
  ended := Feed.ended
  nextLine_cons := by
    rintro s answer others h
    show (Feed.next s).1 = _ ∧ (Feed.next s).2.answers = _ ∧ (Feed.next s).2.ended = _
    simp [Feed.next, h]
  nextLine_nil := by
    rintro s h
    show (Feed.next s).1 = _ ∧ (Feed.next s).2.answers = _ ∧ (Feed.next s).2.ended = _
    simp [Feed.next, h]
  left_record _ _ := rfl
  ended_record _ _ := rfl

theorem left_ofAnswers (name : String) (answers : List Reply) :
    left (Feed.ofAnswers name answers) = answers := rfl

namespace Playback

variable {σ τ : Type} [LineSource σ] [Playback σ] [LineSource τ] [Playback τ] {s t : σ} {n : Nat}

/-- Each request takes one answer. -/
theorem left_served (h : Served s n t) : left t = (left s).drop n := by
  induction h with
  | start => rfl
  | @request n t _ ih =>
    rw [← List.tail_drop, ← ih]
    cases ht : left t with
    | nil => exact (nextLine_nil ht).2.1
    | cons answer others => exact (nextLine_cons ht).2.1
  | entry text _ ih => exact (left_record text _).trans ih

theorem length_left_served (h : Served s n t) : (left t).length ≤ (left s).length := by
  rw [left_served h, List.length_drop]
  exact Nat.sub_le _ _

/-- A request takes an answer or ends the source. -/
theorem ended_or_lt (h : Served s n t) (hn : 0 < n) :
    ended t = true ∨ (left t).length < (left s).length := by
  induction h with
  | start => exact absurd hn (Nat.lt_irrefl 0)
  | @request n t h _ =>
    have hle := length_left_served h
    cases ht : left t with
    | nil => exact .inl (nextLine_nil ht).2.2
    | cons answer others =>
      refine .inr ?_
      rw [(nextLine_cons ht).2.1]
      rw [ht, List.length_cons] at hle
      omega
  | entry text _ ih =>
    rw [ended_record, left_record]
    exact ih hn

/-- Sources with the same answers go on in the same way. -/
def lockstep (σ τ : Type) [LineSource σ] [Playback σ] [LineSource τ] [Playback τ] :
    Lockstep σ τ where
  Alike s t := left s = left t ∧ ended s = ended t
  Near _ _ := True
  Over _ := False
  near _ := trivial
  next := by
    rintro s t ⟨hleft, hended⟩
    refine .inr ?_
    cases hs : left s with
    | nil =>
      obtain ⟨hs₁, hs₂, hs₃⟩ := nextLine_nil hs
      obtain ⟨ht₁, ht₂, ht₃⟩ := nextLine_nil (hleft.symm.trans hs)
      exact ⟨hs₁.trans ht₁.symm, hs₂.trans ht₂.symm, hs₃.trans ht₃.symm⟩
    | cons answer others =>
      obtain ⟨hs₁, hs₂, hs₃⟩ := nextLine_cons hs
      obtain ⟨ht₁, ht₂, ht₃⟩ := nextLine_cons (hleft.symm.trans hs)
      exact ⟨hs₁.trans ht₁.symm, hs₂.trans ht₂.symm, by rw [hs₃, ht₃, hended]⟩
  record := by
    rintro s t l l' entry ⟨hleft, hended⟩ -
    exact ⟨by rw [left_record, left_record, hleft], by rw [ended_record, ended_record, hended]⟩
  over_next := id
  over_record _ := id

/-- A source goes on like one that has more answers behind its own, up to its end. -/
def lockstepUpTo (σ τ : Type) [LineSource σ] [Playback σ] [LineSource τ] [Playback τ]
    (more : List Reply) : Lockstep σ τ where
  Alike s t := left t = left s ++ more ∧ ended s = false ∧ ended t = false
  Near _ _ := True
  Over s := ended s = true
  near _ := trivial
  next := by
    rintro s t ⟨hleft, hs, ht⟩
    cases hcons : left s with
    | nil => exact .inl (nextLine_nil hcons).2.2
    | cons answer others =>
      obtain ⟨hs₁, hs₂, hs₃⟩ := nextLine_cons hcons
      rw [hcons, List.cons_append] at hleft
      obtain ⟨ht₁, ht₂, ht₃⟩ := nextLine_cons hleft
      exact .inr ⟨hs₁.trans ht₁.symm, by rw [ht₂, hs₂], hs₃.trans hs, ht₃.trans ht⟩
  record := by
    rintro s t l l' entry ⟨hleft, hs, ht⟩ -
    exact ⟨by rw [left_record, left_record, hleft], by rw [ended_record, hs],
      by rw [ended_record, ht]⟩
  over_next := by
    rintro s hs
    cases hcons : left s with
    | nil => exact (nextLine_nil hcons).2.2
    | cons answer others => exact (nextLine_cons hcons).2.2.trans hs
  over_record := by
    rintro s entry hs
    rw [ended_record]
    exact hs

end Playback

end LineSource

open LineSource

/-- What a caller notices. -/
inductive Notice where
  | statement (text : Text)
  /-- There was no statement to be had. -/
  | nothing
  | report (fault : Fault)

namespace Notice

def statement? : Notice → Option Text
  | statement text => some text
  | _ => none

def isNothing : Notice → Bool
  | nothing => true
  | _ => false

end Notice

namespace Preprocessor

/-! ### One request -/

/-- What was reported on the way from one state to another. -/
def reportsTo (pp pp' : Preprocessor) : List Notice :=
  (pp'.log.entries.drop pp.log.entries.length).map fun d => .report d.fault

section Log

variable {σ : Type} [LineSource σ] {pp pp' pp'' : Preprocessor}

theorem reportsTo_self (h : pp'.log = pp.log) : pp.reportsTo pp' = [] := by
  rw [reportsTo, h, List.drop_length, List.map_nil]

theorem reportsTo_append {new : List Diagnostic}
    (h : pp'.log.entries = pp.log.entries ++ new) :
    pp.reportsTo pp' = new.map fun d => .report d.fault := by
  rw [reportsTo, h, List.drop_left]

theorem reportsTo_of_reportAll {faults : List Fault} {locations : Locations}
    (h : pp'.log = pp.log.reportAll faults locations) : pp.reportsTo pp' = faults.map .report := by
  have hentries : pp'.log.entries = pp.log.entries ++ faults.map (⟨·, locations⟩) :=
    congrArg Log.entries h
  rw [reportsTo_append hentries, List.map_map]
  rfl

theorem reportsTo_trans (h : pp.log.entries <+: pp'.log.entries)
    (h' : pp'.log.entries <+: pp''.log.entries) :
    pp.reportsTo pp'' = pp.reportsTo pp' ++ pp'.reportsTo pp'' := by
  obtain ⟨new, hnew⟩ := h
  obtain ⟨more, hmore⟩ := h'
  have hboth : pp''.log.entries = pp.log.entries ++ (new ++ more) := by
    rw [← hmore, ← hnew, List.append_assoc]
  rw [reportsTo_append hnew.symm, reportsTo_append hmore.symm, reportsTo_append hboth,
    List.map_append]

/-- Reports are only ever added. -/
theorem processLine_log (pp : Preprocessor) (line : Text) (src : σ) :
    pp.log.entries <+: (pp.processLine line src).1.log.entries :=
  ((Lockstep.processLine (L := Lockstep.refl σ) (Paired.self pp) rfl line).resolve_left
    id).1.log.prefix_left

theorem nextStatement_log (pp : Preprocessor) (src : σ) :
    pp.log.entries <+: (pp.nextStatement src).2.1.log.entries :=
  ((Lockstep.nextStatement (L := Lockstep.refl σ) (Paired.self pp) rfl).resolve_left
    id).2.1.log.prefix_left

end Log

/-! ### All requests -/

section Attend

variable {σ : Type} [LineSource σ] [Playback σ]

/-- All that is noticed until the answers are used up, and the state in the end.  That the request
past the last answer gets nothing is left out. -/
def attend (pp : Preprocessor) (src : σ) : List Notice × Preprocessor :=
  match _ : pp.nextStatement src with
  | (some statement, pp', src') =>
    (pp'.attend src').map (pp.reportsTo pp' ++ .statement statement :: ·) id
  | (none, pp', src') =>
    if ended src' then (pp.reportsTo pp', pp')
    else (pp'.attend src').map (pp.reportsTo pp' ++ .nothing :: ·) id
termination_by ((left src).length, remaining src, pp.queue.length)
decreasing_by
  · rename_i h
    obtain ⟨n, hn⟩ := nextStatement_served pp src
    rw [h] at hn
    rcases Nat.lt_or_eq_of_le (Playback.length_left_served hn) with hlt | heq
    · exact Prod.Lex.left _ _ hlt
    · rw [heq]
      exact Prod.Lex.right _ (nextStatement_less h)
  · rename_i h hended
    obtain ⟨n, hn⟩ := nextStatement_none h
    exact Prod.Lex.left _ _
      ((Playback.ended_or_lt hn (Nat.succ_pos n)).resolve_left (by simpa using hended))

variable {pp pp' : Preprocessor} {src src' : σ}

theorem attend_of_some {statement : Text}
    (h : pp.nextStatement src = (some statement, pp', src')) :
    pp.attend src = (pp'.attend src').map (pp.reportsTo pp' ++ .statement statement :: ·) id := by
  rw [attend]
  split
  · rename_i h'
    obtain ⟨hstatement, rfl, rfl⟩ : _ ∧ _ ∧ _ := by simpa only [Prod.mk.injEq] using h.symm.trans h'
    rw [Option.some.inj hstatement]
  · rename_i h'
    exact absurd (h.symm.trans h') (by simp)

theorem attend_of_none (h : pp.nextStatement src = (none, pp', src')) :
    pp.attend src = if ended src' then (pp.reportsTo pp', pp')
      else (pp'.attend src').map (pp.reportsTo pp' ++ .nothing :: ·) id := by
  rw [attend]
  split
  · rename_i h'
    exact absurd (h.symm.trans h') (by simp)
  · rename_i h'
    obtain ⟨-, rfl, rfl⟩ : _ ∧ _ ∧ _ := by simpa only [Prod.mk.injEq] using h.symm.trans h'
    rfl

/-! ### What it depends on -/

/-- The same macros, and the same statements waiting.  The reports, the names and the locations
may differ. -/
structure Peer (pp pp' : Preprocessor) : Prop where
  table : pp.table = pp'.table
  queue : pp.queue = pp'.queue
  inGroup : pp.inGroup = pp'.inGroup

/-- The same is noticed, and what is left is the same. -/
def Agree (a b : List Notice × Preprocessor) : Prop := a.1 = b.1 ∧ Peer a.2 b.2

namespace Peer

theorem refl (pp : Preprocessor) : Peer pp pp := ⟨rfl, rfl, rfl⟩

theorem symm (h : Peer pp pp') : Peer pp' pp := ⟨h.table.symm, h.queue.symm, h.inGroup.symm⟩

theorem trans {pp'' : Preprocessor} (h : Peer pp pp') (h' : Peer pp' pp'') : Peer pp pp'' :=
  ⟨h.table.trans h'.table, h.queue.trans h'.queue, h.inGroup.trans h'.inGroup⟩

theorem paired (h : Peer pp pp') :
    Paired (fun _ _ => True) pp.log.entries pp'.log.entries pp pp' :=
  ⟨h.table, h.queue, h.inGroup, trivial, .start _ _⟩

/-- With nothing waiting in either. -/
theorem drained (h : Peer pp pp') : Peer { pp with queue := [] } { pp' with queue := [] } :=
  ⟨h.table, rfl, h.inGroup⟩

end Peer

theorem Paired.peer {Near : Locations → Locations → Prop} {old old' : List Diagnostic}
    (h : Paired Near old old' pp pp') : Peer pp pp' := ⟨h.table, h.queue, h.inGroup⟩

namespace Agree

variable {a b c : List Notice × Preprocessor}

theorem refl (a : List Notice × Preprocessor) : Agree a a := ⟨rfl, .refl _⟩

theorem symm (h : Agree a b) : Agree b a := ⟨h.1.symm, h.2.symm⟩

theorem trans (h : Agree a b) (h' : Agree b c) : Agree a c := ⟨h.1.trans h'.1, h.2.trans h'.2⟩

theorem map (h : Agree a b) (f : List Notice → List Notice) :
    Agree (a.map f id) (b.map f id) := ⟨congrArg f h.1, h.2⟩

end Agree

/-- Since two states, the same was reported. -/
theorem Since.reportsTo_eq {Near : Locations → Locations → Prop} {pp₁ pp₁' : Preprocessor}
    (h : Since Near pp.log.entries pp'.log.entries pp₁.log.entries pp₁'.log.entries) :
    pp.reportsTo pp₁ = pp'.reportsTo pp₁' := by
  obtain ⟨new, new', hnew, hnew', hall⟩ := h
  rw [reportsTo_append hnew, reportsTo_append hnew']
  clear hnew hnew'
  induction hall with
  | nil => rfl
  | cons hfirst _ ih => rw [List.map_cons, List.map_cons, hfirst.1, ih]

/-- One raw line. -/
theorem processLine_peer {τ : Type} [LineSource τ] [Playback τ] {t : τ} (h : Peer pp pp')
    (hleft : left src = left t) (hended : ended src = ended t) (line : Text) :
    pp.reportsTo (pp.processLine line src).1 = pp'.reportsTo (pp'.processLine line t).1 ∧
      Peer (pp.processLine line src).1 (pp'.processLine line t).1 ∧
      left (pp.processLine line src).2 = left (pp'.processLine line t).2 ∧
      ended (pp.processLine line src).2 = ended (pp'.processLine line t).2 := by
  obtain ⟨hpaired, hleft', hended'⟩ := (Lockstep.processLine
    (L := Playback.lockstep σ τ) h.paired ⟨hleft, hended⟩ line).resolve_left id
  exact ⟨hpaired.log.reportsTo_eq, hpaired.peer, hleft', hended'⟩

theorem processLine_same (h : Peer pp pp') (line : Text) (src : σ) :
    pp.reportsTo (pp.processLine line src).1 = pp'.reportsTo (pp'.processLine line src).1 ∧
      Peer (pp.processLine line src).1 (pp'.processLine line src).1 ∧
      left (pp.processLine line src).2 = left (pp'.processLine line src).2 ∧
      ended (pp.processLine line src).2 = ended (pp'.processLine line src).2 :=
  processLine_peer h rfl rfl line

/-- One request. -/
theorem nextStatement_peer {τ : Type} [LineSource τ] [Playback τ] {t : τ} (h : Peer pp pp')
    (hleft : left src = left t) (hended : ended src = ended t) :
    (pp.nextStatement src).1 = (pp'.nextStatement t).1 ∧
      pp.reportsTo (pp.nextStatement src).2.1 = pp'.reportsTo (pp'.nextStatement t).2.1 ∧
      Peer (pp.nextStatement src).2.1 (pp'.nextStatement t).2.1 ∧
      left (pp.nextStatement src).2.2 = left (pp'.nextStatement t).2.2 ∧
      ended (pp.nextStatement src).2.2 = ended (pp'.nextStatement t).2.2 := by
  obtain ⟨hanswer, hpaired, hleft', hended'⟩ := (Lockstep.nextStatement
    (L := Playback.lockstep σ τ) h.paired ⟨hleft, hended⟩).resolve_left id
  exact ⟨hanswer, hpaired.log.reportsTo_eq, hpaired.peer, hleft', hended'⟩

/-- **What is noticed depends on the answers of the source, and on nothing else about it.** -/
theorem attend_congr {τ : Type} [LineSource τ] [Playback τ] {t : τ} (h : Peer pp pp')
    (hleft : left src = left t) (hended : ended src = ended t) :
    Agree (pp.attend src) (pp'.attend t) := by
  fun_induction attend pp src generalizing pp' t with
  | case1 pp src statement pp₁ src₁ hnext ih =>
    obtain ⟨hanswer, hreports, hpeer, hleft₁, hended₁⟩ := nextStatement_peer h hleft hended
    rw [hnext] at hanswer hreports hpeer hleft₁ hended₁
    rw [attend_of_some (Prod.ext hanswer.symm rfl), hreports]
    exact (ih hpeer hleft₁ hended₁).map _
  | case2 pp src pp₁ src₁ hnext hover =>
    obtain ⟨hanswer, hreports, hpeer, -, hended₁⟩ := nextStatement_peer h hleft hended
    rw [hnext] at hanswer hreports hpeer hended₁
    rw [attend_of_none (Prod.ext hanswer.symm rfl), if_pos (hended₁.symm.trans hover), hreports]
    exact ⟨rfl, hpeer⟩
  | case3 pp src pp₁ src₁ hnext hover ih =>
    obtain ⟨hanswer, hreports, hpeer, hleft₁, hended₁⟩ := nextStatement_peer h hleft hended
    rw [hnext] at hanswer hreports hpeer hleft₁ hended₁
    rw [attend_of_none (Prod.ext hanswer.symm rfl), if_neg (fun hover' => hover
      (hended₁.trans hover')), hreports]
    exact (ih hpeer hleft₁ hended₁).map _

/-! ### Answer by answer -/

/-- A line that is fetched is taken from the answers. -/
theorem fetchLine_of_line {line : Text} {others : List Reply} (pp : Preprocessor)
    (h : left src = .ok (some line) :: others) :
    ∃ locations src', pp.fetchLine src = (some line, { pp with locations }, src') ∧
      left src' = others ∧ ended src' = ended src := by
  obtain ⟨hline, hleft, hended⟩ := Playback.nextLine_cons h
  refine ⟨LineSource.locations (nextLine src).2, record (Listing.rawEntry
    (LineSource.locations (nextLine src).2).asm line) (nextLine src).2, ?_, ?_, ?_⟩
  · unfold fetchLine
    dsimp only
    rw [hline]
  · rw [Playback.left_record, hleft]
  · rw [Playback.ended_record, hended]

/-- Another answer is taken as well, and a fault is reported. -/
theorem fetchLine_of_other {answer : Reply} {others : List Reply} (pp : Preprocessor)
    (h : left src = answer :: others) (hanswer : answer.isLine = false) :
    ∃ locations src', pp.fetchLine src =
        (none, { pp with locations, log := pp.log.reportAll answer.faults locations }, src') ∧
      left src' = others ∧ ended src' = ended src := by
  obtain ⟨hnext, hleft, hended⟩ := Playback.nextLine_cons h
  refine ⟨LineSource.locations (nextLine src).2, (nextLine src).2, ?_, hleft, hended⟩
  unfold fetchLine
  dsimp only
  rw [hnext]
  match answer with
  | .ok none =>
    show (none, _, _) = (none, _, _)
    simp [Reply.faults, Log.reportAll]
  | .ok (some line) => exact absurd hanswer (by simp [Reply.isLine])
  | .error fault => rfl

/-- Past the last answer nothing is fetched. -/
theorem fetchLine_of_nil (pp : Preprocessor) (h : left src = []) :
    ∃ locations src', pp.fetchLine src = (none, { pp with locations }, src') ∧
      left src' = [] ∧ ended src' = true := by
  obtain ⟨hnext, hleft, hended⟩ := Playback.nextLine_nil h
  refine ⟨LineSource.locations (nextLine src).2, (nextLine src).2, ?_, hleft, hended⟩
  unfold fetchLine
  dsimp only
  rw [hnext]

/-- The statements that wait are noticed first. -/
theorem attend_of_queue (pp : Preprocessor) (src : σ) :
    pp.attend src = (attend { pp with queue := [] } (handedOver pp.queue src)).map
      (pp.queue.map .statement ++ ·) id := by
  generalize hq : pp.queue = queue
  induction queue generalizing pp src with
  | nil =>
    cases pp
    cases hq
    rfl
  | cons statement others ih =>
    have hself : pp.reportsTo { pp with queue := others } = [] := reportsTo_self rfl
    rw [attend_of_some (nextStatement_of_queue hq src), ih _ _ rfl, hself]
    rfl

theorem left_handedOver (queue : List Text) (src : σ) :
    left (handedOver queue src) = left src ∧ ended (handedOver queue src) = ended src := by
  unfold handedOver
  induction queue generalizing src with
  | nil => exact ⟨rfl, rfl⟩
  | cons statement others ih =>
    rw [List.foldl_cons]
    exact ⟨(ih _).1.trans (Playback.left_record _ _), (ih _).2.trans (Playback.ended_record _ _)⟩

/-- What answers come to: all that is noticed of them, and the state behind them. -/
def come (pp : Preprocessor) (answers : List Reply) : List Notice × Preprocessor :=
  pp.attend (Feed.ofAnswers "" answers)

theorem attend_agree (h : Peer pp pp') {answers : List Reply} (hleft : left src = answers)
    (hended : ended src = false) : Agree (pp.attend src) (pp'.come answers) :=
  attend_congr h hleft hended

theorem come_congr (h : Peer pp pp') (answers : List Reply) :
    Agree (pp.come answers) (pp'.come answers) := attend_congr h rfl rfl

/-- In the end no statement waits. -/
theorem attend_queue (pp : Preprocessor) (src : σ) : (pp.attend src).2.queue = [] := by
  fun_induction attend pp src with
  | case1 pp src statement pp₁ src₁ hnext ih => exact ih
  | case2 pp src pp₁ src₁ hnext hover =>
    show pp₁.queue = []
    unfold nextStatement at hnext
    dsimp only at hnext
    split at hnext
    · rename_i hq
      obtain ⟨-, rfl, -⟩ : _ ∧ _ ∧ _ := by simpa only [Prod.mk.injEq] using hnext
      exact hq
    · exact absurd hnext (by simp)
  | case3 pp src pp₁ src₁ hnext hover ih => exact ih

theorem come_queue (pp : Preprocessor) (answers : List Reply) : (pp.come answers).2.queue = [] :=
  attend_queue pp _

/-- The statements that wait come before the answers. -/
theorem come_of_queue (pp : Preprocessor) (answers : List Reply) :
    Agree (pp.come answers)
      ((come { pp with queue := [] } answers).map (pp.queue.map .statement ++ ·) id) := by
  unfold come
  rw [attend_of_queue]
  obtain ⟨hleft, hended⟩ := left_handedOver pp.queue (Feed.ofAnswers "" answers)
  exact (attend_congr (.refl _) hleft hended).map _

/-- Without answers nothing is noticed. -/
theorem attend_nil (hq : pp.queue = []) (hleft : left src = []) :
    Agree (pp.attend src) ([], pp) := by
  obtain ⟨locations, src', hfetch, -, hended⟩ := fetchLine_of_nil pp hleft
  rw [attend_of_none (nextStatement_of_end hq hfetch), if_pos hended]
  exact ⟨reportsTo_self rfl, rfl, rfl, rfl⟩

theorem come_nil (hq : pp.queue = []) : Agree (pp.come []) ([], pp) := attend_nil hq rfl

/-- What an end or a fault is noticed as. -/
def interruption (answer : Reply) : List Notice := answer.faults.map .report ++ [.nothing]

/-- **An end or a fault in place of a line is noticed, and does no more.** -/
theorem come_other {answer : Reply} (hq : pp.queue = []) (hanswer : answer.isLine = false)
    (others : List Reply) :
    Agree (pp.come (answer :: others)) ((pp.come others).map (interruption answer ++ ·) id) := by
  obtain ⟨locations, src', hfetch, hleft, hended⟩ :=
    fetchLine_of_other pp (left_ofAnswers "" (answer :: others)) hanswer
  have hreports : pp.reportsTo
      { pp with locations, log := pp.log.reportAll answer.faults locations } =
      answer.faults.map .report := reportsTo_of_reportAll rfl
  have hgo : ended src' = false := hended
  rw [come, attend_of_none (nextStatement_of_end hq hfetch), hgo, hreports]
  have hpeer : Peer { pp with locations, log := pp.log.reportAll answer.faults locations } pp :=
    ⟨rfl, rfl, rfl⟩
  have hothers := attend_agree hpeer hleft hgo
  refine ⟨?_, hothers.2⟩
  show _ ++ Notice.nothing :: _ = interruption answer ++ (pp.come others).1
  rw [hothers.1, interruption, List.append_assoc]
  rfl

/-- A request that another preprocessor answers is noticed with the reports up to there. -/
theorem attend_of_nextStatement (h : pp.nextStatement src = pp'.nextStatement src')
    (hlog : pp.log.entries <+: pp'.log.entries) :
    pp.attend src = (pp'.attend src').map (pp.reportsTo pp' ++ ·) id := by
  obtain ⟨⟨answer, pp₁, src₁⟩, hnext⟩ : ∃ given, pp'.nextStatement src' = given := ⟨_, rfl⟩
  have hreports : pp.reportsTo pp₁ = pp.reportsTo pp' ++ pp'.reportsTo pp₁ :=
    reportsTo_trans hlog (by simpa only [hnext] using nextStatement_log pp' src')
  cases answer with
  | some statement =>
    rw [attend_of_some hnext, attend_of_some (h.trans hnext), hreports]
    simp [Prod.map]
  | none =>
    rw [attend_of_none hnext, attend_of_none (h.trans hnext), hreports]
    split
    · rfl
    · simp [Prod.map]

/-- **A raw line is noticed by what is reported about it, and then the run goes on.** -/
theorem come_line (hq : pp.queue = []) (line : Text) (others : List Reply) :
    let made := pp.processLine line (Feed.ofAnswers "" others)
    Agree (pp.come (.ok (some line) :: others))
      ((made.1.attend made.2).map (pp.reportsTo made.1 ++ ·) id) := by
  intro made
  obtain ⟨locations, src', hfetch, hleft, hended⟩ :=
    fetchLine_of_line pp (left_ofAnswers "" (.ok (some line) :: others))
  -- Only the locations tell what was fetched from what is looked at here.
  have hpeer : Peer { pp with locations } pp := ⟨rfl, rfl, rfl⟩
  obtain ⟨hreports, hmade, hanswers, hends⟩ :=
    processLine_peer (t := Feed.ofAnswers "" others) hpeer hleft hended line
  unfold come
  rw [attend_of_nextStatement (nextStatement_congr (fill_of_fetchLine hq hfetch))
    (processLine_log { pp with locations } line src')]
  have hsame : pp.reportsTo (processLine { pp with locations } line src').1 =
      pp.reportsTo made.1 := hreports
  rw [hsame]
  exact (attend_congr hmade hanswers hends).map _

end Attend

end Preprocessor

end AsmPrep

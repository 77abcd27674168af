/-
Interned names.

Handles are compared where texts are meant.  That this comes to the same rests on two facts: a
pool has every text once, and a text that is taken in comes at the end.  So a text has one slot
and keeps it, and a handle goes on standing for the text that it was handed out for.

Pools are shared.  What is shown of one pool is carried over to any number of pools and of
references to them, some of which lead to the same pool, and to any history of calls.  What a
pool has to hold is read off the history, and a pool is at all times the empty one into which
just these texts were taken.
-/
import AsmPrep.Names
import Mathlib.Data.Finset.Card

namespace AsmPrep.Names

/-! ### One pool -/

namespace Pool

variable {p : Pool} {text : String} {handle : Handle}

/-- A text has a handle when it was taken in. -/
theorem isSome_get? (p : Pool) (text : String) : (p.get? text).isSome = p.contains text := by
  unfold get? contains
  rw [Option.isSome_map, List.findIdx?_isSome, List.contains_eq_any_beq]
  simp only [BEq.comm]

/-- The handle found for a text stands for it. -/
theorem text?_of_get? (h : p.get? text = some handle) : p.text? handle = some text := by
  obtain ⟨slot, hslot, rfl⟩ := Option.map_eq_some_iff.1 h
  obtain ⟨hlt, heq, -⟩ := List.findIdx?_eq_some_iff_getElem.1 hslot
  rw [text?, if_pos rfl, List.getElem?_eq_getElem hlt, eq_of_beq heq]

/-- Where no text is there twice, no other handle stands for it. -/
theorem get?_of_text? (hp : p.texts.Nodup) (h : p.text? handle = some text) :
    p.get? text = some handle := by
  obtain ⟨pool, slot⟩ := handle
  unfold text? at h
  split at h
  · rename_i hpool
    obtain ⟨hlt, heq⟩ := List.getElem?_eq_some_iff.1 h
    refine Option.map_eq_some_iff.2 ⟨slot, ?_, by rw [← hpool]⟩
    refine List.findIdx?_eq_some_iff_getElem.2 ⟨hlt, beq_iff_eq.2 heq, fun before hbefore => ?_⟩
    intro hsame
    have hslots : before = slot := hp.getElem_inj_iff.1 ((eq_of_beq hsame).trans heq.symm)
    exact absurd hslots (Nat.ne_of_lt hbefore)
  · exact absurd h (by simp)

theorem pool_of_text? (h : p.text? handle = some text) : handle.pool = p.ident := by
  by_contra hpool
  rw [text?, if_neg hpool] at h
  exact absurd h (by simp)

/-! ### Taking texts in -/

theorem insert_eq (p : Pool) (text : String) :
    p.insert text = if p.contains text then p else { p with texts := p.texts ++ [text] } := by
  rw [← isSome_get?]
  unfold insert intern
  cases p.get? text with
  | some found => rfl
  | none => rfl

theorem contains_insert (p : Pool) (text other : String) :
    (p.insert text).contains other = (p.contains other || other == text) := by
  rw [insert_eq]
  split
  · rename_i hthere
    by_cases heq : other = text
    · rw [heq, hthere, Bool.true_or]
    · rw [beq_false_of_ne heq, Bool.or_false]
  · unfold contains
    rw [List.contains_append, List.contains_cons, List.contains_nil, Bool.or_false]

theorem contains_insertAll (p : Pool) (texts : List String) (other : String) :
    (p.insertAll texts).contains other = (p.contains other || texts.contains other) := by
  unfold insertAll
  induction texts generalizing p with
  | nil => simp
  | cons text texts ih =>
    rw [List.foldl_cons, ih, contains_insert, List.contains_cons, Bool.or_assoc]

theorem insertAll_append (p : Pool) (texts more : List String) :
    p.insertAll (texts ++ more) = (p.insertAll texts).insertAll more := List.foldl_append

/-- What holds of a pool and is kept by each text holds behind all texts. -/
theorem insertAll_keeps {P : Pool → Prop} (hkeep : ∀ p text, P p → P (p.insert text)) (h : P p)
    (texts : List String) : P (p.insertAll texts) := by
  induction texts generalizing p with
  | nil => exact h
  | cons text texts ih => exact ih (hkeep p text h)

theorem ident_insertAll (p : Pool) (texts : List String) : (p.insertAll texts).ident = p.ident := by
  refine insertAll_keeps (P := fun now => now.ident = p.ident) (fun now text hnow => ?_) rfl texts
  rw [insert_eq]
  split
  · exact hnow
  · exact hnow

/-- No text is taken in twice. -/
theorem nodup_insertAll (h : p.texts.Nodup) (texts : List String) :
    (p.insertAll texts).texts.Nodup := by
  refine insertAll_keeps (P := fun now => now.texts.Nodup) (fun now text hnow => ?_) h texts
  rw [insert_eq]
  split
  · exact hnow
  · rename_i hnew
    have hfree : text ∉ now.texts := fun hmem => hnew (List.contains_iff_mem.2 hmem)
    exact List.nodup_append.2 ⟨hnow, List.nodup_singleton text, fun a ha b hb => by
      rw [List.mem_singleton.1 hb]
      rintro rfl
      exact hfree ha⟩

/-- **A handle keeps its text.** -/
theorem text?_insertAll (h : p.text? handle = some text) (texts : List String) :
    (p.insertAll texts).text? handle = some text := by
  refine insertAll_keeps (P := fun now => now.text? handle = some text) (fun now other hnow => ?_) h
    texts
  rw [insert_eq]
  split
  · exact hnow
  · have hpool := pool_of_text? hnow
    rw [text?, if_pos hpool] at hnow ⊢
    exact (List.getElem?_append_left (List.getElem?_eq_some_iff.1 hnow).1).trans hnow

/-- A pool is as long as the texts that were taken in are many. -/
theorem size_insertAll (ident : Nat) (texts : List String) :
    (insertAll { ident } texts).size = texts.toFinset.card := by
  have hnodup : (insertAll { ident } texts).texts.Nodup := nodup_insertAll List.nodup_nil texts
  have hsame : (insertAll { ident } texts).texts.toFinset = texts.toFinset := by
    ext text
    have hcontains := contains_insertAll { ident } texts text
    rw [show contains { ident } text = false from rfl, Bool.false_or] at hcontains
    rw [List.mem_toFinset, List.mem_toFinset, ← List.contains_iff_mem, ← List.contains_iff_mem]
    exact Bool.eq_iff_iff.1 hcontains
  rw [← hsame, List.toFinset_card_of_nodup hnodup]
  rfl

/-- The text just taken in is the one that its handle stands for. -/
theorem text?_intern (p : Pool) (text : String) :
    (p.insert text).text? (p.intern text).1 = some text := by
  unfold insert intern
  cases hget : p.get? text with
  | some found => exact text?_of_get? hget
  | none => simp [text?]

end Pool

/-! ### Pools and references to them -/

/-- Pools, and the references that they are reached through. -/
structure Shelf where
  pools : List Pool := []
  /-- For each reference the place of the pool that it leads to. -/
  refs : List Nat := []
  refs_lt : ∀ place ∈ refs, place < pools.length := by
    exact fun place h => absurd h List.not_mem_nil

/-- What can be asked of pools, through references. -/
inductive Call where
  /-- A new pool, with a first reference to it. -/
  | make
  /-- Another reference to the same pool. -/
  | copy (ref : Nat)
  | intern (ref : Nat) (text : String)
  | intern? (ref : Nat) (text? : Option String)
  | get? (ref : Nat) (text : String)

namespace Call

/-- The text that a call asks a handle for, and the reference that it asks through. -/
def asks? : Call → Option (Nat × String)
  | make | copy _ => none
  | intern ref text | get? ref text => some (ref, text)
  | intern? ref text? => text?.map (ref, ·)

/-- The text that a call takes in. -/
def takesIn? : Call → Option (Nat × String)
  | get? _ _ => none
  | call => call.asks?

end Call

/-- A handle that was handed out, where, and for which text. -/
structure Issue where
  place : Nat
  text : String
  handle : Handle
  deriving DecidableEq

namespace Shelf

variable {s : Shelf}

/-- The pool in a place; before it is made, an empty one. -/
def poolAt (s : Shelf) (place : Nat) : Pool := s.pools[place]?.getD { ident := place }

/-- The text that a handle stands for. -/
def text? (s : Shelf) (handle : Handle) : Option String := (s.poolAt handle.pool).text? handle

/-- Asks the pool that a reference leads to. -/
def ask (s : Shelf) (ref : Nat) (f : Pool → Option Handle × Pool) : Option Handle × Shelf :=
  match s.refs[ref]? with
  | none => (none, s)
  | some place =>
    let asked := f (s.poolAt place)
    (asked.1, { s with
      pools := s.pools.set place asked.2
      refs_lt := by simpa only [List.length_set] using s.refs_lt })

/-- The handle that a call is answered with, if any, and the pools after it. -/
def call (s : Shelf) : Call → Option Handle × Shelf
  | .make => (none,
    { pools := s.pools ++ [{ ident := s.pools.length }]
      refs := s.refs ++ [s.pools.length]
      refs_lt := by
        simp only [List.mem_append, List.mem_singleton, List.length_append, List.length_singleton]
        rintro place (h | rfl)
        · exact Nat.lt_succ_of_lt (s.refs_lt place h)
        · exact Nat.lt_succ_self _ })
  | .copy ref => (none,
    { s with
      refs := s.refs ++ s.refs[ref]?.toList
      refs_lt := by
        simp only [List.mem_append, Option.mem_toList]
        rintro place (h | h)
        · exact s.refs_lt place h
        · exact s.refs_lt place (List.mem_of_getElem? h) })
  | .intern ref text => s.ask ref fun p => (some (p.intern text).1, (p.intern text).2)
  | .intern? ref text? => s.ask ref (·.intern? text?)
  | .get? ref text => s.ask ref fun p => (p.get? text, p)

/-- The pools after some calls, one after the other. -/
def after (s : Shelf) (calls : List Call) : Shelf := calls.foldl (fun s call => (s.call call).2) s

/-- What a call hands out. -/
def issue? (s : Shelf) (call : Call) : Option Issue :=
  call.asks?.bind fun (ref, text) =>
    s.refs[ref]?.bind fun place => (s.call call).1.map fun handle => { place, text, handle }

/-- What is handed out in the course of some calls. -/
def issued (s : Shelf) : List Call → List Issue
  | [] => []
  | call :: calls => (s.issue? call).toList ++ (s.call call).2.issued calls

/-- The text that a call takes into the pool in that place. -/
def takenIn (s : Shelf) (place : Nat) (call : Call) : List String :=
  (call.takesIn?.bind fun (ref, text) =>
    if s.refs[ref]? = some place then some text else none).toList

/-- The texts that are taken into the pool in that place in the course of some calls. -/
def interned (s : Shelf) (place : Nat) : List Call → List String
  | [] => []
  | call :: calls => s.takenIn place call ++ (s.call call).2.interned place calls

/-! ### What a call does -/

theorem poolAt_ask (s : Shelf) {ref : Nat} {f : Pool → Option Handle × Pool} (texts : List String)
    (hf : ∀ p, (f p).2 = p.insertAll texts) (place : Nat) :
    (s.ask ref f).2.poolAt place =
      (s.poolAt place).insertAll (if s.refs[ref]? = some place then texts else []) := by
  unfold ask
  cases href : s.refs[ref]? with
  | none => rfl
  | some asked =>
    have hlt := s.refs_lt asked (List.mem_of_getElem? href)
    show ((s.pools.set asked (f (s.poolAt asked)).2)[place]?).getD _ = _
    rw [List.getElem?_set, hf]
    by_cases hplace : asked = place
    · subst hplace
      simp [hlt]
    · rw [if_neg hplace, if_neg fun h => hplace (Option.some.inj h)]
      rfl

theorem ask_fst {ref place : Nat} (h : s.refs[ref]? = some place)
    (f : Pool → Option Handle × Pool) : (s.ask ref f).1 = (f (s.poolAt place)).1 := by
  unfold ask
  rw [h]

/-- Asking for what changes no pool changes nothing. -/
theorem ask_snd {ref : Nat} {f : Pool → Option Handle × Pool} (hf : ∀ p, (f p).2 = p) :
    (s.ask ref f).2 = s := by
  unfold ask
  split
  · rfl
  · rename_i place href
    have hlt := s.refs_lt place (List.mem_of_getElem? href)
    have hpools : s.pools.set place (f (s.poolAt place)).2 = s.pools := by
      rw [hf, poolAt, List.getElem?_eq_getElem hlt, Option.getD_some, List.set_getElem_self]
    simp only [hpools]

theorem takenIn_of_ref {ref place : Nat} {text : String} {call : Call}
    (h : s.refs[ref]? = some place) (hcall : call.takesIn? = some (ref, text)) :
    s.takenIn place call = [text] := by
  unfold takenIn
  rw [hcall, Option.bind_some]
  exact congrArg Option.toList (if_pos h)

/-- A pool is changed by the texts that are taken into it, and by nothing else. -/
theorem poolAt_call (s : Shelf) (call : Call) (place : Nat) :
    (s.call call).2.poolAt place = (s.poolAt place).insertAll (s.takenIn place call) := by
  have htaken : ∀ (ref : Nat) (text : String),
      (if s.refs[ref]? = some place then [text] else []) =
        (if s.refs[ref]? = some place then some text else none : Option String).toList := by
    intro ref text
    split
    · rfl
    · rfl
  cases call with
  | make =>
    show ((s.pools ++ [({ ident := s.pools.length } : Pool)])[place]?).getD _ = s.poolAt place
    unfold poolAt
    rcases Nat.lt_trichotomy place s.pools.length with hlt | rfl | hgt
    · rw [List.getElem?_append_left hlt]
    · rw [List.getElem?_concat_length, List.getElem?_eq_none (Nat.le_refl _)]
      rfl
    · rw [List.getElem?_eq_none (by simp; omega), List.getElem?_eq_none (Nat.le_of_lt hgt)]
  | copy ref => rfl
  | intern ref text =>
    refine (s.poolAt_ask [text] (fun _ => rfl) place).trans ?_
    rw [htaken]
    rfl
  | intern? ref text? =>
    cases text? with
    | none =>
      refine (s.poolAt_ask [] (fun _ => rfl) place).trans ?_
      rw [ite_self]
      rfl
    | some text =>
      refine (s.poolAt_ask [text] (fun _ => rfl) place).trans ?_
      rw [htaken]
      rfl
  | get? ref text =>
    refine (s.poolAt_ask [] (fun _ => rfl) place).trans ?_
    rw [ite_self]
    rfl

/-- **What a pool holds is read off the history.** -/
theorem poolAt_after (s : Shelf) (calls : List Call) (place : Nat) :
    (s.after calls).poolAt place = (s.poolAt place).insertAll (s.interned place calls) := by
  induction calls generalizing s with
  | nil => rfl
  | cons call calls ih =>
    refine (ih (s.call call).2).trans ?_
    rw [poolAt_call, ← Pool.insertAll_append]
    rfl

theorem poolAt_after_empty (calls : List Call) (place : Nat) :
    (after {} calls).poolAt place = Pool.insertAll { ident := place } (interned {} place calls) :=
  poolAt_after {} calls place

/-- What a call hands out stands for the text that was asked for, in the pool that was asked. -/
theorem text?_issue {call : Call} {issue : Issue} (h : s.issue? call = some issue) :
    ((s.call call).2.poolAt issue.place).text? issue.handle = some issue.text := by
  obtain ⟨⟨ref, text⟩, hasks, h⟩ := Option.bind_eq_some_iff.1 h
  obtain ⟨place, href, h⟩ := Option.bind_eq_some_iff.1 h
  obtain ⟨handle, hcall, rfl⟩ := Option.map_eq_some_iff.1 h
  show ((s.call call).2.poolAt place).text? handle = some text
  rw [poolAt_call]
  cases call with
  | make => exact absurd hasks (by simp [Call.asks?])
  | copy asked => exact absurd hasks (by simp [Call.asks?])
  | intern asked given =>
    obtain ⟨rfl, rfl⟩ := Prod.mk.inj (Option.some.inj hasks)
    obtain rfl := Option.some.inj ((ask_fst href _).symm.trans hcall)
    rw [takenIn_of_ref href rfl]
    exact Pool.text?_intern _ _
  | intern? asked given? =>
    obtain ⟨given, rfl, hgiven⟩ := Option.map_eq_some_iff.1 hasks
    obtain ⟨rfl, rfl⟩ := Prod.mk.inj hgiven
    obtain rfl := Option.some.inj ((ask_fst href _).symm.trans hcall)
    rw [takenIn_of_ref href rfl]
    exact Pool.text?_intern _ _
  | get? asked given =>
    obtain ⟨rfl, rfl⟩ := Prod.mk.inj (Option.some.inj hasks)
    exact Pool.text?_of_get? ((ask_fst href _).symm.trans hcall)

/-- It stands for that text whatever is called for afterwards. -/
theorem text?_issued {calls : List Call} {issue : Issue} (h : issue ∈ s.issued calls) :
    ((s.after calls).poolAt issue.place).text? issue.handle = some issue.text := by
  induction calls generalizing s with
  | nil => exact absurd h List.not_mem_nil
  | cons call calls ih =>
    rcases List.mem_append.1 h with hnow | hlater
    · show (((s.call call).2.after calls).poolAt _).text? _ = _
      rw [poolAt_after]
      exact Pool.text?_insertAll (text?_issue (Option.mem_toList.1 hnow)) _
    · exact ih hlater

/-- **Interning is canonical.**  After any calls on any number of pools, through references some
of which may lead to the same pool: two handles that were handed out are the same when they were
handed out by the same pool for the same text, and only then; a handle stands for its text
whatever is called for afterwards; taking a text in gives a handle, looking for it gives one when
it was taken into that pool before, and only then, and leaves all pools as they are; and a pool is
as long as the texts that were taken into it are many. -/
theorem interning_is_canonical (calls : List Call) :
    let s := after {} calls
    let handed := issued {} calls
    (∀ a ∈ handed, ∀ b ∈ handed, a.handle = b.handle ↔ a.place = b.place ∧ a.text = b.text) ∧
    (∀ a ∈ handed, ∀ more, (s.after more).text? a.handle = some a.text) ∧
    (∀ ref place text, s.refs[ref]? = some place →
      (s.issue? (.intern ref text)).isSome ∧
        ((s.issue? (.get? ref text)).isSome ↔ text ∈ interned {} place calls) ∧
        (s.call (.get? ref text)).2 = s) ∧
    ∀ place, (s.poolAt place).size = (interned {} place calls).toFinset.card := by
  intro s handed
  have hpool : ∀ place, s.poolAt place =
      Pool.insertAll { ident := place } (interned {} place calls) := poolAt_after_empty calls
  have hplace : ∀ a ∈ handed, a.handle.pool = a.place := by
    intro a ha
    rw [Pool.pool_of_text? (text?_issued ha), poolAt_after_empty, Pool.ident_insertAll]
  refine ⟨?_, ?_, ?_, ?_⟩
  · intro a ha b hb
    have htexta := text?_issued ha
    have htextb := text?_issued hb
    constructor
    · intro hsame
      have hplaces : a.place = b.place := by rw [← hplace a ha, hsame, hplace b hb]
      rw [hsame, hplaces] at htexta
      exact ⟨hplaces, Option.some.inj (htexta.symm.trans htextb)⟩
    · rintro ⟨hplaces, htexts⟩
      have hnodup : (s.poolAt b.place).texts.Nodup := by
        rw [hpool]
        exact Pool.nodup_insertAll List.nodup_nil _
      rw [hplaces, htexts] at htexta
      exact Option.some.inj ((Pool.get?_of_text? hnodup htexta).symm.trans
        (Pool.get?_of_text? hnodup htextb))
  · intro a ha more
    unfold text?
    rw [hplace a ha, poolAt_after]
    exact Pool.text?_insertAll (text?_issued ha) _
  · intro ref place text href
    refine ⟨?_, ?_, ask_snd fun _ => rfl⟩
    · show (Option.bind s.refs[ref]? _).isSome
      rw [href, Option.bind_some, Option.isSome_map]
      exact congrArg Option.isSome (ask_fst href _)
    · show (Option.bind s.refs[ref]? _).isSome ↔ _
      rw [href, Option.bind_some, Option.isSome_map]
      show (s.ask ref fun p => (p.get? text, p)).1.isSome ↔ _
      rw [ask_fst href, Pool.isSome_get?, hpool, Pool.contains_insertAll]
      exact List.contains_iff_mem
  · intro place
    rw [hpool]
    exact Pool.size_insertAll _ _

/-- Two pools, a second reference to the first one, and one text for all three. -/
def sharedCalls : List Call :=
  [.make, .make, .copy 0, .intern 0 "x", .intern 2 "x", .intern 1 "x", .intern? 2 (some "y"),
    .intern? 1 none, .get? 1 "y", .get? 0 "y"]

/-- Through both references to the first pool the text has one handle, and through the reference
to the other pool it has another one. -/
theorem shared_pool_shares_handles :
    let s := after {} sharedCalls
    let first : Issue := ⟨0, "x", ⟨0, 0⟩⟩
    let other : Issue := ⟨1, "x", ⟨1, 0⟩⟩
    first ∈ issued {} sharedCalls ∧ other ∈ issued {} sharedCalls ∧ first.handle ≠ other.handle ∧
      s.text? first.handle = some "x" ∧
      s.refs[1]? = some 1 ∧ (s.issue? (.get? 1 "y")).isSome = false ∧
      s.refs[2]? = some 0 ∧ (s.issue? (.get? 2 "y")).isSome ∧ (s.poolAt 0).size = 2 := by
  intro s first other
  have hfirst : first ∈ issued {} sharedCalls := by decide +kernel
  have hother : other ∈ issued {} sharedCalls := by decide +kernel
  obtain ⟨hcanonical, hkept, hfound, hsize⟩ := interning_is_canonical sharedCalls
  refine ⟨hfirst, hother, ?_, hkept first hfirst [], rfl, ?_, rfl, ?_, ?_⟩
  · exact fun hsame => absurd ((hcanonical first hfirst other hother).1 hsame).1 (by decide)
  · refine Bool.eq_false_iff.2 fun hsome => absurd ((hfound 1 1 "y" rfl).2.1.1 hsome) ?_
    decide +kernel
  · exact (hfound 2 0 "y" rfl).2.1.2 (by decide +kernel)
  · rw [hsize]
    decide +kernel

end Shelf

end AsmPrep.Names

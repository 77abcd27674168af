/-
Macros that are defined on the command line.

An argument gives a name, and a value after the first equals sign.  The settings of a run are
made when there is an input and the names are names of macros, each given once; otherwise the
first thing found wrong is told.  That is all that could be wrong with them: every input starts
with these macros and no others, and nothing is reported about them.
-/
import AsmPrep.CommandLine.Validation
import AsmPrep.Proofs.Macro.Table
import AsmPrep.Proofs.Text.Ascii
import AsmPrep.Run.Complete
import Mathlib.Data.List.Forall2

namespace AsmPrep.CommandLine

open Text Run

/-! ### Names -/

/-- A letter or an underscore, and then letters, digits and underscores. -/
def IsIdentifier (l : List Char) : Prop :=
  ∃ first rest, l = first :: rest ∧ (first.isAlpha || first == '_') = true ∧
    ∀ c ∈ rest, (c.isAlphanum || c == '_') = true

/-- An identifier, with or without a sigil before it. -/
def IsName (l : List Char) : Prop :=
  IsIdentifier l ∨ ∃ sigil rest, l = sigil :: rest ∧ sigil ∈ sigils ∧ IsIdentifier rest

theorem IsIdentifier.ascii {l : List Char} (h : IsIdentifier l) : ∀ c ∈ l, IsAscii c := by
  obtain ⟨first, rest, rfl, hfirst, hrest⟩ := h
  rw [List.forall_mem_cons]
  refine ⟨ascii_of_isAlphanum ?_, fun c hc => ascii_of_isAlphanum (hrest c hc)⟩
  rw [Bool.or_eq_true] at hfirst ⊢
  exact hfirst.imp_left fun halpha => by rw [Char.isAlphanum, halpha, Bool.true_or]

theorem IsName.ascii {l : List Char} (h : IsName l) : ∀ c ∈ l, IsAscii c := by
  rcases h with h | ⟨sigil, rest, rfl, hsigil, hrest⟩
  · exact h.ascii
  · have hall : ∀ c ∈ sigils, IsAscii c := by simp [sigils]
    exact List.forall_mem_cons.2 ⟨hall sigil hsigil, hrest.ascii⟩

/-- No identifier begins with a sigil. -/
theorem not_isIdentifier_sigil {sigil : Char} (h : sigil ∈ sigils) (rest : List Char) :
    ¬ IsIdentifier (sigil :: rest) := by
  rintro ⟨first, others, heq, hfirst, -⟩
  obtain ⟨rfl, -⟩ := List.cons.inj heq
  have hnone : ∀ c ∈ sigils, (c.isAlpha || c == '_') = false := by simp [sigils]
  exact absurd (hfirst.symm.trans (hnone _ h)) (by simp)

/-! ### What is scanned as a name -/

theorem identifier?_iff {l : List Char} (h : ∀ c ∈ l, IsAscii c) :
    Lexeme.identifier? (l.map byteOf) = some (l.map byteOf, []) ↔ IsIdentifier l := by
  cases l with
  | nil =>
    constructor
    · intro hnone
      exact absurd hnone (by simp [Lexeme.identifier?])
    · rintro ⟨first, rest, heq, -⟩
      exact absurd heq (by simp)
  | cons c l =>
    rw [List.forall_mem_cons] at h
    have hrest : (l.map byteOf).takeWhile Byte.isIdentChar = l.map byteOf ↔
        ∀ c ∈ l, (c.isAlphanum || c == '_') = true := by
      rw [List.takeWhile_eq_self_iff, List.forall_mem_map]
      exact forall₂_congr fun d hd => by rw [isIdentChar_byteOf (h.2 d hd)]
    rw [List.map_cons, Lexeme.identifier?, isIdentStart_byteOf h.1]
    constructor
    · intro hread
      split at hread
      · rename_i hfirst
        have hall := (List.cons.inj (Prod.mk.inj (Option.some.inj hread)).1).2
        exact ⟨c, l, rfl, hfirst, hrest.1 hall⟩
      · exact absurd hread (by simp)
    · rintro ⟨first, rest, heq, hfirst, hall⟩
      obtain ⟨rfl, rfl⟩ := List.cons.inj heq
      have htake := hrest.2 hall
      rw [if_pos hfirst, htake, List.dropWhile_eq_nil_iff.2 (List.takeWhile_eq_self_iff.1 htake)]

theorem name?_iff {l : List Char} (h : ∀ c ∈ l, IsAscii c) :
    Lexeme.name? (l.map byteOf) = some (l.map byteOf, []) ↔ IsName l := by
  cases l with
  | nil => 
    constructor
    · intro hnone
      exact absurd hnone (by simp [Lexeme.name?])
    · rintro (⟨first, rest, heq, -⟩ | ⟨sigil, rest, heq, -⟩)
      · exact absurd heq (by simp)
      · exact absurd heq (by simp)
  | cons c l =>
    rw [List.map_cons, Lexeme.name?, isSigil_byteOf (h c List.mem_cons_self)]
    by_cases hsigil : c ∈ sigils
    · rw [if_pos (List.contains_iff_mem.2 hsigil)]
      have hrest := identifier?_iff (List.forall_mem_cons.1 h).2
      constructor
      · intro hread
        obtain ⟨⟨text, after⟩, hfound, heq⟩ := Option.map_eq_some_iff.1 hread
        obtain ⟨htext, rfl⟩ := Prod.mk.inj heq
        obtain rfl : text = l.map byteOf := (List.cons.inj htext).2
        exact .inr ⟨c, l, rfl, hsigil, hrest.1 hfound⟩
      · rintro (hname | ⟨sigil, rest, heq, -, hname⟩)
        · exact absurd hname (not_isIdentifier_sigil hsigil l)
        · obtain ⟨rfl, rfl⟩ := List.cons.inj heq
          rw [hrest.2 hname]
          rfl
    · rw [if_neg (fun hc => hsigil (List.contains_iff_mem.1 hc)), ← List.map_cons,
        identifier?_iff h]
      constructor
      · exact .inl
      · rintro (hname | ⟨sigil, rest, heq, hmem, -⟩)
        · exact hname
        · obtain ⟨rfl, -⟩ := List.cons.inj heq
          exact absurd hmem hsigil

/-- **What is scanned as a name is one.** -/
theorem isMacroName_iff (name : String) : isMacroName name = true ↔ IsName name.toList := by
  unfold isMacroName
  rw [beq_iff_eq]
  constructor
  · intro h
    have hascii := ascii_of_bytes fun b hb => le_of_isWordByte (Lexeme.name?_bytes h b hb)
    rw [ofString_of_ascii hascii] at h
    exact (name?_iff hascii).1 h
  · intro h
    rw [ofString_of_ascii h.ascii]
    exact (name?_iff h.ascii).2 h

/-! ### Arguments -/

/-- `Defines argument name value`: the argument gives the macro of that name this value. -/
inductive Defines : String → String → String → Prop where
  | plain {name : String} (h : '=' ∉ name.toList) : Defines name name "1"
  | valued {name : String} (h : '=' ∉ name.toList) (value : String) :
      Defines (name ++ "=" ++ value) name value

/-- What stands before the first equals sign, and from there on. -/
theorem splitDefine_eq {argument : String} {name rest : List Char}
    (h : argument.toList = name ++ rest) (hname : '=' ∉ name)
    (hrest : ∀ c ∈ rest.head?, c = '=') :
    splitDefine argument =
      (String.ofList name, if rest.isEmpty then "1" else String.ofList rest.tail) := by
  have hbefore : argument.toList.takeWhile (· != '=') = name := by
    have hall : ∀ c ∈ name, (c != '=') = true := by
      intro c hc
      rw [bne_iff_ne]
      rintro rfl
      exact hname hc
    rw [h, List.takeWhile_append_of_pos hall]
    cases rest with
    | nil => rw [List.takeWhile_nil, List.append_nil]
    | cons c rest =>
      rw [List.takeWhile_cons_of_neg (by simp [hrest c rfl]), List.append_nil]
  unfold splitDefine
  dsimp only
  rw [hbefore, h, List.drop_left]

theorem defines_iff {argument name value : String} :
    Defines argument name value ↔ splitDefine argument = (name, value) := by
  constructor
  · intro h
    cases h with
    | plain h =>
      have hwhole : argument.toList = argument.toList ++ [] := (List.append_nil _).symm
      rw [splitDefine_eq hwhole h (by simp), String.ofList_toList]
      rfl
    | valued h value =>
      have hparts : (name ++ "=" ++ value).toList = name.toList ++ '=' :: value.toList := by simp
      rw [splitDefine_eq hparts h (by simp), String.ofList_toList]
      simp
  · intro h
    by_cases hequals : '=' ∈ argument.toList
    · obtain ⟨before, after, hsplit, hbefore⟩ := List.eq_append_cons_of_mem hequals
      rw [splitDefine_eq hsplit hbefore (by simp)] at h
      obtain ⟨rfl, rfl⟩ := Prod.mk.inj h
      have hargument : argument = String.ofList before ++ "=" ++ String.ofList after := by
        rw [← String.toList_inj, hsplit]
        simp
      rw [hargument]
      exact .valued (by rwa [String.toList_ofList]) _
    · rw [splitDefine_eq (List.append_nil _).symm hequals (by simp)] at h
      obtain ⟨rfl, rfl⟩ := Prod.mk.inj h
      rw [String.ofList_toList]
      exact .plain hequals

theorem parseDefine_ok_iff {argument : String} {pair : String × String} :
    parseDefine argument = .ok pair ↔
      Defines argument pair.1 pair.2 ∧ IsName pair.1.toList := by
  unfold parseDefine
  dsimp only
  rw [defines_iff, ← isMacroName_iff]
  constructor
  · intro h
    split at h
    · rename_i hname
      obtain rfl := Except.ok.inj h
      exact ⟨rfl, hname⟩
    · exact absurd h (by simp)
  · rintro ⟨hsplit, hname⟩
    rw [hsplit, if_pos hname]

theorem parseDefine_error {argument : String} {failure : Failure}
    (h : parseDefine argument = .error failure) :
    failure = .invalidDefine argument ∧
      ∀ name value, Defines argument name value → ¬ IsName name.toList := by
  constructor
  · unfold parseDefine at h
    dsimp only at h
    split at h
    · exact absurd h (by simp)
    · exact (Except.error.inj h).symm
  · intro name value hdefines hname
    have hok : parseDefine argument = .ok (name, value) :=
      parseDefine_ok_iff.2 ⟨hdefines, hname⟩
    exact absurd (h.symm.trans hok) (by simp)

/-! ### All arguments -/

/-- The arguments define these macros, each of a name of its own. -/
structure Sound (defines : List String) (pairs : List (String × String)) : Prop where
  each : List.Forall₂
    (fun argument pair => Defines argument pair.1 pair.2 ∧ IsName pair.1.toList) defines pairs
  distinct : (pairs.map (·.1)).Nodup

/-- What is wrong with an argument, where these names are taken. -/
inductive Offends (taken : List String) (argument : String) : Failure → Prop where
  | invalid (h : ∀ name value, Defines argument name value → ¬ IsName name.toList) :
      Offends taken argument (.invalidDefine argument)
  | duplicate {name value : String} (h : Defines argument name value) (hname : IsName name.toList)
      (htaken : name ∈ taken) : Offends taken argument (.duplicateDefine name)

theorem Offends.more {taken taken' : List String} {argument : String} {failure : Failure}
    (h : Offends taken argument failure) (hmore : ∀ name ∈ taken, name ∈ taken') :
    Offends taken' argument failure := by
  cases h with
  | invalid h => exact .invalid h
  | duplicate h hname htaken => exact .duplicate h hname (hmore _ htaken)

variable {seen defines others : List String} {pairs : List (String × String)} {argument : String}

theorem parseDefines_of_invalid {failure : Failure} (h : parseDefine argument = .error failure) :
    parseDefines seen (argument :: others) = .error failure := by
  rw [parseDefines, h]
  rfl

theorem parseDefines_of_taken {pair : String × String} (h : parseDefine argument = .ok pair)
    (hseen : pair.1 ∈ seen) :
    parseDefines seen (argument :: others) = .error (.duplicateDefine pair.1) := by
  rw [parseDefines, h]
  exact if_pos (List.contains_iff_mem.2 hseen)

theorem parseDefines_of_free {pair : String × String} (h : parseDefine argument = .ok pair)
    (hseen : pair.1 ∉ seen) :
    parseDefines seen (argument :: others) =
      (parseDefines (pair.1 :: seen) others).map (pair :: ·) := by
  rw [parseDefines, h]
  refine (if_neg fun hc => hseen (List.contains_iff_mem.1 hc)).trans ?_
  cases parseDefines (pair.1 :: seen) others with
  | ok pairs => rfl
  | error failure => rfl

theorem sound_cons {pair : String × String} : Sound (argument :: others) (pair :: pairs) ↔
    parseDefine argument = .ok pair ∧ Sound others pairs ∧ ∀ other ∈ pairs, other.1 ≠ pair.1 := by
  rw [parseDefine_ok_iff]
  constructor
  · rintro ⟨heach, hdistinct⟩
    obtain ⟨hfirst, hothers⟩ := List.forall₂_cons.1 heach
    rw [List.map_cons, List.nodup_cons] at hdistinct
    refine ⟨hfirst, ⟨hothers, hdistinct.2⟩, fun other hmem heq => hdistinct.1 ?_⟩
    exact heq ▸ List.mem_map_of_mem hmem
  · rintro ⟨hfirst, ⟨heach, hdistinct⟩, hne⟩
    refine ⟨List.forall₂_cons.2 ⟨hfirst, heach⟩, ?_⟩
    rw [List.map_cons, List.nodup_cons]
    refine ⟨fun hmem => ?_, hdistinct⟩
    obtain ⟨other, hother, heq⟩ := List.mem_map.1 hmem
    exact hne other hother heq

/-- Sound arguments are accepted, and no others. -/
theorem parseDefines_ok_iff : parseDefines seen defines = .ok pairs ↔
    Sound defines pairs ∧ ∀ pair ∈ pairs, pair.1 ∉ seen := by
  induction defines generalizing seen pairs with
  | nil =>
    constructor
    · intro h
      obtain rfl := Except.ok.inj h
      exact ⟨⟨.nil, List.nodup_nil⟩, fun pair hp => absurd hp List.not_mem_nil⟩
    · rintro ⟨⟨heach, -⟩, -⟩
      cases heach
      rfl
  | cons argument others ih =>
    constructor
    · intro h
      match hfirst : parseDefine argument with
      | .error failure =>
        exact absurd ((parseDefines_of_invalid hfirst).symm.trans h) (by simp)
      | .ok pair =>
        by_cases hseen : pair.1 ∈ seen
        · exact absurd ((parseDefines_of_taken hfirst hseen).symm.trans h) (by simp)
        · rw [parseDefines_of_free hfirst hseen] at h
          match hothers : parseDefines (pair.1 :: seen) others with
          | .error failure =>
            rw [hothers] at h
            exact absurd h (by simp [Except.map])
          | .ok more =>
            rw [hothers] at h
            obtain rfl := Except.ok.inj h
            obtain ⟨hsound, hfree⟩ := ih.1 hothers
            refine ⟨sound_cons.2 ⟨hfirst, hsound, fun other ho heq => ?_⟩,
              List.forall_mem_cons.2 ⟨hseen, fun other ho hmem => ?_⟩⟩
            · exact hfree other ho (heq ▸ List.mem_cons_self)
            · exact hfree other ho (List.mem_cons_of_mem _ hmem)
    · rintro ⟨hsound, hfree⟩
      cases pairs with
      | nil => exact nomatch hsound.each
      | cons pair pairs =>
        obtain ⟨hfirst, hothers, hne⟩ := sound_cons.1 hsound
        rw [List.forall_mem_cons] at hfree
        have hrest : parseDefines (pair.1 :: seen) others = .ok pairs := by
          refine ih.2 ⟨hothers, fun other ho hmem => ?_⟩
          rcases List.mem_cons.1 hmem with heq | hmem
          · exact hne other ho heq
          · exact hfree.2 other ho hmem
        rw [parseDefines_of_free hfirst hfree.1, hrest]
        rfl

/-- What is told is the first offence. -/
theorem parseDefines_error {failure : Failure} (h : parseDefines seen defines = .error failure) :
    ∃ front argument back pairs, defines = front ++ argument :: back ∧
      parseDefines seen front = .ok pairs ∧
      Offends (seen ++ pairs.map (·.1)) argument failure := by
  induction defines generalizing seen with
  | nil => exact absurd (show Except.ok [] = Except.error failure from h) (by simp)
  | cons argument others ih =>
    match hfirst : parseDefine argument with
    | .error other =>
      rw [parseDefines_of_invalid hfirst] at h
      obtain rfl := Except.error.inj h
      obtain ⟨rfl, hinvalid⟩ := parseDefine_error hfirst
      exact ⟨[], argument, others, [], rfl, rfl, .invalid hinvalid⟩
    | .ok pair =>
      by_cases hseen : pair.1 ∈ seen
      · rw [parseDefines_of_taken hfirst hseen] at h
        obtain rfl := Except.error.inj h
        obtain ⟨hdefines, hname⟩ := parseDefine_ok_iff.1 hfirst
        exact ⟨[], argument, others, [], rfl, rfl,
          .duplicate hdefines hname (List.mem_append_left _ hseen)⟩
      · rw [parseDefines_of_free hfirst hseen] at h
        match hothers : parseDefines (pair.1 :: seen) others with
        | .ok more =>
          rw [hothers] at h
          exact absurd h (by simp [Except.map])
        | .error other =>
          rw [hothers] at h
          obtain rfl := Except.error.inj h
          obtain ⟨front, offending, back, pairs, rfl, hfront, hoffends⟩ := ih hothers
          refine ⟨argument :: front, offending, back, pair :: pairs, rfl, ?_,
            hoffends.more fun name hname => ?_⟩
          · rw [parseDefines_of_free hfirst hseen, hfront]
            rfl
          · simpa [or_left_comm] using hname

/-! ### The start of an input -/

/-- The macro of a name and a value. -/
def entry (pair : String × String) : String × Macro := (pair.1, { body := ofString pair.2 })

variable {pp : Preprocessor}

theorem define_of_free {name : String} (h : pp.lookup name = none) (value : String) :
    pp.define name value = (.ok (), { pp with
      names := pp.names.insert name
      table := pp.table.withMacro name { body := ofString value } }) := by
  have hfree : pp.table.contains name = false := by
    rw [MacroTable.contains, ← Preprocessor.lookup, h]
    rfl
  unfold Preprocessor.define
  dsimp only
  rw [MacroTable.define?_of_free hfree]
  dsimp only
  rw [MacroTable.updateTarget_withMacro]
  rfl

/-- Macros of different free names are all made, and nothing is reported. -/
theorem predefine_of_free (hdistinct : (pairs.map (·.1)).Nodup)
    (hfree : ∀ pair ∈ pairs, pp.lookup pair.1 = none) :
    (predefine pp pairs).table.outer = pp.table.outer ∧
      (predefine pp pairs).table.innermost.reverse =
        pp.table.innermost.reverse ++ pairs.map entry ∧
      (∀ name m, (predefine pp pairs).lookup name = some m ↔
        (∃ value, (name, value) ∈ pairs ∧ m = { body := ofString value }) ∨
          pp.lookup name = some m) ∧
      (predefine pp pairs).log = pp.log := by
  induction pairs generalizing pp with
  | nil =>
    refine ⟨rfl, (List.append_nil _).symm, fun name m => ?_, rfl⟩
    simp [predefine]
  | cons pair pairs ih =>
    rw [List.map_cons, List.nodup_cons] at hdistinct
    rw [List.forall_mem_cons] at hfree
    let made : Preprocessor := { pp with
      names := pp.names.insert pair.1
      table := pp.table.withMacro pair.1 { body := ofString pair.2 } }
    have hmade : predefine pp (pair :: pairs) = predefine made pairs := by
      unfold predefine
      rw [List.foldl_cons, define_of_free hfree.1]
    have hlookup (name : String) : made.lookup name =
        if pair.1 = name then some { body := ofString pair.2 } else pp.lookup name :=
      MacroTable.lookup_withMacro _ _ _ _
    have hothers : ∀ other ∈ pairs, made.lookup other.1 = none := by
      intro other ho
      have hne : pair.1 ≠ other.1 := by
        intro heq
        rw [heq] at hdistinct
        exact hdistinct.1 (List.mem_map_of_mem ho)
      rw [hlookup, if_neg hne, hfree.2 other ho]
    obtain ⟨houter, hinner, hfound, hlog⟩ := ih hdistinct.2 hothers
    rw [hmade]
    refine ⟨houter, ?_, fun name m => ?_, hlog⟩
    · rw [hinner, List.map_cons]
      show ((pp.table.innermost.insert pair.1 _).reverse ++ _) = _
      rw [Scope.insert, List.reverse_cons, List.append_assoc]
      rfl
    · rw [hfound, hlookup]
      by_cases heq : pair.1 = name
      · subst heq
        rw [if_pos rfl, hfree.1]
        constructor
        · rintro (⟨value, hmem, hm⟩ | hm)
          · exact .inl ⟨value, List.mem_cons_of_mem _ hmem, hm⟩
          · exact .inl ⟨pair.2, List.mem_cons_self, (Option.some.inj hm).symm⟩
        · rintro (⟨value, hmem, rfl⟩ | hm)
          · rcases List.mem_cons.1 hmem with hpair | hmem
            · exact .inr (by rw [← hpair])
            · exact .inl ⟨value, hmem, rfl⟩
          · exact absurd hm (by simp)
      · rw [if_neg heq]
        refine or_congr_left (exists_congr fun value => and_congr_left fun _ => ?_)
        rw [List.mem_cons]
        refine (or_iff_right fun hpair => heq ?_).symm
        rw [← hpair]

/-! ### The settings of a run -/

theorem settings_of_no_input {a : Arguments} (h : a.inputs = []) :
    a.settings = .error .noInput := by
  unfold Arguments.settings
  rw [h]
  rfl

theorem settings_of_error {a : Arguments} (h : a.inputs ≠ []) {failure : Failure}
    (hdefines : parseDefines [] a.defines = .error failure) : a.settings = .error failure := by
  unfold Arguments.settings
  rw [if_neg (by simpa using h), hdefines]
  rfl

theorem settings_of_ok {a : Arguments} (h : a.inputs ≠ [])
    (hdefines : parseDefines [] a.defines = .ok pairs) :
    ∃ s, a.settings = .ok s ∧ s.defines = pairs := by
  unfold Arguments.settings
  rw [if_neg (by simpa using h), hdefines]
  exact ⟨_, rfl, rfl⟩

/-- Settings come of an input and of sound arguments. -/
theorem sound_of_settings {a : Arguments} {s : Settings} (h : a.settings = .ok s) :
    a.inputs ≠ [] ∧ Sound a.defines s.defines := by
  by_cases hinputs : a.inputs = []
  · exact absurd (h.symm.trans (settings_of_no_input hinputs)) (by simp)
  · refine ⟨hinputs, ?_⟩
    match hdefines : parseDefines [] a.defines with
    | .error failure => exact absurd (h.symm.trans (settings_of_error hinputs hdefines)) (by simp)
    | .ok pairs =>
      obtain ⟨made, hmade, rfl⟩ := settings_of_ok hinputs hdefines
      obtain rfl := Except.ok.inj (h.symm.trans hmade)
      exact (parseDefines_ok_iff.1 hdefines).1

/-- **Macros that are accepted on the command line take effect.**  Settings are made when there is
an input and the arguments are sound: each gives a name, and no name twice.  Otherwise a missing
input is told, or the first argument that is at fault.  And with the settings that are made, each
input starts, whatever came before it, with one macro for each argument, without parameters and
with the value as its text, and with no other macro; and nothing is reported about them. -/
theorem accepted_defines_take_effect (a : Arguments) :
    ((∃ s, a.settings = .ok s) ↔ a.inputs ≠ [] ∧ ∃ pairs, Sound a.defines pairs) ∧
      (∀ failure, a.settings = .error failure →
        a.inputs = [] ∧ failure = .noInput ∨
        a.inputs ≠ [] ∧ ∃ front argument back pairs, a.defines = front ++ argument :: back ∧
          Sound front pairs ∧ Offends (pairs.map (·.1)) argument failure) ∧
      ∀ s, a.settings = .ok s → ∀ sofar : Tally,
        let pp := (start s sofar).pp
        ∃ pairs, Sound a.defines pairs ∧ pp.table.outer = [] ∧
          pp.table.innermost.reverse = pairs.map entry ∧
          (∀ name m, pp.lookup name = some m ↔
            ∃ value, (name, value) ∈ pairs ∧ m = { body := ofString value }) ∧
          pp.log = sofar.pp.log := by
  refine ⟨⟨?_, ?_⟩, ?_, ?_⟩
  · rintro ⟨s, hs⟩
    obtain ⟨hinputs, hsound⟩ := sound_of_settings hs
    exact ⟨hinputs, s.defines, hsound⟩
  · rintro ⟨hinputs, pairs, hsound⟩
    have hdefines : parseDefines [] a.defines = .ok pairs :=
      parseDefines_ok_iff.2 ⟨hsound, fun _ _ => List.not_mem_nil⟩
    obtain ⟨s, hs, -⟩ := settings_of_ok hinputs hdefines
    exact ⟨s, hs⟩
  · intro failure h
    by_cases hinputs : a.inputs = []
    · exact .inl ⟨hinputs, Except.error.inj (h.symm.trans (settings_of_no_input hinputs))⟩
    · refine .inr ⟨hinputs, ?_⟩
      match hdefines : parseDefines [] a.defines with
      | .ok pairs =>
        obtain ⟨s, hs, -⟩ := settings_of_ok hinputs hdefines
        exact absurd (h.symm.trans hs) (by simp)
      | .error other =>
        obtain rfl := Except.error.inj (h.symm.trans (settings_of_error hinputs hdefines))
        obtain ⟨front, argument, back, pairs, hsplit, hfront, hoffends⟩ :=
          parseDefines_error hdefines
        exact ⟨front, argument, back, pairs, hsplit, (parseDefines_ok_iff.1 hfront).1, hoffends⟩
  · intro s hs sofar pp
    obtain ⟨-, hsound⟩ := sound_of_settings hs
    -- A reset leaves no macro that could be in the way.
    have hnone (name : String) : sofar.flushListing.pp.reset.lookup name = none := rfl
    have hfree : ∀ pair ∈ s.defines, sofar.flushListing.pp.reset.lookup pair.1 = none :=
      fun pair _ => hnone pair.1
    obtain ⟨houter, hinner, hlookup, hlog⟩ := predefine_of_free hsound.distinct hfree
    refine ⟨s.defines, hsound, houter, hinner, fun name m => ?_, hlog⟩
    refine (hlookup name m).trans ?_
    rw [hnone]
    simp

/-- `A=2` and `B` make two macros. -/
theorem two_defines_take_effect :
    let a : Arguments := { inputs := ["a.asm"], defines := ["A=2", "B"] }
    ∃ s, a.settings = .ok s ∧ ∀ sofar : Tally,
      (start s sofar).pp.lookup "A" = some { body := ofString "2" } ∧
        (start s sofar).pp.lookup "B" = some { body := ofString "1" } ∧
        (start s sofar).pp.lookup "C" = none := by
  intro a
  have hpairs : parseDefines [] a.defines = .ok [("A", "2"), ("B", "1")] := by decide +kernel
  obtain ⟨hsettings, -, heffect⟩ := accepted_defines_take_effect a
  obtain ⟨s, hs⟩ := hsettings.2 ⟨by simp [a], _, (parseDefines_ok_iff.1 hpairs).1⟩
  refine ⟨s, hs, fun sofar => ?_⟩
  obtain ⟨pairs, hsound, -, -, hlookup, -⟩ := heffect s hs sofar
  have hmade := parseDefines_ok_iff.2 ⟨hsound, fun _ _ => List.not_mem_nil⟩
  obtain rfl := Except.ok.inj (hmade.symm.trans hpairs)
  refine ⟨(hlookup _ _).2 ⟨"2", by simp, rfl⟩, (hlookup _ _).2 ⟨"1", by simp, rfl⟩, ?_⟩
  refine Option.eq_none_iff_forall_ne_some.2 fun m hm => ?_
  obtain ⟨value, hmem, -⟩ := (hlookup _ m).1 hm
  exact absurd hmem (by simp)

end AsmPrep.CommandLine

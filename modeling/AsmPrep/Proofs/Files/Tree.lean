/-
Trees that differ in what some files hold.

Where the differing files are is the same in both trees, and in neither is there anything
else in their places.  So paths lead to the same places, and a search finds the same path.
Writing to one of these files keeps the trees so.
-/
import AsmPrep.Files.Search
import AsmPrep.Source.Reader

namespace AsmPrep.Files.Tree

variable {t u : Tree} {p q : Place}

/-! ### What writing changes -/

theorem lookup_filter_ne (nodes : List (Place × Node)) (h : q ≠ p) :
    (nodes.filter (·.1 != p)).lookup q = nodes.lookup q := by
  induction nodes with
  | nil => rfl
  | cons entry nodes ih =>
    by_cases he : entry.1 = p
    · have hne : (q == entry.1) = false := beq_false_of_ne (he ▸ h)
      rw [List.filter_cons_of_neg (by simp [he]), ih, List.lookup_cons, hne]
    · rw [List.filter_cons_of_pos (by simp [he]), List.lookup_cons, List.lookup_cons, ih]

theorem at?_put_ne (t : Tree) (node : Node) (h : q ≠ p) : (t.put p node).at? q = t.at? q := by
  unfold at? put
  split
  · rfl
  · rw [List.lookup_cons, beq_false_of_ne h]
    exact lookup_filter_ne _ h

theorem at?_put_self (t : Tree) (node : Node) (h : p.names ≠ []) :
    (t.put p node).at? p = some node := by
  unfold at? put
  rw [if_neg (by simpa using h), List.lookup_cons_self]

theorem at?_remove_ne (t : Tree) (h : q ≠ p) : (t.remove p).at? q = t.at? q := by
  unfold at? remove
  split
  · rfl
  · exact lookup_filter_ne _ h

/-- Where there is a file is below some directory. -/
theorem names_of_file {content : Text} (h : t.at? p = some (.file content)) : p.names ≠ [] := by
  intro hnil
  unfold at? at h
  rw [hnil] at h
  exact absurd h (by simp)

theorem contentAt_of_file {content : Text} (h : t.at? p = some (.file content)) :
    t.contentAt p = content := by
  unfold contentAt
  rw [h]

/-- Writing at the end of a file adds to it. -/
theorem at?_overwrite_end {content : Text} (h : t.at? p = some (.file content)) (text : Text) :
    (t.overwrite p content.length text).at? p = some (.file (content ++ text)) := by
  unfold overwrite
  dsimp only
  rw [contentAt_of_file h, List.take_length, List.drop_of_length_le (Nat.le_add_right _ _),
    List.append_nil]
  exact at?_put_self _ _ (names_of_file h)

theorem at?_overwrite_ne (t : Tree) (offset : Nat) (text : Text) (h : q ≠ p) :
    (t.overwrite p offset text).at? q = t.at? q := at?_put_ne _ _ h

/-- What can be written to lies in a directory. -/
theorem names_of_target {path : String} (h : t.target path = .ok p) : p.names ≠ [] := by
  unfold target at h
  simp only [bind, Except.bind] at h
  split at h
  · exact absurd h (by simp)
  · split at h
    · exact absurd h (by simp)
    · rename_i folder _
      have hdown : ∀ name, (folder.down name).names ≠ [] := by simp [Place.down]
      split at h
      · exact absurd h (by simp)
      · split at h
        · exact absurd h (by simp)
        · split at h
          · exact absurd h (by simp)
          · split at h
            · exact absurd h (by simp)
            · exact Except.ok.inj h ▸ hdown _

/-- A file that is made is empty, and no other is changed. -/
theorem create_ok {path : String} (h : t.create path = .ok (p, u)) :
    u.at? p = some (.file []) ∧ ∀ q, q ≠ p → u.at? q = t.at? q := by
  unfold create at h
  simp only [bind, Except.bind] at h
  split at h
  · exact absurd h (by simp)
  · rename_i place htarget
    obtain ⟨rfl, rfl⟩ : place = p ∧ t.put place (.file []) = u := by
      simpa [pure, Except.pure] using h
    exact ⟨at?_put_self t _ (names_of_target htarget), fun q hq => at?_put_ne t _ hq⟩

/-- Adding to the end of a file changes no other, and goes wrong only where it cannot be
written to. -/
theorem append_ok {path : String} {text : Text} (h : t.append path text = .ok u) :
    ∃ place, t.target path = .ok place ∧ ∀ q, q ≠ place → u.at? q = t.at? q := by
  unfold append at h
  simp only [bind, Except.bind] at h
  split at h
  · exact absurd h (by simp)
  · rename_i place htarget
    refine ⟨place, htarget, fun q hq => ?_⟩
    obtain rfl := Except.ok.inj h
    split
    · exact at?_remove_ne t hq
    · exact at?_put_ne t _ hq

theorem append_of_target {path : String} (text : Text) (h : t.target path = .ok p) :
    ∃ u, t.append path text = .ok u := by
  unfold append
  rw [h]
  exact ⟨_, rfl⟩

/-! ### Trees that agree -/

/-- The trees are the same but for what the files in some places hold. -/
structure Agrees (written : Place → Prop) (t u : Tree) : Prop where
  home : t.home = u.home
  off : ∀ p, ¬ written p → t.at? p = u.at? p
  on : ∀ p, written p → (∃ content, t.at? p = some (.file content)) ∧
    ∃ content, u.at? p = some (.file content)

namespace Agrees

variable {written : Place → Prop}

theorem isDirectoryAt (h : Agrees written t u) (p : Place) :
    t.isDirectoryAt p = u.isDirectoryAt p := by
  unfold Tree.isDirectoryAt
  by_cases hp : written p
  · obtain ⟨⟨c, hc⟩, d, hd⟩ := h.on p hp
    rw [hc, hd]
    rfl
  · rw [h.off p hp]

theorem isSome_at? (h : Agrees written t u) (p : Place) :
    (t.at? p).isSome = (u.at? p).isSome := by
  by_cases hp : written p
  · obtain ⟨⟨c, hc⟩, d, hd⟩ := h.on p hp
    rw [hc, hd]
    rfl
  · rw [h.off p hp]

theorem step (h : Agrees written t u) : t.step = u.step := by
  funext p name
  unfold Tree.step
  rw [h.isDirectoryAt, h.isSome_at?]

theorem origin (h : Agrees written t u) (path : String) : t.origin path = u.origin path := by
  unfold Tree.origin
  rw [h.home]

/-- Paths lead to the same places. -/
theorem follow (h : Agrees written t u) (path : String) : t.follow path = u.follow path := by
  unfold Tree.follow
  rw [h.step, h.origin]

theorem target (h : Agrees written t u) (path : String) : t.target path = u.target path := by
  unfold Tree.target
  simp only [h.step, h.isDirectoryAt, h.origin]

theorem isFile (h : Agrees written t u) (path : String) : t.isFile path = u.isFile path := by
  unfold Tree.isFile Tree.find?
  rw [h.follow]
  cases (u.follow path).toOption with
  | none => rfl
  | some place =>
    simp only [Option.bind_some]
    by_cases hp : written place
    · obtain ⟨⟨c, hc⟩, d, hd⟩ := h.on place hp
      rw [hc, hd]
    · rw [h.off place hp]

/-- A search finds the same path. -/
theorem search (h : Agrees written t u) (name : String) (includePath : List String) :
    t.search name includePath = u.search name includePath := by
  unfold Tree.search
  rw [show t.isFile = u.isFile from funext h.isFile]

/-- What can be opened is the same. -/
theorem reader? (h : Agrees written t u) (path : String) : t.reader? path = u.reader? path := by
  unfold Tree.reader?
  rw [h.follow]
  cases (u.follow path).toOption with
  | none => rfl
  | some place =>
    simp only [Option.bind_some]
    by_cases hp : written place
    · obtain ⟨⟨c, hc⟩, d, hd⟩ := h.on place hp
      rw [hc, hd]
      rfl
    · rw [h.off place hp]

theorem contentAt (h : Agrees written t u) (hp : ¬ written p) : t.contentAt p = u.contentAt p := by
  unfold Tree.contentAt
  rw [h.off p hp]

end Agrees

end AsmPrep.Files.Tree

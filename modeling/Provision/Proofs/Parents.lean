import Mathlib.Data.List.DropRight
import Provision.Proofs.Spellings

/-! The parents of an absolute path.

The parent of a path is a part of its text that ends before the last name which leads on,
`parent?_cases`; dots at the end of either count for nothing. So the parents of a path are shorter
and shorter, and come to an end at the root directory: what holds there and passes from a parent to
the paths below it holds for every absolute path, `absolute_induction`. -/
namespace Provision.Path

/-! ### Names that lead on -/

/-- The names without the dots. -/
def steps (path : Path) : List Name :=
  (names path).filter (· ≠ here)

theorem steps_eq (path : Path) : steps path = (pieces path).filter fun piece => !isIdle piece := by
  rw [steps, names, List.filter_filter]
  congr 1
  funext piece
  cases piece with
  | nil => rfl
  | cons c piece => by_cases h : c :: piece = here <;> simp [isIdle, h]

theorem mem_steps {path : Path} {name : Name} (h : name ∈ steps path) :
    name ∈ names path ∧ name ≠ here := by
  simpa [steps] using h

/-! ### Text and pieces -/

theorem ofPieces_cons (piece : Name) {rest : List Name} (hne : rest ≠ []) :
    ofPieces (piece :: rest) = piece ++ '/' :: ofPieces rest := by
  cases rest with
  | nil => exact absurd rfl hne
  | cons other rest => rfl

theorem ofPieces_append {front back : List Name} (hfront : front ≠ []) (hback : back ≠ []) :
    ofPieces (front ++ back) = ofPieces front ++ '/' :: ofPieces back := by
  induction front with
  | nil => exact absurd rfl hfront
  | cons piece front ih =>
    cases front with
    | nil => exact ofPieces_cons piece hback
    | cons other front =>
      have hne : other :: front ≠ [] := List.cons_ne_nil _ _
      rw [List.cons_append, ofPieces_cons piece (List.append_ne_nil_of_left_ne_nil hne back),
        ih hne, ofPieces_cons piece hne, List.append_assoc, List.cons_append]

theorem ofPieces_pieces (path : Path) : ofPieces (pieces path) = path := by
  induction path with
  | nil => rfl
  | cons c rest ih =>
    rw [pieces]
    split
    · next hc => rw [ofPieces_cons _ (pieces_ne_nil rest), ih, hc, List.nil_append]
    · cases hp : pieces rest with
      | nil => exact absurd hp (pieces_ne_nil rest)
      | cons first others =>
        rw [hp] at ih
        cases others with
        | nil => exact congrArg (c :: ·) ih
        | cons other others => exact congrArg (c :: ·) ih

theorem pieces_ofPieces {parts : List Name} (hne : parts ≠ []) (h : ∀ piece ∈ parts, '/' ∉ piece) :
    pieces (ofPieces parts) = parts := by
  induction parts with
  | nil => exact absurd rfl hne
  | cons piece rest ih =>
    obtain ⟨hpiece, hrest⟩ := List.forall_mem_cons.mp h
    by_cases hlast : rest = []
    · rw [hlast]
      exact pieces_of_name hpiece
    · rw [ofPieces_cons piece hlast, pieces_append_slash, pieces_of_name hpiece, ih hlast hrest]
      rfl

/-! ### Idle pieces -/

theorem trimEnd_cons (first : Name) (rest : List Name) :
    trimEnd (first :: rest) = first :: rest.rdropWhile isIdle := rfl

/-- The idle pieces at the end are those that are dropped. -/
theorem filter_rdropWhile (parts : List Name) :
    (parts.rdropWhile isIdle).filter (fun piece => !isIdle piece) =
      parts.filter fun piece => !isIdle piece := by
  have hidle : (parts.rtakeWhile isIdle).filter (fun piece => !isIdle piece) = [] := by
    rw [List.filter_eq_nil_iff]
    intro piece hp
    simpa using List.mem_rtakeWhile_imp hp
  have hsplit : parts.rdropWhile isIdle ++ parts.rtakeWhile isIdle = parts :=
    List.rdropWhile_append_rtakeWhile
  conv_rhs => rw [← hsplit, List.filter_append, hidle, List.append_nil]

theorem not_isIdle_of_trimmed {parts front : List Name} {name : Name}
    (h : parts.rdropWhile isIdle = front ++ [name]) : isIdle name = false := by
  have hlast := List.rdropWhile_last_not isIdle parts (by rw [h]; simp)
  rw [Bool.not_eq_true] at hlast
  simpa [h] using hlast

/-! ### The parent of an absolute path -/

theorem parent?_of_idle {rest : Path} (h : (pieces rest).rdropWhile isIdle = []) :
    parent? ('/' :: rest) = none := by
  have hpieces : pieces ('/' :: rest) = [] :: pieces rest := rfl
  rw [parent?, hpieces, trimEnd_cons, h]
  rfl

theorem parent?_of_trimmed {rest : Path} {front : List Name} {name : Name}
    (h : (pieces rest).rdropWhile isIdle = front ++ [name]) :
    parent? ('/' :: rest) = some ('/' :: ofPieces (front.rdropWhile isIdle)) := by
  have hpieces : pieces ('/' :: rest) = [] :: pieces rest := rfl
  have hfront : trimEnd ([] :: (front ++ [name])).dropLast = [] :: front.rdropWhile isIdle := by
    rw [← List.cons_append, List.dropLast_concat, trimEnd_cons]
  rw [parent?, hpieces, trimEnd_cons, h]
  cases front with
  | nil => rfl
  | cons first others =>
    dsimp only [List.cons_append] at hfront ⊢
    rw [hfront]
    cases (first :: others).rdropWhile isIdle <;> rfl

theorem steps_slash {parts : List Name} (h : ∀ piece ∈ parts, '/' ∉ piece) :
    steps ('/' :: ofPieces parts) = parts.filter fun piece => !isIdle piece := by
  have hpieces : pieces ('/' :: ofPieces parts) = [] :: pieces (ofPieces parts) := rfl
  rw [steps_eq, hpieces]
  by_cases hne : parts = []
  · rw [hne]
    rfl
  · rw [pieces_ofPieces hne h]
    rfl

/-- What the parent of an absolute path is like. The name leads on from it. -/
structure IsParent (path parent : Path) (name : Name) : Prop where
  absolute : isAbsolute parent
  front : parent <+: path
  shorter : parent.length < path.length
  /-- It does not end in a dot. -/
  trimmed : (names parent).getLast? ≠ some here
  steps : steps path = Path.steps parent ++ [name]

theorem steps_trimmed (rest : Path) : steps ('/' :: rest) =
    ((pieces rest).rdropWhile isIdle).filter fun piece => !isIdle piece := by
  rw [filter_rdropWhile, steps_eq]
  rfl

/-- A text cut short at a piece is a part of it, and shorter if there is a name behind. -/
theorem ofPieces_front {rest : Path} {front more : List Name} {name : Name}
    (h : pieces rest = front ++ more) (hmem : name ∈ more) (hne : name ≠ []) :
    ofPieces front <+: rest ∧ (ofPieces front).length < rest.length := by
  have hmore : more ≠ [] := List.ne_nil_of_mem hmem
  by_cases hfront : front = []
  · subst hfront
    refine ⟨List.nil_prefix, List.length_pos_of_ne_nil ?_⟩
    rintro rfl
    rw [List.nil_append] at h
    rw [← h] at hmem
    exact hne (List.mem_singleton.mp hmem)
  · have hrest := ofPieces_pieces rest
    rw [h, ofPieces_append hfront hmore] at hrest
    rw [← hrest]
    exact ⟨List.prefix_append .., by simp⟩

theorem isParent_of_trimmed {rest : Path} {core : List Name} {name : Name}
    (h : (pieces rest).rdropWhile isIdle = core ++ [name]) :
    IsParent ('/' :: rest) ('/' :: ofPieces (core.rdropWhile isIdle)) name := by
  have hname := not_isIdle_of_trimmed h
  have hsplit : (pieces rest).rdropWhile isIdle ++ (pieces rest).rtakeWhile isIdle = pieces rest :=
    List.rdropWhile_append_rtakeWhile
  have hcore : core.rdropWhile isIdle ++ core.rtakeWhile isIdle = core :=
    List.rdropWhile_append_rtakeWhile
  rw [h, ← hcore, List.append_assoc, List.append_assoc] at hsplit
  have hnoSlash : ∀ piece ∈ core.rdropWhile isIdle, '/' ∉ piece := by
    intro piece hp
    have hmem := List.mem_append_left
      (core.rtakeWhile isIdle ++ ([name] ++ (pieces rest).rtakeWhile isIdle)) hp
    rw [hsplit] at hmem
    exact noSlash_of_mem_pieces hmem
  have hne : name ≠ [] := by
    rintro rfl
    cases hname
  obtain ⟨hfront, hshorter⟩ := ofPieces_front hsplit.symm
    (List.mem_append_right _ (List.mem_append_left _ (List.mem_singleton_self name))) hne
  constructor
  case absolute => rfl
  case front => exact List.cons_prefix_cons.mpr ⟨rfl, hfront⟩
  case shorter => simpa using hshorter
  case trimmed =>
    rw [names_cons_slash]
    rcases List.eq_nil_or_concat (core.rdropWhile isIdle) with hnil | ⟨front, last, hlast⟩
    · rw [hnil]
      rintro ⟨⟩
    · rw [List.concat_eq_append] at hlast
      have hidle := not_isIdle_of_trimmed hlast
      rw [hlast] at hnoSlash ⊢
      rw [names, pieces_ofPieces (by simp) hnoSlash, List.filter_append]
      have hfull : last ≠ [] := by
        rintro rfl
        cases hidle
      have hhere : last ≠ here := by
        rintro rfl
        cases hidle
      simp [hfull, hhere]
  case steps =>
    rw [steps_trimmed, steps_slash hnoSlash, h, filter_rdropWhile, List.filter_append]
    simp [hname]

/-- A path without names that lead on has no parent. -/
theorem parent?_cases {path : Path} (absolute : isAbsolute path) :
    parent? path = none ∧ steps path = [] ∨
      ∃ parent name, parent? path = some parent ∧ IsParent path parent name := by
  cases path with
  | nil => cases absolute
  | cons c rest =>
    obtain rfl : c = '/' := by simpa [isAbsolute] using absolute
    rcases List.eq_nil_or_concat ((pieces rest).rdropWhile isIdle) with
      hidle | ⟨core, name, hcore⟩
    · rw [steps_trimmed, hidle]
      exact .inl ⟨parent?_of_idle hidle, rfl⟩
    · rw [List.concat_eq_append] at hcore
      exact .inr ⟨_, name, parent?_of_trimmed hcore, isParent_of_trimmed hcore⟩

/-! ### All parents -/

theorem ancestorsUpTo_fuel {path : Path} (absolute : isAbsolute path) {count other : Nat}
    (h : path.length < count) (ho : path.length < other) :
    ancestorsUpTo count path = ancestorsUpTo other path := by
  induction count generalizing path other with
  | zero => exact absurd h (Nat.not_lt_zero _)
  | succ count ih =>
    cases other with
    | zero => exact absurd ho (Nat.not_lt_zero _)
    | succ other =>
      rw [ancestorsUpTo, ancestorsUpTo]
      rcases parent?_cases absolute with ⟨hnone, -⟩ | ⟨parent, name, hparent, hp⟩
      · rw [hnone]
      · have hshorter := hp.shorter
        rw [hparent]
        exact congrArg (path :: ·) (ih hp.absolute (by omega) (by omega))

theorem ancestors_of_parent {path parent : Path} {name : Name} (h : parent? path = some parent)
    (hp : IsParent path parent name) : ancestors path = path :: ancestors parent := by
  have hshorter := hp.shorter
  rw [ancestors, ancestorsUpTo, h, ancestors]
  exact congrArg (path :: ·) (ancestorsUpTo_fuel hp.absolute (by omega) (by omega))

theorem ancestors_of_none {path : Path} (h : parent? path = none) : ancestors path = [path] := by
  rw [ancestors, ancestorsUpTo, h]

/-- What holds of paths without names that lead on, and of a path if it holds of its parent, holds
of all absolute paths. -/
@[elab_as_elim]
theorem absolute_induction {motive : (path : Path) → isAbsolute path → Prop}
    (top : ∀ path absolute, steps path = [] → ancestors path = [path] → motive path absolute)
    (below : ∀ path absolute parent name (h : IsParent path parent name),
      ancestors path = path :: ancestors parent → motive parent h.absolute → motive path absolute)
    (path : Path) (absolute : isAbsolute path) : motive path absolute := by
  induction hlength : path.length using Nat.strongRecOn generalizing path with
  | ind length ih =>
    rcases parent?_cases absolute with ⟨hnone, hsteps⟩ | ⟨parent, name, hparent, hp⟩
    · exact top path absolute hsteps (ancestors_of_none hnone)
    · exact below path absolute parent name hp (ancestors_of_parent hparent hp)
        (ih parent.length (hlength ▸ hp.shorter) parent hp.absolute rfl)

/-- The names of a parent that lead on are the first ones of the path. -/
theorem steps_of_mem_ancestors {path : Path} (absolute : isAbsolute path) :
    ∀ parent ∈ ancestors path, isAbsolute parent ∧ steps parent <+: steps path := by
  induction path, absolute using absolute_induction with
  | top path absolute hsteps htop =>
    intro parent hmem
    rw [htop, List.mem_singleton] at hmem
    rw [hmem]
    exact ⟨absolute, List.prefix_rfl⟩
  | below path absolute parent name hp hbelow ih =>
    intro other hmem
    rw [hbelow] at hmem
    rcases List.mem_cons.mp hmem with rfl | hmem
    · exact ⟨absolute, List.prefix_rfl⟩
    · obtain ⟨hother, hsteps⟩ := ih other hmem
      rw [hp.steps]
      exact ⟨hother, hsteps.trans (List.prefix_append ..)⟩

end Provision.Path

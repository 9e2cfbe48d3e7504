import Provision.Disk.Database

/-! Where a path leads by its text alone.

Nothing on a disk points elsewhere, so a path that can be followed leads to the location that
its names spell out: `Location.follow`. The names of a joined path are those of its parts,
`names_join`. -/
namespace Provision

/-! ### Following names -/

namespace Location

/-- The location that a name leads to, if it leads anywhere. -/
def next (location : Location) (name : Name) : Location :=
  if name = Path.here then location
  else if name = Path.above then location.dropLast
  else location ++ [name]

/-- The location that names lead to, if they lead anywhere. -/
def follow (location : Location) (names : List Name) : Location :=
  names.foldl next location

variable {location : Location}

theorem follow_append (names others : List Name) :
    location.follow (names ++ others) = (location.follow names).follow others :=
  List.foldl_append

theorem next_here : location.next Path.here = location := by
  simp [next]

theorem next_of_plain {name : Name} (hhere : name ≠ Path.here) (habove : name ≠ Path.above) :
    location.next name = location ++ [name] := by
  simp [next, hhere, habove]

end Location

namespace Path

/-! ### Pieces and names -/

theorem pieces_ne_nil (path : Path) : pieces path ≠ [] := by
  cases path with
  | nil => simp [pieces]
  | cons c rest =>
    rw [pieces]
    split
    · simp
    · split <;> simp

/-- A slash cuts a path in two. -/
theorem pieces_append_slash (path rest : Path) :
    pieces (path ++ '/' :: rest) = pieces path ++ pieces rest := by
  induction path with
  | nil => simp [pieces]
  | cons c path ih =>
    rw [List.cons_append, pieces, pieces, ih]
    split
    · rfl
    · cases hp : pieces path with
      | nil => exact absurd hp (pieces_ne_nil path)
      | cons first others => rfl

theorem pieces_of_name {name : Name} (h : '/' ∉ name) : pieces name = [name] := by
  induction name with
  | nil => rfl
  | cons c name ih =>
    obtain ⟨hc, hname⟩ := not_or.mp (mt List.mem_cons.mpr h)
    rw [pieces, if_neg (Ne.symm hc), ih hname]

theorem names_append_slash (path rest : Path) :
    names (path ++ '/' :: rest) = names path ++ names rest := by
  rw [names, pieces_append_slash, List.filter_append]
  rfl

theorem names_of_name {name : Name} (hne : name ≠ []) (h : '/' ∉ name) : names name = [name] := by
  cases name with
  | nil => exact absurd rfl hne
  | cons c name => rw [names, pieces_of_name h]; rfl

theorem names_cons_slash (rest : Path) : names ('/' :: rest) = names rest :=
  names_append_slash [] rest

/-! ### Joining -/

theorem eq_append_of_endsInSlash {path : Path} (h : endsInSlash path) :
    ∃ rest, path = rest ++ ['/'] := by
  rw [endsInSlash, beq_iff_eq, List.getLast?_eq_some_iff] at h
  exact h

/-- A path that is not absolute goes on where the other ends. -/
theorem names_join (base : Path) {path : Path} (h : isAbsolute path = false) :
    names (join base path) = names base ++ names path := by
  rw [join, h, if_neg Bool.false_ne_true]
  split
  · next hbase =>
    rcases Bool.or_eq_true_iff.mp hbase with hbase | hbase
    · rw [List.isEmpty_iff.mp hbase]
      rfl
    · obtain ⟨rest, rfl⟩ := eq_append_of_endsInSlash hbase
      rw [List.append_assoc, List.singleton_append, names_append_slash, names_append_slash]
      simp [names, pieces]
  · exact names_append_slash base path

theorem isAbsolute_of_noSlash {path : Path} (h : '/' ∉ path) : isAbsolute path = false := by
  cases path with
  | nil => rfl
  | cons c rest =>
    have hc := (not_or.mp (mt List.mem_cons.mpr h)).1
    simp [isAbsolute, Ne.symm hc]

theorem ne_nil_of_isAbsolute {path : Path} (h : isAbsolute path) : path ≠ [] := by
  rintro rfl
  cases h

theorem isAbsolute_append {base : Path} (h : isAbsolute base) (rest : Path) :
    isAbsolute (base ++ rest) := by
  cases base with
  | nil => cases h
  | cons c base => exact h

theorem isAbsolute_join {base : Path} (h : isAbsolute base) (path : Path) :
    isAbsolute (join base path) := by
  rw [join]
  split
  · assumption
  · split <;> exact isAbsolute_append h _

theorem isAbsolute_ofLocation (location : Location) : isAbsolute (ofLocation location) := by
  cases location <;> rfl

theorem isAbsolute_joinAll {base : Path} (h : isAbsolute base) (names : List Name) :
    isAbsolute (joinAll base names) := by
  induction names generalizing base with
  | nil => exact h
  | cons name names ih => exact ih (isAbsolute_join h name)

/-- The absolute path of a path is absolute. -/
theorem isAbsolute_absolute {directory : Location} {path whole : Path}
    (h : absolute directory path = .ok whole) : isAbsolute whole := by
  unfold absolute at h
  split at h
  · cases h
  split at h
  · cases h
  have hwhole : ∀ start : Path, isAbsolute start →
      isAbsolute (joinAll start ((names path).filter (· ≠ here))) :=
    fun start hstart => isAbsolute_joinAll hstart _
  have hstart : isAbsolute (if hasDoubleSlash path then ['/', '/']
      else if isAbsolute path then ['/'] else ofLocation directory) := by
    split
    · rfl
    · split
      · rfl
      · exact isAbsolute_ofLocation directory
  simp only [Except.ok.injEq] at h
  subst h
  split
  · exact isAbsolute_join (hwhole _ hstart) _
  · exact hwhole _ hstart

end Path

/-! ### The paths of a store -/

/-- A name that leads one directory down. -/
structure Name.IsPlain (name : Name) : Prop where
  nonempty : name ≠ []
  noSlash : '/' ∉ name
  notHere : name ≠ Path.here
  notAbove : name ≠ Path.above

instance (name : Name) : Decidable name.IsPlain :=
  decidable_of_iff (name ≠ [] ∧ '/' ∉ name ∧ name ≠ Path.here ∧ name ≠ Path.above)
    ⟨fun ⟨hne, hslash, hhere, habove⟩ => ⟨hne, hslash, hhere, habove⟩,
      fun ⟨hne, hslash, hhere, habove⟩ => ⟨hne, hslash, hhere, habove⟩⟩

theorem databaseName_isPlain : databaseName.IsPlain := by decide

namespace Name.IsPlain

variable {name : Name}

theorem isAbsolute (h : name.IsPlain) : Path.isAbsolute name = false :=
  Path.isAbsolute_of_noSlash h.noSlash

theorem names_join (h : name.IsPlain) (base : Path) :
    Path.names (Path.join base name) = Path.names base ++ [name] := by
  rw [Path.names_join base h.isAbsolute, Path.names_of_name h.nonempty h.noSlash]

theorem next (h : name.IsPlain) (location : Location) : location.next name = location ++ [name] :=
  Location.next_of_plain h.notHere h.notAbove

end Name.IsPlain

theorem names_databasePath {store : Name} (h : store.IsPlain) (root : Path) :
    Path.names (databasePath root store) = Path.names root ++ [store, databaseName] := by
  rw [databasePath, databaseName_isPlain.names_join, h.names_join, List.append_assoc]
  rfl

theorem isAbsolute_databasePath {root : Path} (h : Path.isAbsolute root) (store : Name) :
    Path.isAbsolute (databasePath root store) :=
  Path.isAbsolute_join (Path.isAbsolute_join h store) databaseName

theorem endsInSlash_databasePath (root : Path) (store : Name) :
    Path.endsInSlash (databasePath root store) = false := by
  have happend : ∀ path : Path, Path.endsInSlash (path ++ databaseName) = false := by
    intro path
    rw [Path.endsInSlash, List.getLast?_append]
    rfl
  rw [databasePath, Path.join, databaseName_isPlain.isAbsolute, if_neg Bool.false_ne_true]
  split
  · exact happend _
  · rw [← List.singleton_append, ← List.append_assoc]
    exact happend _

end Provision

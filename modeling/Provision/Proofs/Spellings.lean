import Mathlib.Data.List.Induction
import Provision.Proofs.Coherence

/-! Two spellings of one place.

A path and its absolute path lead to the same places, on a disk that makes sense:
`locate_of_absolute`. They differ by the way to the working directory and by dots, and neither
leads anywhere else. But they differ in length, too, and a path that is too long leads nowhere. -/
namespace Provision

namespace Path

/-! ### The names of an absolute path -/

/-- A name stands on its own in front of nothing or a slash. -/
theorem names_name_append {name : Name} (hne : name ≠ []) (h : '/' ∉ name) {rest : Path}
    (hrest : rest = [] ∨ ∃ more, rest = '/' :: more) :
    names (name ++ rest) = name :: names rest := by
  rcases hrest with rfl | ⟨more, rfl⟩
  · rw [List.append_nil, names_of_name hne h]
    rfl
  · rw [names_append_slash, names_of_name hne h, names_cons_slash]
    rfl

theorem names_slashed {location : Location} (h : ∀ name ∈ location, name.IsPlain) :
    names (location.flatMap fun name => '/' :: name) = location := by
  induction location with
  | nil => rfl
  | cons name rest ih =>
    have hname := h name (List.mem_cons_self ..)
    have hrest : (rest.flatMap fun name => '/' :: name) = [] ∨
        ∃ more, (rest.flatMap fun name => '/' :: name) = '/' :: more := by
      cases rest with
      | nil => exact .inl rfl
      | cons other rest => exact .inr ⟨_, rfl⟩
    rw [List.flatMap_cons, List.cons_append, names_cons_slash,
      names_name_append hname.nonempty hname.noSlash hrest,
      ih fun other ho => h other (List.mem_cons_of_mem _ ho)]

theorem names_ofLocation {location : Location} (h : ∀ name ∈ location, name.IsPlain) :
    names (ofLocation location) = location := by
  cases location with
  | nil => rfl
  | cons name rest => exact names_slashed h

theorem names_joinAll (base : Path) {others : List Name}
    (h : ∀ name ∈ others, name ≠ [] ∧ '/' ∉ name) :
    names (joinAll base others) = names base ++ others := by
  induction others generalizing base with
  | nil => exact (List.append_nil _).symm
  | cons name rest ih =>
    obtain ⟨hne, hslash⟩ := h name (List.mem_cons_self ..)
    show names (joinAll (join base name) rest) = _
    rw [ih _ fun other ho => h other (List.mem_cons_of_mem _ ho),
      names_join base (isAbsolute_of_noSlash hslash), names_of_name hne hslash, List.append_assoc]
    rfl

theorem isAbsolute_of_hasDoubleSlash {path : Path} (h : hasDoubleSlash path) :
    isAbsolute path = true := by
  unfold hasDoubleSlash at h
  split at h
  · rfl
  · cases h

theorem noSlash_of_mem_names {path : Path} {name : Name} (h : name ∈ names path) :
    name ≠ [] ∧ '/' ∉ name :=
  ⟨Disk.ne_nil_of_mem_names h, noSlash_of_mem_pieces (List.mem_filter.mp h).1⟩

theorem ne_nil_of_absolute {directory : Location} {path whole : Path}
    (h : absolute directory path = .ok whole) : path ≠ [] := by
  rintro rfl
  cases h

theorem attached_of_absolute {directory : Location} {path whole : Path}
    (h : absolute directory path = .ok whole) (relative : isAbsolute path = false) :
    directory.isDetached = false := by
  unfold absolute at h
  split at h
  · cases h
  split at h
  · cases h
  next hdetached =>
  rw [relative] at hdetached
  exact Bool.eq_false_iff.mpr hdetached

/-- The names of the absolute path of a path: those of the directory that it goes on from, if it is
relative, and its own without the dots. -/
theorem names_absolute {directory : Location} {path whole : Path}
    (plain : isAbsolute path = false → ∀ name ∈ directory, name.IsPlain)
    (h : absolute directory path = .ok whole) :
    names whole =
      (if isAbsolute path then [] else directory) ++ (names path).filter (· ≠ here) := by
  have hstart : names (if hasDoubleSlash path then ['/', '/'] else
      if isAbsolute path then ['/'] else ofLocation directory) =
        if isAbsolute path then [] else directory := by
    split
    · next hdouble =>
      rw [if_pos (isAbsolute_of_hasDoubleSlash hdouble)]
      rfl
    · cases habsolute : isAbsolute path with
      | true => rfl
      | false => exact names_ofLocation (plain habsolute)
  have hpieces : ∀ name ∈ (names path).filter (· ≠ here), name ≠ [] ∧ '/' ∉ name :=
    fun name hn => noSlash_of_mem_names (List.mem_filter.mp hn).1
  unfold absolute at h
  split at h
  · cases h
  split at h
  · cases h
  simp only [Except.ok.injEq] at h
  rw [← hstart, ← names_joinAll _ hpieces, ← h]
  split
  · rw [names_join _ rfl]
    exact List.append_nil _
  · rfl

/-! ### Joined paths -/

theorem isAbsolute_join_of_relative {base path : Path} (hne : base ≠ [])
    (h : isAbsolute path = false) : isAbsolute (join base path) = isAbsolute base := by
  cases base with
  | nil => exact absurd rfl hne
  | cons c base =>
    rw [join, h, if_neg Bool.false_ne_true]
    split <;> rfl

theorem join_of_absolute (base : Path) {path : Path} (h : isAbsolute path) :
    join base path = path := by
  rw [join, if_pos h]

theorem mem_join_right {base path : Path} {c : Char} (h : c ∈ path) : c ∈ join base path := by
  rw [join]
  split
  · exact h
  · split
    · exact List.mem_append_right _ h
    · exact List.mem_append_right _ (List.mem_cons_of_mem _ h)

theorem mem_join_left {base path : Path} (hrelative : isAbsolute path = false) {c : Char}
    (h : c ∈ base) : c ∈ join base path := by
  rw [join, hrelative, if_neg Bool.false_ne_true]
  split <;> exact List.mem_append_left _ h

theorem join_ne_nil {base path : Path} (hne : base ≠ []) (hrelative : isAbsolute path = false) :
    join base path ≠ [] := by
  obtain ⟨c, rest, rfl⟩ := List.exists_cons_of_ne_nil hne
  exact List.ne_nil_of_mem (mem_join_left hrelative (List.mem_cons_self ..))

theorem mem_of_mem_join {base path : Path} {c : Char} (h : c ∈ join base path) :
    c ∈ base ∨ c = '/' ∨ c ∈ path := by
  rw [join] at h
  split at h
  · exact .inr (.inr h)
  split at h
  · exact (List.mem_append.mp h).imp_right .inr
  · rcases List.mem_append.mp h with h | h
    · exact .inl h
    · exact .inr (List.mem_cons.mp h)

end Path

theorem Text.Utf8.length_append (a b : List Char) :
    length (a ++ b) = length a + length b := by
  induction a with
  | nil => simp [length]
  | cons c rest ih =>
    show c.utf8Size + length (rest ++ b) = c.utf8Size + length rest + length b
    rw [ih, Nat.add_assoc]

namespace Disk

variable {disk : Disk}

/-! ### Following dots -/

theorem checkPath_eq_ok_iff {path : Path} : checkPath path = .ok () ↔
    '\x00' ∉ path ∧ path ≠ [] ∧ Text.Utf8.length path < pathBound := by
  unfold checkPath
  split
  · next h => simp [h]
  split
  · next h => simp_all
  split
  · next h => simp [Nat.not_lt.mpr h]
  · next hzero hempty hlong => simp_all

theorem directory_of_walk {location target : Location} {names : List Name} (hne : names ≠ [])
    (h : disk.walk location names = .ok target) : disk.entry? location = some .directory := by
  cases names with
  | nil => exact absurd rfl hne
  | cons name rest =>
    obtain ⟨next, hnext, -⟩ := bind_eq_ok_iff.mp h
    exact (enter_eq_ok_iff.mp hnext).1

/-- Dots among the names lead nowhere else, if more names follow. -/
theorem walk_of_filter {location target : Location} {names more : List Name} (hne : more ≠ [])
    (h : disk.walk location (names.filter (· ≠ Path.here) ++ more) = .ok target) :
    disk.walk location (names ++ more) = .ok target := by
  induction names generalizing location with
  | nil => exact h
  | cons name rest ih =>
    by_cases hname : name = Path.here
    · subst hname
      have hrest : disk.walk location (rest.filter (· ≠ Path.here) ++ more) = .ok target := by
        simpa using h
      have hdirectory := directory_of_walk (List.append_ne_nil_of_right_ne_nil _ hne) hrest
      refine bind_eq_ok_iff.mpr ⟨location, ?_, ih hrest⟩
      exact enter_eq_ok_iff.mpr ⟨hdirectory, Location.next_here, .inl rfl⟩
    · rw [List.filter_cons_of_pos (by simpa using hname)] at h
      obtain ⟨next, hnext, hrest⟩ := bind_eq_ok_iff.mp h
      exact bind_eq_ok_iff.mpr ⟨next, hnext, ih hrest⟩

/-- A directory that is in another one can be walked to from the root directory, by plain
names. -/
theorem Coherent.walk_root (coherent : disk.Coherent) (location : Location)
    (hdirectory : disk.entry? location = some .directory) (attached : location.isDetached = false) :
    disk.walk [] location = .ok location ∧ ∀ name ∈ location, name.IsPlain := by
  induction location using List.reverseRecOn with
  | nil => exact ⟨rfl, fun _ h => (nomatch h)⟩
  | append_singleton front name ih =>
    have hfind : disk.tree.find? (front ++ [name]) = some .directory := by
      rw [entry?_def, if_neg] at hdirectory
      · exact hdirectory
      · simp [attached]
    obtain ⟨hinside, hattached, last, hlast, hplain, hshort⟩ := coherent.placed _ _ hfind
    rw [List.dropLast_concat] at hinside hattached
    rw [List.getLast?_concat, Option.some.injEq] at hlast
    subst hlast
    obtain ⟨hwalk, hnames⟩ := ih hinside hattached
    constructor
    · rw [walk_append]
      refine bind_eq_ok_iff.mpr ⟨front, hwalk, bind_eq_ok_iff.mpr ⟨front ++ [name], ?_, rfl⟩⟩
      refine enter_eq_ok_iff.mpr ⟨hinside, hplain.next front, .inr (.inr ⟨hattached, hshort, ?_⟩)⟩
      rw [hdirectory]
      rfl
    · intro other ho
      rcases List.mem_append.mp ho with ho | ho
      · exact hnames other ho
      · rw [List.mem_singleton.mp ho]
        exact hplain

/-! ### What a path that can be made is like -/

theorem checkPath_ne_notFound {path : Path} (hne : path ≠ []) :
    checkPath path ≠ .error .notFound := by
  unfold checkPath
  split
  · rintro ⟨⟩
  split
  · next h => exact absurd (List.isEmpty_iff.mp h) hne
  split <;> rintro ⟨⟩

/-- What can be no path at all is not made. -/
theorem checkPath_of_makeDirectories {disk' : Disk} {path : Path} (hne : path ≠ [])
    (h : disk.makeDirectories path = (.ok (), disk')) : checkPath path = .ok () := by
  cases hcheck : checkPath path with
  | ok _ => rfl
  | error e =>
    have hmake : disk.makeDirectory path = .error e := by
      rw [makeDirectory, Disk.place, directoryOf, hcheck]
      rfl
    have hdirectory : disk.isDirectory path = false := by
      rw [isDirectory, locate, hcheck]
      rfl
    have hfound : e ≠ .notFound := by
      rintro rfl
      exact checkPath_ne_notFound hne hcheck
    obtain ⟨parents, hparents⟩ : ∃ parents, Path.ancestors path = path :: parents := ⟨_, rfl⟩
    rw [makeDirectories, hparents, makeAll, if_neg (by simpa using hne), hmake] at h
    simp only [hdirectory] at h
    cases h

/-! ### The database of a store -/

variable {path whole : Path} {name store : Name} {place : Location}

theorem mem_databasePath_of_mem (hstore : store.IsPlain) (root : Path) {c : Char}
    (h : c ∈ root ∨ c ∈ store) : c ∈ databasePath root store := by
  apply Path.mem_join_left databaseName_isPlain.isAbsolute
  rcases h with h | h
  · exact Path.mem_join_left hstore.isAbsolute h
  · exact Path.mem_join_right h

/-- What stands in the path of a database stands in the path of its directory or in a name, or it
is a slash. -/
theorem mem_of_mem_databasePath {root : Path} {c : Char} (h : c ∈ databasePath root store) :
    c ∈ root ∨ c ∈ store ∨ c = '/' ∨ c ∈ databaseName := by
  rcases Path.mem_of_mem_join h with h | h | h
  · rcases Path.mem_of_mem_join h with h | h | h
    · exact .inl h
    · exact .inr (.inr (.inl h))
    · exact .inr (.inl h)
  · exact .inr (.inr (.inl h))
  · exact .inr (.inr (.inr h))

theorem isAbsolute_databasePath_of_relative (hstore : store.IsPlain) {root : Path}
    (hne : root ≠ []) : Path.isAbsolute (databasePath root store) = Path.isAbsolute root := by
  have hjoin := Path.join_ne_nil hne hstore.isAbsolute
  rw [databasePath, Path.isAbsolute_join_of_relative hjoin databaseName_isPlain.isAbsolute,
    Path.isAbsolute_join_of_relative hne hstore.isAbsolute]

/-- If a path and the absolute path of a database are paths at all, so is the other path of the
database, unless it is too long. -/
theorem checkPath_databasePath (hpath : checkPath path = .ok ()) (hstore : store.IsPlain)
    (hrelative : Path.isAbsolute name = false)
    (hwhole : checkPath (databasePath (Path.join whole name) store) = .ok ())
    (short : Text.Utf8.length (databasePath (Path.join path name) store) < pathBound) :
    checkPath (databasePath (Path.join path name) store) = .ok () := by
  obtain ⟨hzero, hne, -⟩ := checkPath_eq_ok_iff.mp hpath
  obtain ⟨hzero', -, -⟩ := checkPath_eq_ok_iff.mp hwhole
  refine checkPath_eq_ok_iff.mpr ⟨?_, ?_, short⟩
  · intro h
    rcases mem_of_mem_databasePath h with h | h | h | h
    · rcases Path.mem_of_mem_join h with h | h | h
      · exact hzero h
      · cases h
      · exact hzero' (mem_databasePath_of_mem hstore _ (.inl (Path.mem_join_right h)))
    · exact hzero' (mem_databasePath_of_mem hstore _ (.inr h))
    · cases h
    · exact absurd h (by decide)
  · exact Path.join_ne_nil (Path.join_ne_nil (Path.join_ne_nil hne hrelative) hstore.isAbsolute)
      databaseName_isPlain.isAbsolute

/-- **A path of a database leads where its absolute path leads, unless it is too long.** -/
theorem locate_of_absolute (coherent : disk.Coherent)
    (habsolute : Path.absolute disk.workingDirectory path = .ok whole)
    (hpath : checkPath path = .ok ()) (hstore : store.IsPlain)
    (hl : disk.locate (databasePath (Path.join whole name) store) = .ok place)
    (short : Text.Utf8.length (databasePath (Path.join path name) store) < pathBound) :
    disk.locate (databasePath (Path.join path name) store) = .ok place := by
  cases hname : Path.isAbsolute name with
  | true =>
    rw [Path.join_of_absolute _ hname] at hl ⊢
    exact hl
  | false =>
    have hne := Path.ne_nil_of_absolute habsolute
    obtain ⟨hwhole, hwalk, entry, hentry, -⟩ := locate_eq_ok_iff.mp hl
    refine locate_eq_ok_iff.mpr ⟨checkPath_databasePath hpath hstore hname hwhole short, ?_, entry,
      hentry, .inr (endsInSlash_databasePath _ _)⟩
    have hroot := fun hrelative => coherent.walk_root _ coherent.workingDirectory
      (Path.attached_of_absolute habsolute hrelative)
    have hnames := Path.names_absolute (fun hrelative => (hroot hrelative).2) habsolute
    have hjoin := Path.join_ne_nil hne hname
    rw [Disk.start, if_pos (isAbsolute_databasePath
      (Path.isAbsolute_join (Path.isAbsolute_absolute habsolute) name) store),
      names_databasePath hstore, Path.names_join _ hname, hnames, List.append_assoc,
      List.append_assoc] at hwalk
    rw [Disk.start, isAbsolute_databasePath_of_relative hstore hjoin,
      Path.isAbsolute_join_of_relative hne hname, names_databasePath hstore,
      Path.names_join _ hname, List.append_assoc]
    refine walk_of_filter (List.append_ne_nil_of_right_ne_nil _ (List.cons_ne_nil _ _)) ?_
    cases hrelative : Path.isAbsolute path with
    | true =>
      rw [hrelative] at hwalk
      exact hwalk
    | false =>
      rw [hrelative, if_neg Bool.false_ne_true, walk_append] at hwalk
      obtain ⟨directory, hdirectory, hwalk⟩ := bind_eq_ok_iff.mp hwalk
      rw [(hroot hrelative).1] at hdirectory
      cases hdirectory
      exact hwalk

end Disk
end Provision

import Provision.Proofs.Parents
import Provision.Proofs.Refusals

/-! Making directories where nothing stands in the way.

A way is open if nothing but directories is on it, and everything else on it can be made,
`IsOpen`. A directory at the end of an open way is made with all its parents,
`makeDirectories_of_open`, unless its path ends in a dot: the directory that a dot means must be
there when its turn comes, and the parents of the path need not come by it. `Dangles` says when
they do not, `makeDirectories_of_not_dangles` and `not_makeDirectories_of_dangles` what follows. -/
namespace Provision

namespace Location

theorem follow_filter (location : Location) (names : List Name) :
    location.follow (names.filter (· ≠ Path.here)) = location.follow names := by
  induction names generalizing location with
  | nil => rfl
  | cons name rest ih =>
    by_cases hname : name = Path.here
    · subst hname
      simpa [follow, next_here] using ih location
    · rw [List.filter_cons_of_pos (by simpa using hname)]
      exact ih (location.next name)

theorem mem_follow {names : List Name} {name : Name} (h : name ∈ follow [] names) :
    name ∈ names := by
  induction names using List.reverseRecOn with
  | nil => exact h
  | append_singleton front last ih =>
    rw [follow_append] at h
    change name ∈ (follow [] front).next last at h
    rw [next] at h
    split at h
    · exact List.mem_append_left _ (ih h)
    split at h
    · exact List.mem_append_left _ (ih (List.dropLast_subset _ h))
    · rcases List.mem_append.mp h with h | h
      · exact List.mem_append_left _ (ih h)
      · exact List.mem_append_right _ h

theorem attached_follow {names : List Name} (h : ∀ name ∈ names, name ≠ []) :
    isDetached (follow [] names) = false := by
  rw [isDetached, beq_eq_false_iff_ne]
  intro hlast
  exact h [] (mem_follow (List.mem_of_getLast? hlast)) rfl

/-- What leads below a place comes by the place. -/
theorem exists_front_of_prefix {place : Location} {names : List Name}
    (h : place <+: follow [] names) : ∃ front, front <+: names ∧ follow [] front = place := by
  induction names using List.reverseRecOn with
  | nil => exact ⟨[], List.prefix_rfl, (List.prefix_nil.mp h).symm⟩
  | append_singleton front last ih =>
    have hshorter : ∀ {before}, before <+: front → before <+: front ++ [last] :=
      fun hb => hb.trans (List.prefix_append ..)
    by_cases hthere : place = follow [] (front ++ [last])
    · exact ⟨_, List.prefix_rfl, hthere.symm⟩
    · have hbefore : place <+: follow [] front := by
        rw [follow_append] at h hthere
        change place <+: (follow [] front).next last at h
        change place ≠ (follow [] front).next last at hthere
        rw [next] at h hthere
        split at h
        · exact h
        split at h
        · exact h.trans (List.dropLast_prefix _)
        · next hhere habove =>
          rw [if_neg hhere, if_neg habove] at hthere
          exact (List.prefix_concat_iff.mp h).resolve_left hthere
      obtain ⟨before, hb, hplace⟩ := ih hbefore
      exact ⟨before, hshorter hb, hplace⟩

end Location

namespace Disk

variable {disk disk' : Disk} {path : Path} {names : List Name}

/-! ### Open ways -/

/-- From the root directory on, names lead through directories as far as anything is there, and
all of it can be made. -/
structure IsOpen (disk : Disk) (names : List Name) : Prop where
  free : ∀ front, front <+: names → disk.NoFile (Location.follow [] front)
  short : ∀ name ∈ names, Text.Utf8.length name ≤ mostNameBytes

theorem IsOpen.front (h : disk.IsOpen names) {front : List Name} (hf : front <+: names) :
    disk.IsOpen front where
  free := fun before hb => h.free before (hb.trans hf)
  short := fun name hn => h.short name (hf.subset hn)

theorem IsOpen.adds (h : disk.IsOpen names) (hadds : AddsDirectories disk disk') :
    disk'.IsOpen names where
  free := fun front hf => hadds.noFile (h.free front hf)
  short := h.short

theorem IsOpen.concat (h : disk.IsOpen names) {name : Name}
    (free : disk.NoFile (Location.follow [] (names ++ [name])))
    (short : Text.Utf8.length name ≤ mostNameBytes) : disk.IsOpen (names ++ [name]) where
  free := fun front hf => by
    rcases List.prefix_concat_iff.mp hf with rfl | hf
    · exact free
    · exact h.free front hf
  short := fun other ho => by
    rcases List.mem_append.mp ho with ho | ho
    · exact h.short other ho
    · rw [List.mem_singleton.mp ho]
      exact short

theorem short_of_enter {location next : Location} {name : Name}
    (h : disk.enter location name = .ok next) : Text.Utf8.length name ≤ mostNameBytes := by
  rcases (enter_eq_ok_iff.mp h).2.2 with rfl | rfl | ⟨-, hshort, -⟩
  · decide
  · decide
  · exact hshort

theorem enter_cases {location : Location} {name : Name} (free : disk.NoFile location)
    (short : Text.Utf8.length name ≤ mostNameBytes) :
    disk.enter location name = .ok (location.next name) ∨
      disk.enter location name = .error .notFound := by
  unfold enter
  cases hentry : disk.entry? location with
  | none => exact .inr rfl
  | some entry =>
    cases entry with
    | file id => exact absurd hentry (free id)
    | directory =>
      simp only [Location.next]
      by_cases hhere : name = Path.here
      · simp [hhere]
      by_cases habove : name = Path.above
      · simp [habove, show Path.above ≠ Path.here by decide]
      by_cases hdetached : location.isDetached
      · simp [hhere, habove, hdetached]
      cases disk.entry? (location ++ [name]) <;>
        simp [hhere, habove, hdetached, Nat.not_lt.mpr short]

/-- What is passed on the way to a directory is a directory. -/
theorem directory_on_walk {names others : List Name} {location : Location}
    (walked : disk.walk [] (names ++ others) = .ok location)
    (there : disk.entry? location = some .directory) :
    disk.entry? (Location.follow [] names) = some .directory := by
  rw [walk_append] at walked
  obtain ⟨middle, hfront, hback⟩ := bind_eq_ok_iff.mp walked
  rw [← walk_eq_ok hfront]
  cases others with
  | nil =>
    cases hback
    exact there
  | cons name others => exact directory_of_walk (List.cons_ne_nil _ _) hback

/-- The way to a directory that is there is open. -/
theorem isOpen_of_walk {location : Location} (walked : disk.walk [] names = .ok location)
    (there : disk.entry? location = some .directory) : disk.IsOpen names where
  free := by
    rintro front ⟨rest, rfl⟩ id he
    rw [directory_on_walk walked there] at he
    cases he
  short := fun name hn => by
    obtain ⟨front, back, rfl⟩ := List.append_of_mem hn
    rw [walk_append] at walked
    obtain ⟨middle, -, hback⟩ := bind_eq_ok_iff.mp walked
    obtain ⟨next, henter, -⟩ := bind_eq_ok_iff.mp hback
    exact short_of_enter henter

/-- A way that is open is followed to its end, or something on it is not there. -/
theorem IsOpen.walk_cases (h : disk.IsOpen (names.filter (· ≠ Path.here))) :
    disk.walk [] names = .ok (Location.follow [] names) ∨
      disk.walk [] names = .error .notFound := by
  induction names using List.reverseRecOn with
  | nil => exact .inl rfl
  | append_singleton front name ih =>
    rw [List.filter_append] at h
    have hfront := h.front (List.prefix_append ..)
    have hfree := hfront.free _ List.prefix_rfl
    rw [Location.follow_filter] at hfree
    have hshort : Text.Utf8.length name ≤ mostNameBytes := by
      by_cases hhere : name = Path.here
      · rw [hhere]
        decide
      · exact h.short name (List.mem_append_right _ (by simp [hhere]))
    rw [walk_append, Location.follow_append]
    rcases ih hfront with hwalk | hwalk
    · rw [hwalk]
      rcases enter_cases hfree hshort with henter | henter
      · exact .inl (bind_eq_ok_iff.mpr ⟨_, rfl, bind_eq_ok_iff.mpr ⟨_, henter, rfl⟩⟩)
      · refine .inr ?_
        show (disk.enter _ name >>= fun next => disk.walk next []) = _
        rw [henter]
        rfl
    · rw [hwalk]
      exact .inr rfl

theorem checkPath_of_front {front : Path} (hne : front ≠ []) (hfront : front <+: path)
    (h : checkPath path = .ok ()) : checkPath front = .ok () := by
  obtain ⟨rest, rfl⟩ := hfront
  rw [checkPath_eq_ok_iff, Text.Utf8.length_append] at h
  obtain ⟨hzero, -, hshort⟩ := h
  exact checkPath_eq_ok_iff.mpr ⟨fun hz => hzero (List.mem_append_left _ hz), hne, by omega⟩

/-- A directory can be made, or it is there. -/
def IsMakeable (disk : Disk) (path : Path) : Prop :=
  (∃ disk', disk.makeDirectory path = .ok disk') ∨
    disk.makeDirectory path = .error .exists ∧ disk.isDirectory path = true

theorem Names.place_eq {α : Type} {directory : Location} {name : Name}
    (h : disk.Names path directory name) (new : Location → Except FileError α)
    (existing : Location → Entry → Except FileError α) (special : FileError) :
    disk.place path new existing special =
      match disk.entry? (directory ++ [name]) with
      | none => new (directory ++ [name])
      | some entry => existing (directory ++ [name]) entry := by
  rw [place, h.looked]
  cases hentry : disk.entry? (directory ++ [name]) <;>
    simp only [bind, Except.bind, h.last, h.notHere, h.notAbove, h.attached, or_self, if_false,
      Bool.false_eq_true, if_neg (Nat.not_lt.mpr h.short), hentry]

/-- Dots name nothing that can be made. -/
theorem place_of_unnamed {α : Type} {directory : Location} {new : Location → Except FileError α}
    {existing : Location → Entry → Except FileError α} {special : FileError}
    (looked : disk.directoryOf path = .ok directory)
    (unnamed : ∀ name, (Path.names path).getLast? = some name →
      name = Path.here ∨ name = Path.above) :
    disk.place path new existing special = .error special := by
  rw [place, looked]
  cases hlast : (Path.names path).getLast? with
  | none => simp only [bind, Except.bind]
  | some name => simp only [bind, Except.bind, if_pos (unnamed name hlast)]

theorem isDirectory_of_entered {directory location : Location} {front : List Name} {name : Name}
    (looked : disk.directoryOf path = .ok directory) (named : Path.names path = front ++ [name])
    (entered : disk.enter directory name = .ok location)
    (there : disk.entry? location = some .directory) : disk.isDirectory path = true := by
  obtain ⟨hcheck, hwalk, -⟩ := directoryOf_eq_ok_iff.mp looked
  rw [named, List.dropLast_concat] at hwalk
  refine isDirectory_iff.mpr ⟨location, locate_eq_ok_iff.mpr
    ⟨hcheck, ?_, .directory, there, .inl rfl⟩, there⟩
  rw [named, walk_append]
  exact bind_eq_ok_iff.mpr ⟨directory, hwalk, bind_eq_ok_iff.mpr ⟨location, entered, rfl⟩⟩

/-- A directory that is in another one has that around it. -/
theorem Coherent.directory_around (coherent : disk.Coherent) {location : Location} {entry : Entry}
    (there : disk.entry? location = some entry) (attached : location.isDetached = false) :
    disk.entry? location.dropLast = some .directory := by
  by_cases hroot : location = []
  · rw [hroot]
    rfl
  · rw [entry?_def, if_neg (by simp [hroot, attached])] at there
    exact (coherent.placed _ _ there).inside

section Making

variable (coherent : disk.Coherent) (absolute : Path.isAbsolute path)
  (check : checkPath path = .ok ()) (isOpen : disk.IsOpen (Path.steps path))

theorem start_of_absolute (absolute : Path.isAbsolute path) : disk.start path = [] :=
  if_pos absolute

theorem filter_dropLast_front (names : List Name) :
    names.dropLast.filter (· ≠ Path.here) <+: names.filter (· ≠ Path.here) :=
  (List.dropLast_prefix names).filter _

include absolute check isOpen

theorem directoryOf_cases :
    disk.directoryOf path = .ok (Location.follow [] (Path.names path).dropLast) ∨
      disk.directoryOf path = .error .notFound := by
  have hfront := isOpen.front (filter_dropLast_front (Path.names path))
  have hfree := hfront.free _ List.prefix_rfl
  rw [Location.follow_filter] at hfree
  rw [directoryOf, check, start_of_absolute absolute]
  show (disk.walk [] (Path.names path).dropLast >>= fun directory => _) = _ ∨
    (disk.walk [] (Path.names path).dropLast >>= fun directory => _) = _
  rcases hfront.walk_cases with hwalk | hwalk
  · rw [hwalk]
    cases hentry : disk.entry? (Location.follow [] (Path.names path).dropLast) with
    | none => exact .inr (by simp [bind, Except.bind, hentry])
    | some entry =>
      cases entry with
      | file id => exact absurd hentry (hfree id)
      | directory => exact .inl (by simp [bind, Except.bind, hentry]; rfl)
  · rw [hwalk]
    exact .inr rfl

include coherent

/-- Where the directory around it is there, a directory is made or there already. -/
theorem makeDirectory_of_looked {directory : Location}
    (looked : disk.directoryOf path = .ok directory) : disk.IsMakeable path := by
  obtain ⟨-, hwalk, hdirectory⟩ := directoryOf_eq_ok_iff.mp looked
  rcases List.eq_nil_or_concat (Path.names path) with hnil | ⟨front, name, hnames⟩
  · rw [hnil] at hwalk
    refine .inr ⟨place_of_unnamed looked (by simp [hnil]), ?_⟩
    refine isDirectory_iff.mpr ⟨directory, locate_eq_ok_iff.mpr
      ⟨check, ?_, .directory, hdirectory, .inl rfl⟩, hdirectory⟩
    rw [hnil]
    exact hwalk
  rw [List.concat_eq_append] at hnames
  rw [hnames, List.dropLast_concat, start_of_absolute absolute] at hwalk
  have hplace := walk_eq_ok hwalk
  have hattached : directory.isDetached = false := by
    rw [hplace]
    exact Location.attached_follow fun name hn => ne_nil_of_mem_names
      (hnames ▸ List.mem_append_left _ hn)
  by_cases hspecial : name = Path.here ∨ name = Path.above
  · refine .inr ⟨place_of_unnamed looked (by simpa [hnames] using hspecial), ?_⟩
    rcases hspecial with rfl | rfl
    · exact isDirectory_of_entered looked hnames
        (enter_eq_ok_iff.mpr ⟨hdirectory, Location.next_here, .inl rfl⟩) hdirectory
    · exact isDirectory_of_entered looked hnames
        (enter_eq_ok_iff.mpr ⟨hdirectory, rfl, .inr (.inl rfl)⟩)
        (coherent.directory_around hdirectory hattached)
  · obtain ⟨hhere, habove⟩ := not_or.mp hspecial
    have hshort : Text.Utf8.length name ≤ mostNameBytes := by
      refine isOpen.short name ?_
      rw [Path.steps, hnames]
      simp [hhere]
    have hnamed : disk.Names path directory name :=
      ⟨looked, by rw [hnames, List.getLast?_concat], hhere, habove, hattached, hshort⟩
    have hfree := isOpen.free _ List.prefix_rfl
    rw [Path.steps, Location.follow_filter, hnames, Location.follow_append, ← hplace] at hfree
    change disk.NoFile (directory.next name) at hfree
    rw [Location.next_of_plain hhere habove] at hfree
    rw [IsMakeable, makeDirectory, hnamed.place_eq]
    cases hentry : disk.entry? (directory ++ [name]) with
    | none => exact .inl ⟨_, rfl⟩
    | some entry =>
      cases entry with
      | file id => exact absurd hentry (hfree id)
      | directory =>
        refine .inr ⟨rfl, isDirectory_of_entered looked hnames
          (enter_eq_ok_iff.mpr ⟨hdirectory, ?_, ?_⟩) hentry⟩
        · exact Location.next_of_plain hhere habove
        · exact .inr (.inr ⟨hattached, hshort, by rw [hentry]; rfl⟩)

end Making

/-! ### Making directories -/

/-- A directory that can be made, or is there, need not have its parents made. -/
theorem makeAll_of_made {parents : List Path} (hne : path ≠ []) (h : disk.IsMakeable path) :
    ∃ disk', disk.makeAll (path :: parents) = (.ok (), disk') := by
  rw [makeAll, if_neg (by simpa using hne)]
  rcases h with ⟨made, hm⟩ | ⟨hm, hdirectory⟩
  · rw [hm]
    exact ⟨made, rfl⟩
  · rw [hm]
    simp [hdirectory]

/-- Nor does it later, when they have been made. -/
theorem makeAll_of_missing {parents : List Path} {between : Disk} (hne : path ≠ [])
    (missing : disk.makeDirectory path = .error .notFound)
    (made : disk.makeAll parents = (.ok (), between)) (h : between.IsMakeable path) :
    ∃ disk', disk.makeAll (path :: parents) = (.ok (), disk') := by
  rw [makeAll, if_neg (by simpa using hne), missing]
  simp only [made]
  rcases h with ⟨after, hm⟩ | ⟨hm, hdirectory⟩
  · rw [hm]
    exact ⟨after, rfl⟩
  · rw [hm]
    simp [hdirectory]

theorem makeDirectory_of_missing (h : disk.directoryOf path = .error .notFound) :
    disk.makeDirectory path = .error .notFound := by
  rw [makeDirectory, place, h]
  rfl

/-- The parents of a path, once they have been made. -/
structure Prepared (disk : Disk) (parent : Path) (between : Disk) : Prop
    extends AddsDirectories disk between where
  coherent : between.Coherent
  walked : between.walk [] (Path.steps parent) = .ok (Location.follow [] (Path.steps parent))
  directory : between.entry? (Location.follow [] (Path.steps parent)) = some .directory

theorem prepared_of_makeDirectories (coherent : disk.Coherent) {parent : Path} {between : Disk}
    (absolute : Path.isAbsolute parent) (made : disk.makeDirectories parent = (.ok (), between)) :
    Prepared disk parent between := by
  have hadds := makeDirectories_adds disk parent
  have hcoherent := coherent.makeDirectories parent
  rw [made] at hadds hcoherent
  have hne := Path.ne_nil_of_isAbsolute absolute
  obtain ⟨location, hlocate, hdirectory⟩ :=
    isDirectory_iff.mp (isDirectory_of_makeDirectories hne made)
  have hwalk := walk_filter (locate_eq_ok_iff.mp hlocate).2.1
  rw [start_of_absolute absolute] at hwalk
  change between.walk [] (Path.steps parent) = .ok location at hwalk
  obtain rfl := walk_eq_ok hwalk
  exact ⟨hadds, hcoherent, hwalk, hdirectory⟩

theorem directoryOf_of_walk (absolute : Path.isAbsolute path) (check : checkPath path = .ok ())
    {directory : Location}
    (walked : disk.walk [] ((Path.names path).dropLast.filter (· ≠ Path.here)) = .ok directory)
    (there : disk.entry? directory = some .directory) :
    disk.directoryOf path = .ok directory := by
  refine directoryOf_eq_ok_iff.mpr ⟨check, ?_, there⟩
  rw [start_of_absolute absolute]
  exact walk_of_filter_directory walked there

theorem filter_dropLast_of_trimmed (trimmed : (Path.names path).getLast? ≠ some Path.here)
    {front : List Name} {name : Name} (h : Path.steps path = front ++ [name]) :
    (Path.names path).dropLast.filter (· ≠ Path.here) = front := by
  rcases List.eq_nil_or_concat (Path.names path) with hnil | ⟨others, last, hnames⟩
  · rw [Path.steps, hnil] at h
    cases front <;> cases h
  · rw [List.concat_eq_append] at hnames
    rw [hnames, List.getLast?_concat] at trimmed
    have hlast : last ≠ Path.here := fun he => trimmed (by rw [he])
    have hfilter : ([last].filter (· ≠ Path.here) : List Name) = [last] := by simp [hlast]
    rw [Path.steps, hnames, List.filter_append, hfilter] at h
    rw [hnames, List.dropLast_concat]
    exact (List.append_inj' h rfl).1

/-- **On an open way a directory is made with all its parents.** -/
theorem makeDirectories_of_open (coherent : disk.Coherent) (absolute : Path.isAbsolute path)
    (check : checkPath path = .ok ()) (isOpen : disk.IsOpen (Path.steps path))
    (trimmed : (Path.names path).getLast? ≠ some Path.here) :
    ∃ disk', disk.makeDirectories path = (.ok (), disk') := by
  have hne : path ≠ [] := (checkPath_eq_ok_iff.mp check).2.1
  induction path, absolute using Path.absolute_induction with
  | top path absolute hsteps htop =>
    have hfront : (Path.names path).dropLast.filter (· ≠ Path.here) = [] :=
      List.prefix_nil.mp (hsteps ▸ filter_dropLast_front (Path.names path))
    have hlooked : disk.directoryOf path = .ok [] :=
      directoryOf_of_walk absolute check (by rw [hfront]; rfl) rfl
    rw [makeDirectories, htop]
    exact makeAll_of_made hne (makeDirectory_of_looked coherent absolute check isOpen hlooked)
  | below path absolute parent name hp hbelow ih =>
    rw [makeDirectories, hbelow]
    rcases directoryOf_cases absolute check isOpen with hlooked | hmissing
    · exact makeAll_of_made hne (makeDirectory_of_looked coherent absolute check isOpen hlooked)
    have hparent := Path.ne_nil_of_isAbsolute hp.absolute
    have hsteps := hp.steps
    obtain ⟨between, hmade⟩ := ih (checkPath_of_front hparent hp.front check)
      (isOpen.front (hsteps ▸ List.prefix_append ..)) hp.trimmed hparent
    have hprepared := prepared_of_makeDirectories coherent hp.absolute hmade
    refine makeAll_of_missing hne (makeDirectory_of_missing hmissing) hmade ?_
    have hlooked : between.directoryOf path = .ok (Location.follow [] (Path.steps parent)) :=
      directoryOf_of_walk absolute check
        (by rw [filter_dropLast_of_trimmed trimmed hsteps]; exact hprepared.walked)
        hprepared.directory
    exact makeDirectory_of_looked hprepared.coherent absolute check
      (isOpen.adds hprepared.toAddsDirectories) hlooked

theorem eq_follow_of_locate (absolute : Path.isAbsolute path) {location : Location}
    (h : disk.locate path = .ok location) :
    location = Location.follow [] (Path.steps path) := by
  have hstart : disk.start path = [] := start_of_absolute absolute
  rw [Path.steps, Location.follow_filter, ← hstart]
  exact walk_eq_ok (locate_eq_ok_iff.mp h).2.1

/-- What is new is a directory to which a parent of the path leads, or the path itself, and that
does not end in a dot. -/
theorem named_of_new (absolute : Path.isAbsolute path) {target : Location}
    (absent : disk.entry? target = none)
    (new : Disk.entry? (disk.makeDirectories path).2 target ≠ none) :
    ∃ parent ∈ Path.ancestors path, (Path.names parent).getLast? ≠ some Path.here ∧
      Location.follow [] (Path.steps parent) = target := by
  by_contra hnamed
  refine new ?_
  rw [← makeDirectoriesStages_last]
  refine (makeAllStages_makesOneOf disk (Path.ancestors path)).invariant
    (P := fun stage => stage.entry? target = none) absent ?_ _ (last_mem disk _)
  rintro before after habsent ⟨parent, hmem, hmake⟩
  obtain ⟨directory, name, hnames, -⟩ := place_eq_ok hmake
  obtain ⟨location, hlocate, -, hothers⟩ := makeDirectory_ok hmake
  rw [hothers target ?_]
  · exact habsent
  rintro rfl
  refine hnamed ⟨parent, hmem, ?_, ?_⟩
  · rw [hnames.last]
    exact fun he => hnames.notHere (Option.some.inj he)
  · exact (eq_follow_of_locate (Path.steps_of_mem_ancestors absolute parent hmem).1 hlocate).symm

end Disk

/-! ### Paths that end in a dot -/

/-- The path ends in a dot, and the names before the last one that leads on do not come by the
directory to which this one leads down. -/
structure Path.Dangles (path : Path) : Prop where
  dot : (names path).getLast? = some here
  apart : ∃ front name, steps path = front ++ [name] ∧ name ≠ above ∧
    ∀ before, before <+: front → Location.follow [] before ≠ Location.follow [] (steps path)

namespace Disk

variable {disk : Disk} {path : Path}

theorem filter_dropLast_of_dot (dot : (Path.names path).getLast? = some Path.here) :
    (Path.names path).dropLast.filter (· ≠ Path.here) = Path.steps path := by
  obtain ⟨front, hfront⟩ := List.getLast?_eq_some_iff.mp dot
  rw [Path.steps, hfront, List.dropLast_concat, List.filter_append]
  simp

/-- If the names before the last one come by the directory that it leads to, the directory is there
when they have been followed. -/
theorem walk_of_not_dangles {between : Disk} {parent : Path} {name : Name}
    (hp : path.IsParent parent name) (prepared : Prepared disk parent between)
    (isOpen : disk.IsOpen (Path.steps path)) (dot : (Path.names path).getLast? = some Path.here)
    (h : ¬ path.Dangles) :
    between.walk [] (Path.steps path) = .ok (Location.follow [] (Path.steps path)) ∧
      between.entry? (Location.follow [] (Path.steps path)) = some .directory := by
  have hname : name ∈ Path.steps path := by
    rw [hp.steps]
    exact List.mem_append_right _ (List.mem_singleton_self name)
  have hhere : name ≠ Path.here := (Path.mem_steps hname).2
  have hattached : Location.isDetached (Location.follow [] (Path.steps parent)) = false :=
    Location.attached_follow fun name hn => ne_nil_of_mem_names (Path.mem_steps hn).1
  have hplace : Location.follow [] (Path.steps path) =
      (Location.follow [] (Path.steps parent)).next name := by
    rw [hp.steps, Location.follow_append]
    rfl
  rw [hplace, hp.steps, walk_append, prepared.walked]
  by_cases habove : name = Path.above
  · subst habove
    have henter : between.enter (Location.follow [] (Path.steps parent)) Path.above =
        .ok ((Location.follow [] (Path.steps parent)).next Path.above) :=
      enter_eq_ok_iff.mpr ⟨prepared.directory, rfl, .inr (.inl rfl)⟩
    exact ⟨bind_eq_ok_iff.mpr ⟨_, rfl, bind_eq_ok_iff.mpr ⟨_, henter, rfl⟩⟩,
      prepared.coherent.directory_around prepared.directory hattached⟩
  · obtain ⟨before, ⟨rest, hrest⟩, hbefore⟩ : ∃ before, before <+: Path.steps parent ∧
        Location.follow [] before = Location.follow [] (Path.steps path) := by
      by_contra hnone
      exact h ⟨dot, _, name, hp.steps, habove, fun before hb he => hnone ⟨before, hb, he⟩⟩
    have hwalked := prepared.walked
    have hthere := prepared.directory
    rw [← hrest] at hwalked hthere
    have hdirectory := directory_on_walk hwalked hthere
    rw [hbefore, hplace] at hdirectory
    have hnext : (Location.follow [] (Path.steps parent)).next name =
        Location.follow [] (Path.steps parent) ++ [name] := Location.next_of_plain hhere habove
    have henter : between.enter (Location.follow [] (Path.steps parent)) name =
        .ok ((Location.follow [] (Path.steps parent)).next name) := by
      refine enter_eq_ok_iff.mpr ⟨prepared.directory, rfl, .inr (.inr ⟨hattached, ?_, ?_⟩)⟩
      · exact isOpen.short name hname
      · rw [← hnext, hdirectory]
        rfl
    exact ⟨bind_eq_ok_iff.mpr ⟨_, rfl, bind_eq_ok_iff.mpr ⟨_, henter, rfl⟩⟩, hdirectory⟩

section Making

variable (absolute : Path.isAbsolute path)

include absolute

/-- **On an open way every directory is made whose path does not dangle.** -/
theorem makeDirectories_of_not_dangles (coherent : disk.Coherent)
    (check : checkPath path = .ok ()) (isOpen : disk.IsOpen (Path.steps path))
    (h : ¬ path.Dangles) : ∃ disk', disk.makeDirectories path = (.ok (), disk') := by
  by_cases hdot : (Path.names path).getLast? = some Path.here
  case neg => exact makeDirectories_of_open coherent absolute check isOpen hdot
  have hne : path ≠ [] := (checkPath_eq_ok_iff.mp check).2.1
  rw [makeDirectories]
  rcases directoryOf_cases absolute check isOpen with hlooked | hmissing
  · exact makeAll_of_made hne (makeDirectory_of_looked coherent absolute check isOpen hlooked)
  rcases Path.parent?_cases absolute with ⟨-, hnil⟩ | ⟨parent, name, hparent, hp⟩
  · have hlooked : disk.directoryOf path = .ok [] :=
      directoryOf_of_walk absolute check
        (by rw [filter_dropLast_of_dot hdot, hnil]; rfl) rfl
    rw [hlooked] at hmissing
    cases hmissing
  · have hnonempty := Path.ne_nil_of_isAbsolute hp.absolute
    obtain ⟨between, hmade⟩ := makeDirectories_of_open coherent hp.absolute
      (checkPath_of_front hnonempty hp.front check)
      (isOpen.front (hp.steps ▸ List.prefix_append ..)) hp.trimmed
    have hprepared := prepared_of_makeDirectories coherent hp.absolute hmade
    obtain ⟨hwalked, hthere⟩ := walk_of_not_dangles hp hprepared isOpen hdot h
    have hlooked := directoryOf_of_walk absolute check
      (by rw [filter_dropLast_of_dot hdot]; exact hwalked) hthere
    rw [Path.ancestors_of_parent hparent hp]
    exact makeAll_of_missing hne (makeDirectory_of_missing hmissing) hmade
      (makeDirectory_of_looked hprepared.coherent absolute check
        (isOpen.adds hprepared.toAddsDirectories) hlooked)

/-- A path that dangles is not made. -/
theorem not_makeDirectories_of_dangles (dangles : path.Dangles)
    (absent : disk.entry? (Location.follow [] (Path.steps path)) = none) (disk' : Disk) :
    disk.makeDirectories path ≠ (.ok (), disk') := by
  intro hmade
  obtain ⟨hdot, front, name, hsteps, -, hapart⟩ := dangles
  have hne := Path.ne_nil_of_isAbsolute absolute
  obtain ⟨location, hlocate, hdirectory⟩ :=
    isDirectory_iff.mp (isDirectory_of_makeDirectories hne hmade)
  rw [eq_follow_of_locate absolute hlocate] at hdirectory
  obtain ⟨parent, hmem, htrimmed, hplace⟩ := named_of_new absolute absent (by
    rw [hmade, hdirectory]
    exact Option.some_ne_none _)
  rcases Path.parent?_cases absolute with ⟨-, hnil⟩ | ⟨first, last, hfirst, hp⟩
  · rw [hnil] at hsteps
    cases front <;> cases hsteps
  rw [Path.ancestors_of_parent hfirst hp] at hmem
  rcases List.mem_cons.mp hmem with rfl | hmem
  · exact htrimmed hdot
  · have hbefore := (Path.steps_of_mem_ancestors hp.absolute parent hmem).2
    rw [(List.append_inj' (hp.steps.symm.trans hsteps) rfl).1] at hbefore
    exact hapart _ hbefore hplace

end Making

end Disk
end Provision

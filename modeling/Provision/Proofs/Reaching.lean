import Provision.Proofs.Provisioning
import Provision.Proofs.Spellings

/-! Where the directory of an instance is when it is looked for.

Before anything is written the data directory is made, and from then on its names can be followed
from the root directory, `resolveDirectory_ok`. The names of the instance lead on from there. If
they go up nowhere and there is something in the directory that they mean, they lead to it,
`walk_of_hasEntries`: a directory of this kind that counts as vacant has no entries. -/
namespace Provision

namespace Dictionary

variable {κ υ : Type} [DecidableEq κ]

theorem exists_find?_of_mem {key : κ} {value : υ} {map : Dictionary κ υ}
    (h : (key, value) ∈ map) : ∃ found, find? key map = some found := by
  induction map with
  | nil => cases h
  | cons entry rest ih =>
    obtain ⟨k, v⟩ := entry
    rw [find?_cons]
    split
    · exact ⟨v, rfl⟩
    · next hk =>
      rcases List.mem_cons.mp h with he | h
      · cases he
        exact absurd rfl hk
      · exact ih h

end Dictionary

namespace Disk

variable {disk disk' : Disk}

/-! ### Entries of a directory -/

theorem hasEntries_iff {location : Location} : disk.hasEntries location = true ↔
    ∃ name entry, disk.tree.find? (location ++ [name]) = some entry := by
  constructor
  · intro h
    obtain ⟨⟨place, entry⟩, hmem, hplace⟩ := List.any_eq_true.mp h
    obtain ⟨hlength, hfront⟩ := Bool.and_eq_true_iff.mp hplace
    obtain ⟨back, rfl⟩ := List.isPrefixOf_iff_prefix.mp hfront
    have hback : back.length = 1 := by simpa using hlength
    obtain ⟨name, rfl⟩ := List.length_eq_one_iff.mp hback
    exact ⟨name, Dictionary.exists_find?_of_mem hmem⟩
  · rintro ⟨name, entry, hfind⟩
    refine List.any_eq_true.mpr ⟨_, Dictionary.mem_of_find? hfind, ?_⟩
    simp

/-- What has entries is a directory that is in another one. -/
theorem Coherent.directory_of_hasEntries (h : disk.Coherent) {location : Location}
    (full : disk.hasEntries location) :
    disk.entry? location = some .directory ∧ location.isDetached = false := by
  obtain ⟨name, entry, hfind⟩ := hasEntries_iff.mp full
  have hplace := h.placed _ _ hfind
  have hinside := hplace.inside
  have hattached := hplace.attached
  rw [List.dropLast_concat] at hinside hattached
  exact ⟨hinside, hattached⟩

/-- A directory keeps its entries while the disk grows. -/
theorem Extends.hasEntries (h : Extends disk disk') (coherent : disk.Coherent)
    {location : Location} (full : disk.hasEntries location) : disk'.hasEntries location := by
  obtain ⟨name, entry, hfind⟩ := hasEntries_iff.mp full
  obtain ⟨last, hlast, hplain, -⟩ := (coherent.placed _ _ hfind).named
  rw [List.getLast?_concat, Option.some.injEq] at hlast
  subst hlast
  rw [← entry?_append location hplain.nonempty] at hfind
  have hkept := h.kept _ _ hfind
  rw [entry?_append location hplain.nonempty] at hkept
  exact hasEntries_iff.mpr ⟨_, entry, hkept⟩

/-! ### A directory that has been made -/

theorem isDirectory_iff {path : Path} : disk.isDirectory path = true ↔
    ∃ location, disk.locate path = .ok location ∧ disk.entry? location = some .directory := by
  rw [isDirectory]
  cases disk.locate path with
  | error e => simp
  | ok location => simp [isDirectoryAt]

/-- A directory that is made stands where nothing was, and its path leads to it. -/
theorem makeDirectory_ok {path : Path} (h : disk.makeDirectory path = .ok disk') :
    ∃ location, disk'.locate path = .ok location ∧ disk'.entry? location = some .directory ∧
      ∀ other ≠ location, disk'.entry? other = disk.entry? other := by
  obtain ⟨directory, name, hnames, ⟨habsent, hnew⟩ | ⟨entry, -, hexisting⟩⟩ := place_eq_ok h
  · cases hnew
    have hput := fun other => @entry?_put disk directory other name hnames.ne_nil .directory
    have hentry := hput (directory ++ [name])
    rw [if_pos rfl] at hentry
    have hgrows := Extends.put hnames.ne_nil habsent .directory
    refine ⟨directory ++ [name], hnames.locate_entry hgrows hentry (.inl rfl), hentry, ?_⟩
    intro other hother
    rw [hput, if_neg (Ne.symm hother)]
  · cases hexisting

theorem isDirectory_of_makeDirectory {path : Path} (h : disk.makeDirectory path = .ok disk') :
    disk'.isDirectory path := by
  obtain ⟨location, hlocate, hentry, -⟩ := makeDirectory_ok h
  exact isDirectory_iff.mpr ⟨location, hlocate, hentry⟩

/-- A path that has been made leads to a directory. -/
theorem isDirectory_of_makeDirectories {path : Path} (hne : path ≠ [])
    (h : disk.makeDirectories path = (.ok (), disk')) : disk'.isDirectory path := by
  obtain ⟨parents, hparents⟩ : ∃ parents, Path.ancestors path = path :: parents := ⟨_, rfl⟩
  rw [makeDirectories, hparents, makeAll, if_neg (by simpa using hne)] at h
  have hthere : ∀ between : Disk, ∀ e : FileError,
      (if between.isDirectory path then (Except.ok (), between) else (.error e, between)) =
        ((.ok (), disk') : Except FileError Unit × Disk) → disk'.isDirectory path := by
    intro between e hif
    split at hif
    · next hd =>
      cases hif
      exact hd
    · cases hif
  split at h
  · next made hm =>
    cases h
    exact isDirectory_of_makeDirectory hm
  · rcases hparent : disk.makeAll parents with ⟨_ | _, between⟩
    · rw [hparent] at h
      cases h
    · rw [hparent] at h
      cases hm : between.makeDirectory path with
      | ok made =>
        simp only [hm] at h
        cases h
        exact isDirectory_of_makeDirectory hm
      | error e =>
        simp only [hm] at h
        exact hthere between e h
  · exact hthere disk _ h

/-! ### Dots on the way -/

/-- Without its dots a path leads to the same place. -/
theorem walk_filter {location target : Location} {names : List Name}
    (h : disk.walk location names = .ok target) :
    disk.walk location (names.filter (· ≠ Path.here)) = .ok target := by
  induction names generalizing location with
  | nil => exact h
  | cons name rest ih =>
    obtain ⟨next, hnext, hrest⟩ := bind_eq_ok_iff.mp h
    by_cases hname : name = Path.here
    · subst hname
      have hstays := (enter_eq_ok_iff.mp hnext).2.1
      rw [Location.next_here] at hstays
      subst hstays
      simpa using ih hrest
    · rw [List.filter_cons_of_pos (by simpa using hname)]
      exact bind_eq_ok_iff.mpr ⟨next, hnext, ih hrest⟩

/-- With dots on it a path to a directory leads to the same place. -/
theorem walk_of_filter_directory {location target : Location} {names : List Name}
    (h : disk.walk location (names.filter (· ≠ Path.here)) = .ok target)
    (hdirectory : disk.entry? target = some .directory) :
    disk.walk location names = .ok target := by
  induction names generalizing location with
  | nil => exact h
  | cons name rest ih =>
    by_cases hname : name = Path.here
    · subst hname
      have hrest : disk.walk location (rest.filter (· ≠ Path.here)) = .ok target := by
        simpa using h
      have hhere : disk.entry? location = some .directory := by
        cases hr : rest.filter (· ≠ Path.here) with
        | nil =>
          rw [hr] at hrest
          cases hrest
          exact hdirectory
        | cons other more =>
          rw [hr] at hrest
          exact directory_of_walk (List.cons_ne_nil _ _) hrest
      refine bind_eq_ok_iff.mpr ⟨location, ?_, ih hrest⟩
      exact enter_eq_ok_iff.mpr ⟨hhere, Location.next_here, .inl rfl⟩
    · rw [List.filter_cons_of_pos (by simpa using hname)] at h
      obtain ⟨next, hnext, hrest⟩ := bind_eq_ok_iff.mp h
      exact bind_eq_ok_iff.mpr ⟨next, hnext, ih hrest⟩

end Disk

/-- Names that never go up are put behind where they start. -/
theorem Location.follow_of_noAbove {location : Location} {names : List Name}
    (h : Path.above ∉ names) :
    location.follow names = location ++ names.filter (· ≠ Path.here) := by
  induction names generalizing location with
  | nil => exact (List.append_nil _).symm
  | cons name rest ih =>
    obtain ⟨habove, hrest⟩ := not_or.mp (mt List.mem_cons.mpr h)
    show (location.next name).follow rest = _
    rw [ih hrest]
    by_cases hname : name = Path.here
    · subst hname
      rw [Location.next_here]
      simp
    · rw [Location.next_of_plain hname (Ne.symm habove),
        List.filter_cons_of_pos (by simpa using hname), List.append_assoc]
      rfl

namespace Disk

variable {disk disk' : Disk}

/-- **Names that never go up lead to the directory that they mean, if there is something in
it.** -/
theorem Coherent.walk_of_hasEntries (h : disk.Coherent) {base : Location} {front back : List Name}
    (hfront : disk.walk [] front = .ok base) (hback : Path.above ∉ back)
    (full : disk.hasEntries (Location.follow [] (front ++ back))) :
    disk.walk [] (front ++ back) = .ok (Location.follow [] (front ++ back)) := by
  obtain ⟨hdirectory, hattached⟩ := h.directory_of_hasEntries full
  rw [Location.follow_append, ← walk_eq_ok hfront, Location.follow_of_noAbove hback] at *
  rw [walk_append]
  refine bind_eq_ok_iff.mpr ⟨base, hfront, walk_of_filter_directory ?_ hdirectory⟩
  -- The way from the root directory to it passes the base.
  obtain ⟨hwhole, hplain⟩ := h.walk_root _ hdirectory hattached
  have hbase : Location.follow [] base = base := by
    have hnames : ∀ name ∈ base, name.IsPlain := fun name hn =>
      hplain name (List.mem_append_left _ hn)
    rw [Location.follow_of_noAbove fun ha => (hnames _ ha).notAbove rfl, List.nil_append,
      List.filter_eq_self]
    exact fun name hn => by simpa using (hnames name hn).notHere
  rw [walk_append] at hwhole
  obtain ⟨middle, hmiddle, hrest⟩ := bind_eq_ok_iff.mp hwhole
  rw [walk_eq_ok hmiddle, hbase] at hrest
  exact hrest

end Disk

namespace Instance

variable {disk made : Disk} {path whole directory : Path} {name : Name}

/-! ### The data directory -/

/-- A data directory that is there, by its absolute path. Nothing but directories is new, and the
names of the path can be followed from the root directory. -/
structure Resolved (disk made : Disk) (whole : Path) : Prop where
  adds : Disk.AddsDirectories disk made
  coherent : made.Coherent
  absolute : Path.isAbsolute whole
  walked : made.walk [] (Path.names whole) = .ok (directoryPlace whole)

theorem resolveDirectory_ok (coherent : disk.Coherent)
    (h : resolveDirectory disk path = (.ok whole, made)) : Resolved disk made whole := by
  obtain ⟨named, hnamed, hr⟩ : ∃ named, Path.absolute disk.workingDirectory path = .ok named ∧
      resolveDirectory disk path = (.ok named, (disk.makeDirectories path).2) := by
    rcases resolveDirectory_cases disk path with ⟨e, hr⟩ | hr
    · rw [h] at hr
      cases hr
    · exact hr
  have hm : disk.makeDirectories path = (.ok (), made) := by
    rw [h] at hr
    cases hr
    rcases hm : disk.makeDirectories path with ⟨_ | _, between⟩
    · rw [resolveDirectory, hm] at h
      cases h
    · rfl
  rw [h, hm] at hr
  cases hr
  have hadds := Disk.makeDirectories_adds disk path
  have hcoherent := coherent.makeDirectories path
  rw [hm] at hadds hcoherent
  change Disk.AddsDirectories disk made at hadds
  change made.Coherent at hcoherent
  have hne := Path.ne_nil_of_absolute hnamed
  obtain ⟨location, hlocate, -⟩ :=
    Disk.isDirectory_iff.mp (Disk.isDirectory_of_makeDirectories hne hm)
  have hwalk := Disk.walk_filter (Disk.locate_eq_ok_iff.mp hlocate).2.1
  rw [hadds.toExtends.start, Disk.start] at hwalk
  have hroot := fun hrelative => hcoherent.walk_root _ hcoherent.workingDirectory
    (hadds.toExtends.workingDirectory ▸ Path.attached_of_absolute hnamed hrelative)
  rw [hadds.toExtends.workingDirectory] at hroot
  have hnames := Path.names_absolute (fun hrelative => (hroot hrelative).2) hnamed
  have hwhole : made.walk [] (Path.names whole) = .ok location := by
    rw [hnames]
    cases hrelative : Path.isAbsolute path with
    | true =>
      rw [hrelative] at hwalk
      exact hwalk
    | false =>
      rw [hrelative] at hwalk
      rw [if_neg Bool.false_ne_true, Disk.walk_append]
      exact bind_eq_ok_iff.mpr ⟨_, (hroot hrelative).1, hwalk⟩
  refine ⟨hadds, hcoherent, Path.isAbsolute_absolute hnamed, ?_⟩
  rw [hwhole, Disk.walk_eq_ok hwhole]
  rfl

/-! ### The directory of an instance -/

theorem location_eq_directoryPlace {location : Location} (absolute : Path.isAbsolute directory)
    (h : disk.locate directory = .ok location) : location = directoryPlace directory := by
  have hlocation := Disk.walk_eq_ok (Disk.locate_eq_ok_iff.mp h).2.1
  rw [Disk.start, if_pos absolute] at hlocation
  exact hlocation

/-- A directory counts as vacant if it is not found, or if there is nothing in it. -/
theorem isVacant_eq_ok_iff (absolute : Path.isAbsolute directory) {vacant : Bool} :
    isVacant disk directory = .ok vacant ↔
      disk.locate directory = .error .notFound ∧ vacant = true ∨
        disk.locate directory = .ok (directoryPlace directory) ∧
          disk.entry? (directoryPlace directory) = some .directory ∧
            vacant = !disk.hasEntries (directoryPlace directory) := by
  rw [isVacant, Disk.isEmptyOrMissing]
  cases hl : disk.locate directory with
  | error e => cases e <;> simp [Except.mapError, eq_comm]
  | ok location =>
    obtain rfl := location_eq_directoryPlace absolute hl
    by_cases hd : disk.entry? (directoryPlace directory) = some .directory
    · simp [Disk.isDirectoryAt, hd, Except.mapError, eq_comm]
    · simp [Disk.isDirectoryAt, hd, Except.mapError]

namespace Resolved

/-- If the name of an instance goes up nowhere and there is something in the directory that it
means, the names of that directory can be followed. -/
theorem walk_of_hasEntries (h : Resolved disk made whole) (level : Path.above ∉ Path.names name)
    (full : made.hasEntries (directoryPlace (Path.join whole name))) :
    made.walk [] (Path.names (Path.join whole name)) =
      .ok (directoryPlace (Path.join whole name)) := by
  rw [directoryPlace] at full ⊢
  cases hname : Path.isAbsolute name with
  | true =>
    rw [Path.join_of_absolute whole hname] at full ⊢
    have hroot : made.walk [] [] = .ok [] := rfl
    exact h.coherent.walk_of_hasEntries hroot level full
  | false =>
    rw [Path.names_join whole hname] at full ⊢
    exact h.coherent.walk_of_hasEntries h.walked level full

/-- Then the directory does not count as vacant, unless its path can be no path at all. -/
theorem isVacant_of_hasEntries (h : Resolved disk made whole)
    (level : Path.above ∉ Path.names name)
    (full : made.hasEntries (directoryPlace (Path.join whole name))) :
    isVacant made (Path.join whole name) =
      ((Disk.checkPath (Path.join whole name)).mapError
        (.directory (Path.join whole name))).map fun _ => false := by
  have hwalk := h.walk_of_hasEntries level full
  have hdirectory := (h.coherent.directory_of_hasEntries full).1
  have habsolute := Path.isAbsolute_join h.absolute name
  cases hcheck : Disk.checkPath (Path.join whole name) with
  | ok _ =>
    refine (isVacant_eq_ok_iff habsolute).mpr (.inr ⟨?_, hdirectory, by rw [full]; rfl⟩)
    refine Disk.locate_eq_ok_iff.mpr ⟨hcheck, ?_, .directory, hdirectory, .inl rfl⟩
    rw [Disk.start, if_pos habsolute]
    exact hwalk
  | error e =>
    have hne := Path.ne_nil_of_isAbsolute habsolute
    have hlocate : made.locate (Path.join whole name) = .error e := by
      rw [Disk.locate, hcheck]
      rfl
    rw [isVacant, Disk.isEmptyOrMissing, hlocate]
    cases e with
    | notFound => exact absurd hcheck (Disk.checkPath_ne_notFound hne)
    | _ => rfl

/-- **A directory that counts as vacant has no entries, if the name of the instance goes up
nowhere.** -/
theorem noEntries_of_isVacant (h : Resolved disk made whole)
    (level : Path.above ∉ Path.names name)
    (vacant : isVacant made (Path.join whole name) = .ok true) :
    made.hasEntries (directoryPlace (Path.join whole name)) = false := by
  rw [Bool.eq_false_iff]
  intro full
  rw [h.isVacant_of_hasEntries level full] at vacant
  cases hcheck : Disk.checkPath (Path.join whole name) with
  | ok _ => rw [hcheck] at vacant; cases vacant
  | error e => rw [hcheck] at vacant; cases vacant

end Resolved

theorem above_notMem_of_isPlain (h : name.IsPlain) : Path.above ∉ Path.names name := by
  rw [Path.names_of_name h.nonempty h.noSlash, List.mem_singleton]
  exact Ne.symm h.notAbove

end Instance
end Provision

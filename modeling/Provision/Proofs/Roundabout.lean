import Provision.Proofs.Occupying
import Provision.Proofs.Refusals

/-! Long paths to one place.

Two dots lead nowhere from the root directory, so a path may have any number of them in front. They
stay in the absolute path. So the directory of an instance has paths that the operating system
refuses, although it takes the one to the data directory: `occupiedError_roundabout`. -/
namespace Provision

/-- A path to a directory in the root directory, which goes up from there so and so many times
first. -/
def roundabout : (count : Nat) → Path
  | 0 => ['/', 'd']
  | count + 1 => '/' :: (Path.above ++ roundabout count)

variable {disk : Disk} (count : Nat)

theorem roundabout_eq_cons : ∃ rest, roundabout count = '/' :: rest := by
  cases count <;> exact ⟨_, rfl⟩

theorem length_roundabout : Text.Utf8.length (roundabout count) = 3 * count + 2 := by
  induction count with
  | zero => rfl
  | succ count ih =>
    show 1 + (1 + (1 + Text.Utf8.length (roundabout count))) = _
    rw [ih]
    omega

theorem mem_roundabout {c : Char} (h : c ∈ roundabout count) : c ∈ ['/', '.', 'd'] := by
  induction count with
  | zero =>
    rcases List.mem_cons.mp h with rfl | h
    · decide
    · rw [List.mem_singleton.mp h]
      decide
  | succ count ih =>
    rcases List.mem_cons.mp h with rfl | h
    · decide
    rcases List.mem_append.mp h with h | h
    · rw [List.eq_of_mem_replicate (show c ∈ List.replicate 2 '.' from h)]
      decide
    · exact ih h

theorem endsInSlash_roundabout : Path.endsInSlash (roundabout count) = false := by
  induction count with
  | zero => rfl
  | succ count ih =>
    obtain ⟨rest, hrest⟩ := roundabout_eq_cons count
    rw [roundabout, hrest]
    rw [hrest] at ih
    exact ih

theorem names_roundabout :
    Path.names (roundabout count) = List.replicate count Path.above ++ [['d']] := by
  induction count with
  | zero => rfl
  | succ count ih =>
    rw [roundabout, Path.names_cons_slash, Path.names_name_append (by decide) (by decide)
      (.inr (roundabout_eq_cons count)), ih, List.replicate_succ, List.cons_append]

/-! ### Where it leads -/

/-- From the root directory there is no way up. -/
theorem Disk.walk_above : disk.walk [] (List.replicate count Path.above) = .ok [] := by
  induction count with
  | zero => rfl
  | succ count ih =>
    have hroot : disk.entry? [] = some .directory := by simp [Disk.entry?_def]
    rw [List.replicate_succ]
    exact bind_eq_ok_iff.mpr ⟨[], enter_eq_ok_iff.mpr ⟨hroot, rfl, .inr (.inl rfl)⟩, ih⟩

section Leading

variable (short : 3 * count + 2 < Disk.pathBound)

include short

theorem checkPath_roundabout_ok : Disk.checkPath (roundabout count) = .ok () := by
  refine Disk.checkPath_eq_ok_iff.mpr ⟨fun h => ?_, ?_, ?_⟩
  · exact absurd (mem_roundabout count h) (by decide)
  · obtain ⟨rest, hrest⟩ := roundabout_eq_cons count
    rw [hrest]
    exact List.cons_ne_nil '/' rest
  · rw [length_roundabout]
    exact short

theorem namesOf_roundabout : disk.Names (roundabout count) [] ['d'] where
  looked := by
    refine Disk.directoryOf_eq_ok_iff.mpr ⟨checkPath_roundabout_ok count short, ?_, ?_⟩
    · obtain ⟨rest, hrest⟩ := roundabout_eq_cons count
      rw [Disk.start, if_pos (by rw [hrest]; rfl), names_roundabout, List.dropLast_concat]
      exact Disk.walk_above count
    · simp [Disk.entry?]
  last := by rw [names_roundabout, List.getLast?_concat]
  notHere := by decide
  notAbove := by decide
  attached := rfl
  short := by decide

end Leading

/-- Where a directory is, none has to be made. -/
theorem Disk.Names.makeDirectories {path : Path} {directory : Location} {name : Name}
    (h : disk.Names path directory name)
    (there : disk.entry? (directory ++ [name]) = some .directory) :
    disk.makeDirectories path = (.ok (), disk) := by
  have hne : path ≠ [] := by
    rintro rfl
    cases h.last
  have hexists : disk.makeDirectory path = .error .exists := by
    rw [makeDirectory, place, h.looked]
    simp [bind, Except.bind, h.last, h.notHere, h.notAbove, h.attached, Nat.not_lt.mpr h.short,
      there]
  have hlocate := h.locate_entry (.refl disk) there (.inl rfl)
  have hdirectory : disk.isDirectory path := isDirectory_iff.mpr ⟨_, hlocate, there⟩
  obtain ⟨parents, hparents⟩ : ∃ parents, Path.ancestors path = path :: parents := ⟨_, rfl⟩
  rw [Disk.makeDirectories, hparents, makeAll, if_neg (by simpa using hne), hexists]
  simp only [hdirectory, if_true]

/-! ### Its absolute path -/

theorem Path.join_name {base : Path} {name : Name} (hne : base ≠ [])
    (hslash : endsInSlash base = false) (hname : '/' ∉ name) :
    join base name = base ++ '/' :: name := by
  rw [join, isAbsolute_of_noSlash hname, hslash, if_neg Bool.false_ne_true, if_neg]
  simpa using hne

theorem joinAll_roundabout {base : Path} (hne : base ≠ [])
    (hslash : Path.endsInSlash base = false) :
    Path.joinAll base (Path.names (roundabout count)) = base ++ roundabout count := by
  induction count generalizing base with
  | zero => exact @Path.join_name base ['d'] hne hslash (by decide)
  | succ count ih =>
    have hjoin : Path.join base Path.above = base ++ '/' :: Path.above :=
      Path.join_name hne hslash (by decide)
    have hends : Path.endsInSlash (base ++ '/' :: Path.above) = false := by
      rw [Path.endsInSlash, List.getLast?_append]
      rfl
    have hnames : Path.names (roundabout (count + 1)) =
        Path.above :: Path.names (roundabout count) := by
      rw [names_roundabout, names_roundabout, List.replicate_succ, List.cons_append]
    rw [hnames]
    show Path.joinAll (Path.join base Path.above) _ = _
    rw [hjoin, ih (by simp) hends, List.append_assoc]
    rfl

/-- The path is absolute as it is. -/
theorem absolute_roundabout (directory : Location) :
    Path.absolute directory (roundabout count) = .ok (roundabout count) := by
  have hwhole : Path.joinAll ['/'] (Path.names (roundabout count)) = roundabout count := by
    cases count with
    | zero => rfl
    | succ count =>
      rw [names_roundabout, List.replicate_succ, List.cons_append, ← names_roundabout]
      exact joinAll_roundabout count (by decide) (by decide)
  have hdots : (Path.names (roundabout count)).filter (· ≠ Path.here) =
      Path.names (roundabout count) := by
    rw [List.filter_eq_self, names_roundabout]
    intro name hn
    rcases List.mem_append.mp hn with hn | hn
    · rw [List.eq_of_mem_replicate hn]
      decide
    · rw [List.mem_singleton.mp hn]
      decide
  obtain ⟨rest, hrest⟩ := roundabout_eq_cons count
  have habsolute : Path.isAbsolute (roundabout count) = true := by rw [hrest]; rfl
  have hdouble : Path.hasDoubleSlash (roundabout count) = false := by cases count <;> rfl
  have hempty : (roundabout count).isEmpty = false := by rw [hrest]; rfl
  simp only [Path.absolute, hempty, habsolute, hdouble, endsInSlash_roundabout, hdots, hwhole,
    Bool.not_true, Bool.false_and, Bool.false_eq_true, if_false, if_true]

namespace Instance

/-! ### The instance there -/

/-- The least request by way of a longer path. -/
def roundaboutRequest : Request := { leastRequest with dataDirectory := roundabout count }

theorem directory?_roundabout (short : 3 * count + 2 < Disk.pathBound)
    (there : disk.entry? [['d']] = some .directory) :
    directory? disk (roundaboutRequest count) = some (roundabout count ++ '/' :: defaultName) := by
  have hmake := (@namesOf_roundabout disk count short).makeDirectories there
  have hjoin : Path.join (roundabout count) defaultName =
      roundabout count ++ '/' :: defaultName := by
    obtain ⟨rest, hrest⟩ := roundabout_eq_cons count
    refine Path.join_name ?_ (endsInSlash_roundabout count) (by decide)
    rw [hrest]
    exact List.cons_ne_nil '/' rest
  have hbased : Based disk (roundaboutRequest count) disk (roundabout count) :=
    ⟨hmake, absolute_roundabout count _⟩
  exact directory?_eq_some_iff.mpr ⟨roundabout count, disk, based_iff.mp hbased, hjoin⟩

theorem directoryPlace_roundabout :
    directoryPlace (roundabout count ++ '/' :: defaultName) = [['d'], defaultName] := by
  have habove : Location.follow [] (List.replicate count Path.above) = [] :=
    (Disk.walk_eq_ok (@Disk.walk_above {} count)).symm
  rw [directoryPlace, Path.names_append_slash, names_roundabout, Location.follow_append,
    Location.follow_append, habove]
  rfl

/-- With the name of the instance behind it, the path may be too long. -/
theorem occupiedError_roundabout (long : Disk.pathBound ≤ 3 * count + 7) :
    occupiedError (roundabout count ++ '/' :: defaultName) =
      .directory (roundabout count ++ '/' :: defaultName) .nameTooLong := by
  have hlength : Text.Utf8.length (roundabout count ++ '/' :: defaultName) = 3 * count + 7 := by
    rw [Text.Utf8.length_append, length_roundabout]
    rfl
  have hzero : '\x00' ∉ roundabout count ++ '/' :: defaultName := by
    rw [List.mem_append, not_or]
    exact ⟨fun h => absurd (mem_roundabout count h) (by decide), by decide⟩
  have hcheck : Disk.checkPath (roundabout count ++ '/' :: defaultName) = .error .nameTooLong := by
    rw [Disk.checkPath, if_neg hzero, if_neg (by simp), hlength, if_pos long]
  rw [occupiedError, hcheck]

end Instance
end Provision

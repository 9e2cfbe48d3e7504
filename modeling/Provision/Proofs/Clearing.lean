import Provision.Proofs.Remaking
import Provision.Proofs.Removing
import Provision.Proofs.Reopening

/-! What a removal comes to.

Where something is missing, a path leads to the same place as before or it is not found, and this
also if it goes on from a directory that has been removed, `Fewer.walk`. So a path whose directory
has been removed is not found, whichever way it goes, `locate_of_delete`: to remove it once more
changes nothing. `clears` says what else is promised. -/
namespace Provision

namespace Location

/-- The same place, or what is left of it when it has been removed. -/
def Remains (location rest : Location) : Prop :=
  rest = location ∨ rest = location.detached

theorem isDetached_detached (location : Location) : location.detached.isDetached = true := by
  simp [isDetached, detached]

theorem dropLast_detached (location : Location) :
    location.detached.dropLast = location.dropLast := by
  simp [detached]

theorem detached_detached (location : Location) :
    location.detached.detached = location.detached := by
  rw [detached, dropLast_detached]
  rfl

end Location

namespace Disk

variable {disk disk' : Disk} {path : Path} {location : Location}

/-! ### What is missing -/

theorem entry?_remove_within {target : Location} (within : location <+: target)
    (below : target ≠ []) (attached : target.isDetached = false) :
    Disk.entry? (disk.remove location) target = none := by
  rw [entry?_def, if_neg (by simp [below, attached]), remove, find?_removeWhere,
    if_pos (List.isPrefixOf_iff_prefix.mpr within)]

theorem entry?_clear_within {target : Location} (within : location <+: target)
    (below : target ≠ location) (attached : target.isDetached = false) :
    Disk.entry? (disk.clear location) target = none := by
  have hne : target ≠ [] := by
    rintro rfl
    exact below (List.prefix_nil.mp within).symm
  rw [entry?_def, if_neg (by simp [hne, attached]), clear, find?_removeWhere, if_pos]
  simpa [below] using within

theorem removeEmpty_of_names (disk : Disk) (location : Location) {front : List Name} {name : Name}
    (named : Path.names path = front ++ [name]) : disk.removeEmpty path location = do
      let _ ← disk.walk (disk.start path) front
      if name = Path.here then .error .invalidArgument
      else if name = Path.above then .error .notEmpty
      else return disk.remove location := by
  rw [removeEmpty, named, List.getLast?_concat, List.dropLast_concat]

theorem workingDirectory_clear (h : ¬ location <+: disk.workingDirectory) :
    (disk.clear location).workingDirectory = disk.workingDirectory :=
  if_neg fun hmeant => h (List.isPrefixOf_iff_prefix.mp (Bool.and_eq_true_iff.mp hmeant).1)

theorem workingDirectory_remove (h : ¬ location <+: disk.workingDirectory) :
    (disk.remove location).workingDirectory = disk.workingDirectory :=
  if_neg fun hmeant => h (List.isPrefixOf_iff_prefix.mp hmeant)

/-- Names that never come by a directory are followed as before when it is cleared. -/
theorem walk_clear {names : List Name} {target : Location}
    (walked : disk.walk [] names = .ok target)
    (apart : ∀ front, front <+: names → Location.follow [] front ≠ location) :
    (disk.clear location).walk [] names = .ok target := by
  -- What is cleared is not passed either, for it is below the directory.
  have hkept : ∀ front, front <+: names → Disk.entry? (disk.clear location)
      (Location.follow [] front) = disk.entry? (Location.follow [] front) := by
    intro front hf
    refine (disk.entry?_clear_cases location _).resolve_right fun ⟨hwithin, _⟩ => ?_
    obtain ⟨before, hb, hplace⟩ := Location.exists_front_of_prefix hwithin
    exact apart before (hb.trans hf) hplace
  induction names using List.reverseRecOn generalizing target with
  | nil => exact walked
  | append_singleton front name ih =>
    have hshorter : ∀ {before}, before <+: front → before <+: front ++ [name] :=
      fun hb => hb.trans (List.prefix_append ..)
    rw [walk_append] at walked ⊢
    obtain ⟨directory, hfront, hlast⟩ := bind_eq_ok_iff.mp walked
    obtain ⟨next, henter, ⟨⟩⟩ := bind_eq_ok_iff.mp hlast
    have hagain := ih hfront (fun before hb => apart before (hshorter hb))
      (fun before hb => hkept before (hshorter hb))
    refine bind_eq_ok_iff.mpr ⟨directory, hagain, bind_eq_ok_iff.mpr ⟨target, ?_, rfl⟩⟩
    obtain ⟨hdirectory, hnext, hname⟩ := enter_eq_ok_iff.mp henter
    have hplace := walk_eq_ok hfront
    have hwhole : Location.follow [] (front ++ [name]) = directory.next name := by
      rw [Location.follow_append, ← hplace]
      rfl
    have hthere := hkept front (hshorter List.prefix_rfl)
    have hentry := hkept _ List.prefix_rfl
    rw [← hplace] at hthere
    rw [hwhole] at hentry
    refine enter_eq_ok_iff.mpr ⟨hthere.trans hdirectory, hnext, ?_⟩
    by_cases hspecial : name = Path.here ∨ name = Path.above
    · exact hspecial.imp_right .inl
    · obtain ⟨hhere, habove⟩ := not_or.mp hspecial
      rw [Location.next_of_plain hhere habove] at hentry
      rw [hentry]
      exact hname

/-! ### Where something is missing -/

/-- Nothing is new, and what is left of the working directory is the working directory. -/
structure Fewer (disk disk' : Disk) : Prop where
  entries : ∀ location, disk'.entry? location = disk.entry? location ∨
    disk'.entry? location = none
  workingDirectory : disk.workingDirectory.Remains disk'.workingDirectory

theorem fewer_removeWhere (disk : Disk) (isMeant : Location → Bool) :
    Fewer disk (disk.removeWhere isMeant) where
  entries := fun location =>
    (disk.entry?_removeWhere_cases isMeant location).imp_right fun ⟨_, hnone⟩ => hnone
  workingDirectory := by
    change Location.Remains disk.workingDirectory (if isMeant disk.workingDirectory then
      disk.workingDirectory.detached else disk.workingDirectory)
    split
    · exact .inr rfl
    · exact .inl rfl

theorem fewer_refl (disk : Disk) : Fewer disk disk :=
  ⟨fun _ => .inl rfl, .inl rfl⟩

theorem Fewer.trans {disk'' : Disk} (h : Fewer disk disk') (h' : Fewer disk' disk'') :
    Fewer disk disk'' where
  entries := fun location => by
    rcases h'.entries location with he | he
    · rw [he]
      exact h.entries location
    · exact .inr he
  workingDirectory := by
    rcases h'.workingDirectory with hw | hw
    · rw [hw]
      exact h.workingDirectory
    · rw [hw]
      rcases h.workingDirectory with hv | hv
      · rw [hv]
        exact .inr rfl
      · rw [hv, Location.detached_detached]
        exact .inr rfl

namespace Fewer

variable (fewer : Fewer disk disk')

include fewer

theorem noFile {place : Location} (h : disk.NoFile place) : disk'.NoFile place := by
  intro id he
  rcases fewer.entries place with hsame | hnone
  · exact h id (hsame.symm.trans he)
  · rw [hnone] at he
    cases he

theorem isOpen {names : List Name} (h : disk.IsOpen names) : disk'.IsOpen names where
  free := fun front hf => fewer.noFile (h.free front hf)
  short := h.short

/-- A name leads on as before, or something is missing. -/
theorem enter {rest next : Location} {name : Name} (h : disk.enter location name = .ok next)
    (remains : location.Remains rest) :
    (∃ next', disk'.enter rest name = .ok next' ∧ next.Remains next' ∧
        (name ≠ Path.here → next' = next)) ∨
      disk'.enter rest name = .error .notFound := by
  obtain ⟨hdirectory, hnext, -⟩ := enter_eq_ok_iff.mp h
  have hshort := short_of_enter h
  rcases remains with rfl | rfl
  · have hfree : disk.NoFile rest := by
      intro id he
      rw [hdirectory] at he
      cases he
    refine (enter_cases (fewer.noFile hfree) hshort).imp_left fun henter => ?_
    rw [hnext] at henter
    exact ⟨next, henter, .inl rfl, fun _ => rfl⟩
  · have hfree : disk'.NoFile location.detached := by
      intro id he
      rw [entry?_def, if_pos (.inr location.isDetached_detached)] at he
      cases he
    refine (enter_cases hfree hshort).imp_left fun henter => ⟨_, henter, ?_⟩
    rw [← hnext]
    rcases (enter_eq_ok_iff.mp henter).2.2 with rfl | rfl | ⟨hattached, -⟩
    · exact ⟨.inr rfl, fun hne => absurd rfl hne⟩
    · have hsame : location.detached.next Path.above = location.next Path.above :=
        location.dropLast_detached
      exact ⟨.inl hsame, fun _ => hsame⟩
    · rw [location.isDetached_detached] at hattached
      cases hattached

theorem walk {rest target : Location} {names : List Name}
    (h : disk.walk location names = .ok target) (remains : location.Remains rest) :
    (∃ target', disk'.walk rest names = .ok target' ∧ target.Remains target') ∨
      disk'.walk rest names = .error .notFound := by
  induction names generalizing location rest with
  | nil =>
    cases h
    exact .inl ⟨rest, rfl, remains⟩
  | cons name names ih =>
    obtain ⟨next, hnext, hrest⟩ := bind_eq_ok_iff.mp h
    rw [Disk.walk]
    rcases fewer.enter hnext remains with ⟨next', henter, hremains, -⟩ | hmissing
    · rw [henter]
      exact ih hrest hremains
    · rw [hmissing]
      exact .inr rfl

theorem start (path : Path) : (disk.start path).Remains (disk'.start path) := by
  rw [Disk.start, Disk.start]
  split
  · exact .inl rfl
  · exact fewer.workingDirectory

/-- A path that does not end in a dot leads to the same place as before, or something on it is
missing. -/
theorem locate {front : List Name} {name : Name} (named : Path.names path = front ++ [name])
    (notHere : name ≠ Path.here) (h : disk.locate path = .ok location)
    (gone : disk'.entry? location = none) : disk'.locate path = .error .notFound := by
  obtain ⟨hcheck, hwalk, -⟩ := locate_eq_ok_iff.mp h
  rw [named, walk_append] at hwalk
  obtain ⟨directory, hfront, hwalk⟩ := bind_eq_ok_iff.mp hwalk
  obtain ⟨next, henter, ⟨⟩⟩ := bind_eq_ok_iff.mp hwalk
  rw [Disk.locate, hcheck, named, walk_append]
  rcases fewer.walk hfront (fewer.start path) with ⟨directory', hfront', hremains⟩ | hmissing
  · rw [hfront']
    rcases fewer.enter henter hremains with ⟨next', henter', -, hsame⟩ | hmissing
    · rw [hsame notHere] at henter'
      have hlast : disk'.walk directory' [name] = .ok location :=
        bind_eq_ok_iff.mpr ⟨_, henter', rfl⟩
      simp [bind, Except.bind, hlast, gone]
    · have hlast : disk'.walk directory' [name] = .error .notFound := by
        rw [Disk.walk, hmissing]
        rfl
      simp [bind, Except.bind, hlast]
  · simp [bind, Except.bind, hmissing]

end Fewer

end Disk

namespace Instance

variable {disk : Disk} {receipt : Receipt}

/-! ### The ways in which a removal goes -/

theorem delete_of_missing (h : disk.locate receipt.dataDirectory = .error .notFound) :
    delete disk receipt = (.ok (), disk) := by
  rw [delete, Disk.removeTree, h]

theorem delete_of_unreachable {e : FileError} (h : disk.locate receipt.dataDirectory = .error e)
    (found : e ≠ .notFound) :
    delete disk receipt = (.error (.teardown receipt.dataDirectory e), disk) := by
  rw [delete, Disk.removeTree, h]
  cases e with
  | notFound => exact absurd rfl found
  | _ => rfl

theorem delete_of_file {location : Location} {id : Nat}
    (h : disk.locate receipt.dataDirectory = .ok location)
    (there : disk.entry? location = some (.file id)) :
    delete disk receipt = (.error (.teardown receipt.dataDirectory .notDirectory), disk) := by
  rw [delete, Disk.removeTree, h]
  simp [Disk.isDirectoryAt, there]

/-- A directory that is found is cleared first. -/
theorem delete_of_located {location : Location}
    (located : disk.locate receipt.dataDirectory = .ok location)
    (there : disk.entry? location = some .directory) : delete disk receipt =
      match (disk.clear location).removeEmpty receipt.dataDirectory location with
      | .ok disk => (.ok (), disk)
      | .error .notFound => (.ok (), disk.clear location)
      | .error e => (.error (.teardown receipt.dataDirectory e), disk.clear location) := by
  rw [delete, Disk.removeTree, located]
  simp only [Disk.isDirectoryAt, there, beq_self_eq_true, if_true]
  rcases (disk.clear location).removeEmpty receipt.dataDirectory location with e | after
  · cases e <;> rfl
  · rfl

/-- What a removal comes to, and on which ground. -/
inductive Removal (disk : Disk) (receipt : Receipt) : Prop
  | missing : disk.locate receipt.dataDirectory = .error .notFound →
    delete disk receipt = (.ok (), disk) → Removal disk receipt
  | unreachable {e : FileError} : disk.locate receipt.dataDirectory = .error e → e ≠ .notFound →
    delete disk receipt = (.error (.teardown receipt.dataDirectory e), disk) →
      Removal disk receipt
  | file {location : Location} {id : Nat} : disk.locate receipt.dataDirectory = .ok location →
    disk.entry? location = some (.file id) →
      delete disk receipt = (.error (.teardown receipt.dataDirectory .notDirectory), disk) →
        Removal disk receipt
  | removed {location : Location} {front : List Name} {name : Name} :
    disk.locate receipt.dataDirectory = .ok location →
      Path.names receipt.dataDirectory = front ++ [name] → name ≠ Path.here →
        name ≠ Path.above →
          delete disk receipt = (.ok (), (disk.clear location).remove location) →
            Removal disk receipt
  /-- The path goes through something that is removed before the directory itself. -/
  | cleared {location : Location} : disk.locate receipt.dataDirectory = .ok location →
    (disk.clear location).locate receipt.dataDirectory = .error .notFound →
      delete disk receipt = (.ok (), disk.clear location) → Removal disk receipt
  | stuck {location : Location} {e : FileError} :
    disk.locate receipt.dataDirectory = .ok location →
      delete disk receipt = (.error (.teardown receipt.dataDirectory e), disk.clear location) →
        Removal disk receipt

theorem removal (disk : Disk) (receipt : Receipt) : Removal disk receipt := by
  cases hl : disk.locate receipt.dataDirectory with
  | error e =>
    by_cases he : e = .notFound
    · subst he
      exact .missing hl (delete_of_missing hl)
    · exact .unreachable hl he (delete_of_unreachable hl he)
  | ok location =>
    obtain ⟨hcheck, hwalk, entry, hentry, -⟩ := Disk.locate_eq_ok_iff.mp hl
    cases entry with
    | file id => exact .file hl hentry (delete_of_file hl hentry)
    | directory =>
      have hdelete := delete_of_located hl hentry
      have hstuck : ∀ e, e ≠ .notFound →
          (disk.clear location).removeEmpty receipt.dataDirectory location = .error e →
            Removal disk receipt := by
        intro e he hempty
        refine .stuck (e := e) hl ?_
        rw [hdelete, hempty]
        cases e with
        | notFound => exact absurd rfl he
        | _ => rfl
      rcases List.eq_nil_or_concat (Path.names receipt.dataDirectory) with
        hnames | ⟨front, name, hnames⟩
      · exact hstuck .busy (by decide) (by rw [Disk.removeEmpty, hnames]; rfl)
      rw [List.concat_eq_append] at hnames
      have hempty := (disk.clear location).removeEmpty_of_names location hnames
      cases hwalked : (disk.clear location).walk
          ((disk.clear location).start receipt.dataDirectory) front with
      | error e =>
        rw [hwalked] at hempty
        by_cases he : e = .notFound
        · subst he
          refine .cleared hl ?_ (by rw [hdelete, hempty]; rfl)
          rw [Disk.locate, hcheck, hnames, Disk.walk_append, hwalked]
          rfl
        · exact hstuck e he hempty
      | ok directory =>
        rw [hwalked] at hempty
        change _ = if name = Path.here then _ else if name = Path.above then _ else _ at hempty
        by_cases hhere : name = Path.here
        · exact hstuck .invalidArgument (by decide) (by rw [hempty, if_pos hhere])
        rw [if_neg hhere] at hempty
        by_cases habove : name = Path.above
        · exact hstuck .notEmpty (by decide) (by rw [hempty, if_pos habove])
        rw [if_neg habove] at hempty
        exact .removed hl hnames hhere habove (by rw [hdelete, hempty]; rfl)

/-! ### What a removal promises -/

/-- A path whose directory has been removed leads nowhere. -/
theorem locate_of_delete (ok : (delete disk receipt).1 = .ok ()) :
    (delete disk receipt).2.locate receipt.dataDirectory = .error .notFound := by
  cases removal disk receipt with
  | missing hl hdelete =>
    rw [hdelete]
    exact hl
  | unreachable hl he hdelete =>
    rw [hdelete] at ok
    cases ok
  | file hl hentry hdelete =>
    rw [hdelete] at ok
    cases ok
  | stuck hl hdelete =>
    rw [hdelete] at ok
    cases ok
  | cleared hl hgone hdelete =>
    rw [hdelete]
    exact hgone
  | @removed location front name hl hnames hhere habove hdelete =>
    rw [hdelete]
    have hfewer : Disk.Fewer disk ((disk.clear location).remove location) :=
      (Disk.fewer_removeWhere disk _).trans (Disk.fewer_removeWhere _ _)
    refine hfewer.locate hnames hhere hl ?_
    have hmem : name ∈ Path.names receipt.dataDirectory := by
      rw [hnames]
      exact List.mem_append_right _ (List.mem_singleton_self name)
    have hname := Disk.ne_nil_of_mem_names hmem
    obtain rfl := Disk.eq_placeOf_of_locate hl
    rw [Disk.placeOf, hnames, Location.follow_append]
    refine Disk.entry?_remove_within List.prefix_rfl ?_ ?_
    · simp [Location.follow, Location.next_of_plain hhere habove]
    · simp [Location.follow, Location.next_of_plain hhere habove, Location.isDetached, hname]

/-- Nothing stays in the directory, even if the removal fails later. -/
theorem entry?_delete_below (h : disk.isDirectory receipt.dataDirectory = true) {target : Location}
    (within : disk.placeOf receipt.dataDirectory <+: target)
    (below : target ≠ disk.placeOf receipt.dataDirectory) (attached : target.isDetached = false) :
    Disk.entry? (delete disk receipt).2 target = none := by
  obtain ⟨location, hlocate, hdirectory⟩ := Disk.isDirectory_iff.mp h
  obtain rfl := Disk.eq_placeOf_of_locate hlocate
  have hclear := disk.entry?_clear_within within below attached
  cases removal disk receipt with
  | missing hl hdelete =>
    rw [hlocate] at hl
    cases hl
  | unreachable hl he hdelete =>
    rw [hlocate] at hl
    cases hl
  | file hl hentry hdelete =>
    rw [← Disk.eq_placeOf_of_locate hl] at hdirectory
    rw [hdirectory] at hentry
    cases hentry
  | stuck hl hdelete =>
    rw [hdelete, Disk.eq_placeOf_of_locate hl]
    exact hclear
  | cleared hl hgone hdelete =>
    rw [hdelete, Disk.eq_placeOf_of_locate hl]
    exact hclear
  | removed hl hnames hhere habove hdelete =>
    rw [hdelete, Disk.eq_placeOf_of_locate hl]
    exact ((Disk.fewer_removeWhere _ _).entries target).elim (·.trans hclear) id

theorem fewer_delete (disk : Disk) (receipt : Receipt) :
    Disk.Fewer disk (delete disk receipt).2 := by
  rw [delete_disk]
  rcases disk.removeTree_cases receipt.dataDirectory with hsame | ⟨location, -, -, hc | hc⟩
  · rw [hsame]
    exact disk.fewer_refl
  · rw [hc]
    exact disk.fewer_removeWhere _
  · rw [hc]
    exact (disk.fewer_removeWhere _).trans (Disk.fewer_removeWhere _ _)

/-- The files themselves are not touched. -/
theorem delete_files (disk : Disk) (receipt : Receipt) : { disk with
    tree := (delete disk receipt).2.tree
    workingDirectory := (delete disk receipt).2.workingDirectory } =
      (delete disk receipt).2 := by
  rw [delete_disk]
  rcases disk.removeTree_cases receipt.dataDirectory with hsame | ⟨location, -, -, hc | hc⟩
  · rw [hsame]
  · rw [hc]
    rfl
  · rw [hc]
    rfl

theorem delete_allowance (disk : Disk) (receipt : Receipt) :
    (delete disk receipt).2.allowance = disk.allowance :=
  (congrArg Disk.allowance (delete_files disk receipt)).symm

/-- What a receipt says to remove is gone when it has been removed, and the rest is as before. -/
structure Clears (disk : Disk) (receipt : Receipt) : Prop where
  gone : (delete disk receipt).1 = .ok () →
    (delete disk receipt).2.locate receipt.dataDirectory = .error .notFound
  outside : ∀ target, ¬ disk.placeOf receipt.dataDirectory <+: target →
    Disk.entry? (delete disk receipt).2 target = disk.entry? target
  emptied : disk.isDirectory receipt.dataDirectory = true → ∀ target : Location,
    disk.placeOf receipt.dataDirectory <+: target →
      target ≠ disk.placeOf receipt.dataDirectory → target.isDetached = false →
        Disk.entry? (delete disk receipt).2 target = none
  files : { disk with
    tree := (delete disk receipt).2.tree
    workingDirectory := (delete disk receipt).2.workingDirectory } = (delete disk receipt).2
  workingDirectory : ¬ disk.placeOf receipt.dataDirectory <+: disk.workingDirectory →
    (delete disk receipt).2.workingDirectory = disk.workingDirectory
  missing : disk.locate receipt.dataDirectory = .error .notFound →
    delete disk receipt = (.ok (), disk)
  again : (delete disk receipt).1 = .ok () →
    delete (delete disk receipt).2 receipt = (.ok (), (delete disk receipt).2)
  file : ∀ id, disk.file? receipt.dataDirectory = some id →
    delete disk receipt = (.error (.teardown receipt.dataDirectory .notDirectory), disk)
  unreachable : ∀ e, disk.locate receipt.dataDirectory = .error e → e ≠ .notFound →
    delete disk receipt = (.error (.teardown receipt.dataDirectory e), disk)
  read : read disk receipt = disk

theorem clears (disk : Disk) (receipt : Receipt) : Clears disk receipt where
  gone := locate_of_delete
  outside := fun target houtside => by
    refine entry?_delete fun ⟨⟨location, hl, _, hwithin⟩, _⟩ => houtside ?_
    rw [← Disk.eq_placeOf_of_locate hl]
    exact hwithin
  emptied := fun hdirectory target hwithin hbelow hattached =>
    entry?_delete_below hdirectory hwithin hbelow hattached
  files := delete_files disk receipt
  workingDirectory := fun houtside => by
    rw [delete_disk]
    rcases disk.removeTree_cases receipt.dataDirectory with hsame | ⟨location, hl, -, hc | hc⟩
    · rw [hsame]
    · rw [hc]
      obtain rfl := Disk.eq_placeOf_of_locate hl
      exact Disk.workingDirectory_clear houtside
    · rw [hc]
      obtain rfl := Disk.eq_placeOf_of_locate hl
      have hclear := Disk.workingDirectory_clear houtside
      rw [← hclear] at houtside
      exact (Disk.workingDirectory_remove houtside).trans hclear
  missing := delete_of_missing
  again := fun hok => delete_of_missing (locate_of_delete hok)
  file := fun id hfile => by
    obtain ⟨place, hplace, hentry⟩ := Disk.file?_eq_some_iff.mp hfile
    exact delete_of_file hplace hentry
  unreachable := fun e hl he => delete_of_unreachable hl he
  read := rfl

end Instance
end Provision

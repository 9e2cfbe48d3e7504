import Provision.Proofs.Occupying
import Provision.Proofs.Remaking
import Provision.Proofs.Reopening

/-! Where the stores of an instance can be made.

A store can be opened where there is none if the way to it is open, `openStore_of_open`. A directory
without stores to which the way is open is a site for them, `Site`, and when one store has been set
up it is a site for the others, `Site.next`. So all of them can be opened when their turn comes,
`Site.canOpen`. -/
namespace Provision

open Instance (directoryPlace storePlace)

namespace Path

/-- The way to a directory goes nowhere below it. -/
def StaysAbove (directory : Path) : Prop :=
  ∀ front, front <+: steps directory → directoryPlace directory <+: Location.follow [] front →
    Location.follow [] front = directoryPlace directory

theorem follow_steps (path : Path) : Location.follow [] (steps path) = directoryPlace path :=
  Location.follow_filter ..

theorem steps_join {name : Name} (plain : name.IsPlain) (directory : Path) :
    steps (join directory name) = steps directory ++ [name] := by
  rw [steps, plain.names_join, List.filter_append, ← steps]
  simp [plain.notHere]

theorem trimmed_join {name : Name} (plain : name.IsPlain) (directory : Path) :
    (names (join directory name)).getLast? ≠ some here := by
  rw [plain.names_join, List.getLast?_concat]
  exact fun he => plain.notHere (Option.some.inj he)

end Path

namespace Disk

variable {disk : Disk} {directory path : Path} {store : Name} {cache : UInt64}

theorem checkPath_of_join {name : Name} (plain : name.IsPlain) (hne : path ≠ [])
    (h : checkPath (Path.join path name) = .ok ()) : checkPath path = .ok () := by
  obtain ⟨rest, hrest⟩ := Path.exists_join_eq_append plain path
  exact checkPath_of_front hne ⟨rest, hrest.symm⟩ h

/-- An open way leads to a directory, or there is nothing at its end. -/
theorem locate_of_open (absolute : Path.isAbsolute path) (check : checkPath path = .ok ())
    (isOpen : disk.IsOpen (Path.steps path)) :
    disk.locate path = .error .notFound ∨
      disk.locate path = .ok (directoryPlace path) ∧
        disk.entry? (directoryPlace path) = some .directory := by
  have hfree := isOpen.free _ List.prefix_rfl
  rw [Path.follow_steps] at hfree
  rw [locate, check, start_of_absolute absolute]
  rcases isOpen.walk_cases with hwalk | hwalk
  · change disk.walk [] (Path.names path) = .ok (directoryPlace path) at hwalk
    cases hentry : disk.entry? (directoryPlace path) with
    | none => exact .inl (by simp [bind, Except.bind, hwalk, hentry])
    | some entry =>
      cases entry with
      | file id => exact absurd hentry (hfree id)
      | directory =>
        refine .inr ⟨?_, rfl⟩
        simp only [bind, Except.bind, hwalk, hentry]
        rfl
  · exact .inl (by simp [bind, Except.bind, hwalk])

/-- Nothing is below what is not there. -/
theorem Coherent.entry?_of_absent (coherent : disk.Coherent) {location : Location} {name : Name}
    (plain : name ≠ []) (absent : disk.entry? location = none) :
    disk.entry? (location ++ [name]) = none := by
  cases hentry : disk.entry? (location ++ [name]) with
  | none => rfl
  | some entry =>
    rw [entry?_append location plain] at hentry
    have hinside := (coherent.placed _ _ hentry).inside
    rw [List.dropLast_concat, absent] at hinside
    cases hinside

/-- A store is made where there is none, at the end of an open way. -/
theorem openStore_of_open (coherent : disk.Coherent) (absolute : Path.isAbsolute directory)
    (plain : store.IsPlain) (check : checkPath (databasePath directory store) = .ok ())
    (isOpen : disk.IsOpen (Path.steps (Path.join directory store)))
    (absent : Disk.entry? (disk.makeDirectories (Path.join directory store)).2
      (storePlace directory store) = none)
    (unlimited : disk.allowance = none) (room : (Cache.bytes? cache).isSome) :
    ∃ handle opened, disk.openStore directory store cache = (.ok handle, opened) ∧
      opened.tree = ((disk.makeDirectories (Path.join directory store)).2.put
        (storePlace directory store) (.file disk.nextFile)).tree := by
  have habsolute := Path.isAbsolute_join absolute store
  have hne := Path.ne_nil_of_isAbsolute habsolute
  have hcheck := checkPath_of_join databaseName_isPlain hne check
  obtain ⟨made, hmade⟩ := makeDirectories_of_open coherent habsolute hcheck isOpen
    (Path.trimmed_join plain directory)
  have hadds := makeDirectories_adds disk (Path.join directory store)
  rw [hmade] at hadds absent ⊢
  obtain ⟨location, hlocate, hdirectory⟩ :=
    isDirectory_iff.mp (isDirectory_of_makeDirectories hne hmade)
  have hplace := Instance.location_eq_directoryPlace habsolute hlocate
  have hstore : storePlace directory store = location ++ [databaseName] := by
    rw [hplace, Instance.directoryPlace_join plain, Instance.storePlace_eq]
  have hlooked : made.directoryOf (databasePath directory store) = .ok location := by
    obtain ⟨-, hwalk, -⟩ := locate_eq_ok_iff.mp hlocate
    refine directoryOf_eq_ok_iff.mpr ⟨check, ?_, hdirectory⟩
    rw [start_of_absolute habsolute] at hwalk
    rw [start_of_absolute (isAbsolute_databasePath absolute store), databasePath,
      databaseName_isPlain.names_join, List.dropLast_concat]
    exact hwalk
  have hnames : made.Names (databasePath directory store) location databaseName := by
    refine ⟨hlooked, ?_, databaseName_isPlain.notHere, databaseName_isPlain.notAbove, ?_, ?_⟩
    · rw [databasePath, databaseName_isPlain.names_join, List.getLast?_concat]
    · rw [hplace]
      exact Location.attached_follow fun name hn => ne_nil_of_mem_names hn
    · decide
  have hspot : made.databaseSpot (databasePath directory store) =
      .ok (storePlace directory store, none) := by
    rw [hstore] at absent
    rw [databaseSpot, hnames.place_eq, absent, hstore]
  have hopen : made.openDatabase (databasePath directory store) =
      (.ok made.nextFile, { ((made.addFile (storePlace directory store) (.text [])).setContent
        made.nextFile (.database [])).hold made.nextFile with allowance := none }) := by
    have hfree : (made.addFile (storePlace directory store) (.text [])).allowance = none :=
      hadds.allowance.trans unlimited
    rw [openDatabase, hspot]
    simp only [openTable, hfree]
    rfl
  rw [openStore]
  -- The product in the cache is kept from being computed.
  generalize Cache.bytes? cache = bytes at room ⊢
  obtain ⟨count, rfl⟩ := Option.isSome_iff_exists.mp room
  rw [hmade, ← hadds.nextFile]
  dsimp only
  rw [hopen]
  exact ⟨_, _, rfl, rfl⟩

end Disk

namespace Instance

variable {disk : Disk} {directory : Path} {parsed : ParsedGenesis} {cache : UInt64}
  {store : Name} {rest stores : List Name}

/-! ### Sites -/

/-- A directory to which the way is open, with nothing where these stores will be. -/
structure Site (directory : Path) (disk : Disk) (stores : List Name) : Prop where
  coherent : disk.Coherent
  unlimited : disk.allowance = none
  isOpen : disk.IsOpen (Path.steps directory)
  absent : ∀ store ∈ stores, disk.entry? (directoryPlace directory ++ [store]) = none

theorem Site.entry?_storePlace (site : Site directory disk stores) (hs : store ∈ stores) :
    disk.entry? (storePlace directory store) = none := by
  rw [storePlace_eq]
  exact site.coherent.entry?_of_absent databaseName_isPlain.nonempty (site.absent store hs)

/-- What making the directory of a store leaves alone. -/
theorem entry?_makeDirectories_join (absolute : Path.isAbsolute directory)
    (stays : directory.StaysAbove) (plain : store.IsPlain) {target : Location}
    (within : directoryPlace directory <+: target) (below : target ≠ directoryPlace directory)
    (other : target ≠ directoryPlace directory ++ [store])
    (absent : disk.entry? target = none) :
    Disk.entry? (disk.makeDirectories (Path.join directory store)).2 target = none := by
  by_contra hnew
  have habsolute := Path.isAbsolute_join absolute store
  obtain ⟨parent, hmem, -, hplace⟩ := Disk.named_of_new habsolute absent hnew
  have hsteps := (Path.steps_of_mem_ancestors habsolute parent hmem).2
  rw [Path.steps_join plain] at hsteps
  rcases List.prefix_concat_iff.mp hsteps with hall | hfront
  · rw [hall, ← Path.steps_join plain, Path.follow_steps, directoryPlace_join plain] at hplace
    exact other hplace.symm
  · rw [← hplace] at within below
    exact below (stays _ hfront within)

section Stores

variable (absolute : Path.isAbsolute directory) (stays : directory.StaysAbove)

include absolute stays

/-- Opening a store on its site makes the file of its database, and otherwise what making its
directory makes. -/
theorem Site.openStore (site : Site directory disk (store :: rest)) (plain : store.IsPlain)
    (short : Text.Utf8.length store ≤ Disk.mostNameBytes)
    (check : Disk.checkPath (databasePath directory store) = .ok ())
    (room : (Cache.bytes? cache).isSome) :
    ∃ handle opened, disk.openStore directory store cache = (.ok handle, opened) ∧
      ∀ location ≠ storePlace directory store, opened.entry? location =
        Disk.entry? (disk.makeDirectories (Path.join directory store)).2 location := by
  have habsent := site.absent store (List.mem_cons_self ..)
  have hnothing := entry?_makeDirectories_join absolute stays plain (List.prefix_append ..)
    (by simp) (by simp) (site.entry?_storePlace (List.mem_cons_self ..))
  have hopen : disk.IsOpen (Path.steps (Path.join directory store)) := by
    rw [Path.steps_join plain]
    refine site.isOpen.concat ?_ short
    rw [← Path.steps_join plain, Path.follow_steps, directoryPlace_join plain]
    intro id he
    rw [habsent] at he
    cases he
  obtain ⟨handle, opened, ho, htree⟩ := Disk.openStore_of_open site.coherent absolute plain check
    hopen hnothing site.unlimited room
  refine ⟨handle, opened, ho, fun location hne => ?_⟩
  rw [storePlace_eq] at hne htree
  rw [Disk.entry?_of_tree htree, Disk.entry?_put _ _ databaseName_isPlain.nonempty,
    if_neg hne.symm]

/-- **A store is set up on its site, and the site is left to the others.** -/
theorem Site.next (site : Site directory disk (store :: rest)) (plain : store.IsPlain)
    (short : Text.Utf8.length store ≤ Disk.mostNameBytes) (distinct : (store :: rest).Nodup)
    (check : Disk.checkPath (databasePath directory store) = .ok ())
    (room : (Cache.bytes? cache).isSome) :
    (disk.openStore directory store cache).1.isOk ∧
      Site directory (setupStore disk directory parsed cache store).2 rest := by
  obtain ⟨handle, opened, ho, hopened⟩ :=
    site.openStore absolute stays plain short check room
  have hnoFile : disk.NoFile (storePlace directory store) := by
    intro id he
    rw [site.entry?_storePlace (List.mem_cons_self ..)] at he
    cases he
  obtain ⟨after, hs, hfree⟩ := setupStore_of_opened parsed
    (vacant_of_noFile absolute plain hnoFile) site.unlimited ho
  have hafter : ∀ location ≠ storePlace directory store, after.entry? location =
      Disk.entry? (disk.makeDirectories (Path.join directory store)).2 location := by
    intro location hne
    have htree := setupStore_tree disk directory parsed cache store
    rw [hs, ho] at htree
    rw [Disk.entry?_of_tree htree, hopened location hne]
  have hadds := Disk.makeDirectories_adds disk (Path.join directory store)
  rw [ho, hs]
  refine ⟨rfl, setupStore_coherent site.coherent hs, hfree, ⟨?_, site.isOpen.short⟩, ?_⟩
  · intro front hf id he
    by_cases hne : Location.follow [] front = storePlace directory store
    · have hsame := stays front hf (hne ▸ List.prefix_append ..)
      rw [hne] at hsame
      simp [storePlace] at hsame
    · rw [hafter _ hne] at he
      exact hadds.noFile (site.isOpen.free front hf) id he
  · intro other hother
    have hne : other ≠ store := fun he => (List.nodup_cons.mp distinct).1 (he ▸ hother)
    rw [hafter _ (by simp [storePlace])]
    exact entry?_makeDirectories_join absolute stays plain (List.prefix_append ..) (by simp)
      (by simpa using hne) (site.absent other (List.mem_cons_of_mem _ hother))

/-- All stores can be opened when their turn comes. -/
theorem Site.canOpen (site : Site directory disk stores) (distinct : stores.Nodup)
    (plain : ∀ store ∈ stores, store.IsPlain)
    (short : ∀ store ∈ stores, Text.Utf8.length store ≤ Disk.mostNameBytes)
    (check : ∀ store ∈ stores, Disk.checkPath (databasePath directory store) = .ok ())
    (room : (Cache.bytes? cache).isSome) :
    Instance.canOpen directory parsed cache disk stores := by
  induction stores generalizing disk with
  | nil => rfl
  | cons store rest ih =>
    obtain ⟨hplain, hplainRest⟩ := List.forall_mem_cons.mp plain
    obtain ⟨hshort, hshortRest⟩ := List.forall_mem_cons.mp short
    obtain ⟨hcheck, hcheckRest⟩ := List.forall_mem_cons.mp check
    obtain ⟨hopens, hnext⟩ :=
      site.next absolute stays hplain hshort distinct hcheck room
    exact Bool.and_eq_true_iff.mpr
      ⟨hopens, ih hnext (List.nodup_cons.mp distinct).2 hplainRest hshortRest hcheckRest⟩

end Stores

end Instance
end Provision

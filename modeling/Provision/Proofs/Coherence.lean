import Provision.Proofs.Stages

/-! Disks that make sense.

What is on a disk is in a directory that is there, under a name that a path can have, and no
two files have one number: `Coherent`. Every stage of a run is such a disk if the first one
is, `stages_coherent`. -/
namespace Provision

/-! ### Names from paths -/

theorem Path.noSlash_of_mem_pieces {path : Path} {piece : Name} (h : piece ∈ pieces path) :
    '/' ∉ piece := by
  induction path generalizing piece with
  | nil =>
    rw [List.mem_singleton.mp h]
    exact List.not_mem_nil
  | cons c rest ih =>
    rw [pieces] at h
    split at h
    · rcases List.mem_cons.mp h with rfl | h
      · exact List.not_mem_nil
      · exact ih h
    · next hc =>
      cases hp : pieces rest with
      | nil => exact absurd hp (pieces_ne_nil rest)
      | cons first others =>
        rw [hp] at h ih
        rcases List.mem_cons.mp h with rfl | h
        · rw [List.mem_cons, not_or]
          exact ⟨fun he => hc he.symm, ih (List.mem_cons_self ..)⟩
        · exact ih (List.mem_cons_of_mem _ h)

namespace Disk

variable {disk disk' : Disk}

theorem Names.isPlain {path : Path} {directory : Location} {name : Name}
    (h : disk.Names path directory name) : name.IsPlain where
  nonempty := h.ne_nil
  noSlash := Path.noSlash_of_mem_pieces (List.mem_filter.mp (List.mem_of_getLast? h.last)).1
  notHere := h.notHere
  notAbove := h.notAbove

/-! ### Coherent disks -/

/-- A location where something may be: in a directory that is there, under a proper name. -/
structure IsPlace (disk : Disk) (location : Location) : Prop where
  inside : disk.entry? location.dropLast = some .directory
  attached : Location.isDetached location.dropLast = false
  named : ∃ name, location.getLast? = some name ∧ name.IsPlain ∧
    Text.Utf8.length name ≤ mostNameBytes

structure Coherent (disk : Disk) : Prop where
  placed : ∀ location entry, disk.tree.find? location = some entry → disk.IsPlace location
  single : ∀ location other id, disk.tree.find? location = some (.file id) →
    disk.tree.find? other = some (.file id) → location = other
  fresh : ∀ location id, disk.tree.find? location = some (.file id) → id < disk.nextFile
  held : ∀ id ∈ disk.held, id < disk.nextFile
  workingDirectory : disk.entry? disk.workingDirectory = some .directory

theorem coherent_empty : Coherent {} where
  placed := fun _ _ h => (nomatch h)
  single := fun _ _ _ h => (nomatch h)
  fresh := fun _ _ h => (nomatch h)
  held := fun _ h => (nomatch h)
  workingDirectory := rfl

theorem tree_put (location other : Location) (entry : Entry) :
    (disk.put location entry).tree.find? other =
      if location = other then some entry else disk.tree.find? other :=
  Dictionary.find?_insert ..

theorem Extends.isPlace (h : Extends disk disk') {location : Location}
    (hp : disk.IsPlace location) : disk'.IsPlace location :=
  ⟨h.kept _ _ hp.inside, hp.attached, hp.named⟩

theorem Names.isPlace {path : Path} {directory : Location} {name : Name}
    (h : disk.Names path directory name) : disk.IsPlace (directory ++ [name]) where
  inside := by
    rw [List.dropLast_concat]
    exact (directoryOf_eq_ok_iff.mp h.looked).2.2
  attached := by
    rw [List.dropLast_concat]
    exact h.attached
  named := ⟨name, by simp, h.isPlain, h.short⟩

namespace Coherent

/-- Files may be written and released, and those that are there may be held. -/
theorem setContents (h : disk.Coherent) (contents : Dictionary Nat Content)
    (allowance : Allowance) {held : List Nat} (hheld : ∀ id ∈ held, id < disk.nextFile) :
    Coherent { disk with contents, allowance, held } where
  placed := fun location entry he =>
    have hp := h.placed location entry he
    ⟨hp.inside, hp.attached, hp.named⟩
  single := h.single
  fresh := h.fresh
  held := hheld
  workingDirectory := h.workingDirectory

/-- Something new may stand where nothing is. -/
theorem put {path : Path} {directory : Location} {name : Name} (h : disk.Coherent)
    (hnames : disk.Names path directory name)
    (absent : disk.entry? (directory ++ [name]) = none) {entry : Entry}
    (new : ∀ location id, entry = .file id → disk.tree.find? location ≠ some (.file id))
    (contents : Dictionary Nat Content) {nextFile : Nat} (more : disk.nextFile ≤ nextFile)
    (fresh : ∀ id, entry = .file id → id < nextFile) :
    Coherent { disk.put (directory ++ [name]) entry with contents, nextFile } := by
  have hextends := Extends.put hnames.ne_nil absent entry
  have hplaced : ∀ location, disk.IsPlace location →
      IsPlace { disk.put (directory ++ [name]) entry with contents, nextFile } location :=
    fun location hp => ⟨hextends.kept _ _ hp.inside, hp.attached, hp.named⟩
  refine ⟨?_, ?_, ?_, fun id hid => Nat.lt_of_lt_of_le (h.held id hid) more,
    hextends.kept _ _ h.workingDirectory⟩
  · intro location other he
    rw [tree_put] at he
    split at he
    · next hl =>
      subst hl
      exact hplaced _ hnames.isPlace
    · exact hplaced _ (h.placed location other he)
  · intro location other id hl ho
    rw [tree_put] at hl ho
    split at hl
    · next hlocation =>
      split at ho
      · next hother => exact hlocation.symm.trans hother
      · cases hl
        exact absurd ho (new other id rfl)
    · split at ho
      · cases ho
        exact absurd hl (new location id rfl)
      · exact h.single location other id hl ho
  · intro location id hl
    rw [tree_put] at hl
    split at hl
    · cases hl
      exact fresh id rfl
    · exact Nat.lt_of_lt_of_le (h.fresh location id hl) more

theorem makeDirectory (h : disk.Coherent) {path : Path}
    (hm : disk.makeDirectory path = .ok disk') : disk'.Coherent := by
  obtain ⟨directory, name, hnames, ⟨habsent, hnew⟩ | ⟨entry, -, hexisting⟩⟩ := place_eq_ok hm
  · cases hnew
    refine h.put hnames habsent ?_ disk.contents (Nat.le_refl _) ?_
    · intro location id he
      cases he
    · intro id he
      cases he
  · cases hexisting

theorem addFile (h : disk.Coherent) {path : Path} {directory : Location} {name : Name}
    (hnames : disk.Names path directory name)
    (absent : disk.entry? (directory ++ [name]) = none) (content : Content) :
    Coherent (disk.addFile (directory ++ [name]) content) := by
  refine h.put hnames absent ?_ (disk.contents.insert disk.nextFile content) (Nat.le_succ _) ?_
  · intro location id hid hl
    cases hid
    exact Nat.lt_irrefl _ (h.fresh location _ hl)
  · intro id hid
    cases hid
    exact Nat.lt_succ_self _

theorem openTable (h : disk.Coherent) {id : Nat} (hid : id < disk.nextFile) (table : Table) :
    Coherent (disk.openTable id table).2 := by
  rw [Disk.openTable]
  split
  · exact h
  · refine h.setContents (disk.contents.insert id (.database table)) _ ?_
    intro other hother
    rcases List.mem_cons.mp hother with rfl | hother
    · exact hid
    · exact h.held other hother

theorem withStore (h : disk.Coherent) {α : Type} (id : Nat) (action : Store → α × Store) :
    Coherent (disk.withStore id action).2 :=
  h.setContents (disk.contents.insert id _) _ h.held

theorem close (h : disk.Coherent) (handle : Handle) : Coherent (disk.close handle) :=
  h.setContents disk.contents disk.allowance
    fun id hid => h.held id (List.mem_of_mem_erase hid)

theorem lt_nextFile (h : disk.Coherent) {location : Location} {id : Nat}
    (he : disk.entry? location = some (.file id)) : id < disk.nextFile := by
  rw [entry?_def] at he
  split at he
  · cases he
  · exact h.fresh location id he

theorem step (h : disk.Coherent) (hs : Step disk disk') : disk'.Coherent := by
  cases hs with
  | idle => exact h
  | directory hm => exact h.makeDirectory hm
  | file hnames habsent => exact h.addFile hnames habsent (.text [])
  | openTable table he => exact h.openTable (h.lt_nextFile he) table
  | genesisBlock => exact h.withStore _ _
  | configRecord => exact h.withStore _ _
  | close => exact h.close _

theorem makeDirectories (h : disk.Coherent) (path : Path) :
    Coherent (disk.makeDirectories path).2 := by
  rw [← makeDirectoriesStages_last]
  exact (makeDirectoriesStages_passes disk path).invariant h (fun _ _ hc hs => hc.step hs) _
    (last_mem disk _)

end Coherent
end Disk

/-- Whatever a run leaves behind makes sense. -/
theorem Instance.stages_coherent {disk : Disk} (h : disk.Coherent) (request : Request) :
    ∀ stage ∈ disk :: stages disk request, stage.Coherent :=
  (stages_passes disk request).invariant h fun _ _ hc hs => hc.step hs

end Provision

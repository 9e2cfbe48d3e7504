import Provision.Proofs.Provisioning

/-! What a run leaves in stores that may have been there before.

A store is set up at one place, and every file elsewhere is as it was, `Spares`. So what a run
makes of each store depends on what that store held at first and on no other one:
`setupStores_standing`. -/
namespace Provision

namespace Disk

variable {disk disk' : Disk} {place : Location}

/-- The table of the database at a place, and an empty one if there is no database. -/
def tableAt (disk : Disk) (place : Location) : Table :=
  match disk.entry? place with
  | some (.file id) => disk.table id
  | _ => []

theorem tableAt_empty (place : Location) : tableAt {} place = [] := by
  have hentry : entry? {} place = some .directory ∨ entry? {} place = none := by
    rw [entry?_def]
    split
    · exact .inl rfl
    · exact .inr rfl
  rcases hentry with he | he <;> rw [tableAt, he]

/-- A database that is there and that nobody has open. -/
def Offers (disk : Disk) (place : Location) (table : Table) : Prop :=
  ∃ id, disk.entry? place = some (.file id) ∧ disk.contents.find? id = some (.database table) ∧
    id ∉ disk.held

/-- Everything stays where it is, and the files elsewhere keep what they hold. -/
structure Spares (places : List Location) (disk disk' : Disk) : Prop
    extends Extends disk disk' where
  files : ∀ place ∉ places, ∀ id, disk'.entry? place = some (.file id) →
    disk.entry? place = some (.file id)
  contents : ∀ place ∉ places, ∀ id, disk.entry? place = some (.file id) →
    disk'.contents.find? id = disk.contents.find? id
  held : disk'.held = disk.held

namespace Spares

variable {places : List Location}

theorem refl (places : List Location) (disk : Disk) : Spares places disk disk where
  toExtends := .refl disk
  files := fun _ _ _ he => he
  contents := fun _ _ _ _ => rfl
  held := rfl

theorem ofDirectories (h : AddsDirectories disk disk') (places : List Location) :
    Spares places disk disk' where
  toExtends := h.toExtends
  files := fun place _ => h.files place
  contents := fun _ _ _ _ => by rw [h.contents]
  held := h.held

theorem trans {others : List Location} {disk'' : Disk} (h : Spares places disk disk')
    (h' : Spares others disk' disk'') : Spares (places ++ others) disk disk'' where
  toExtends := h.toExtends.trans h'.toExtends
  files := fun place hp id he => by
    rw [List.mem_append, not_or] at hp
    exact h.files place hp.1 id (h'.files place hp.2 id he)
  contents := fun place hp id he => by
    rw [List.mem_append, not_or] at hp
    rw [h'.contents place hp.2 id (h.kept _ _ he), h.contents place hp.1 id he]
  held := h'.held.trans h.held

/-- A database elsewhere holds what it held. -/
theorem tableAt (h : Spares places disk disk') (hp : place ∉ places) :
    disk'.tableAt place = disk.tableAt place := by
  rw [Disk.tableAt, Disk.tableAt]
  cases he : disk.entry? place with
  | some entry =>
    rw [h.kept place entry he]
    cases entry with
    | directory => rfl
    | file id =>
      show disk'.table id = disk.table id
      rw [Disk.table, Disk.table, h.contents place hp id he]
  | none =>
    cases he' : disk'.entry? place with
    | none => rfl
    | some entry =>
      cases entry with
      | directory => rfl
      | file id =>
        rw [h.files place hp id he'] at he
        cases he

theorem offers (h : Spares places disk disk') (hp : place ∉ places) {table : Table}
    (ho : disk.Offers place table) : disk'.Offers place table := by
  obtain ⟨id, hentry, hcontent, hfree⟩ := ho
  refine ⟨id, h.kept _ _ hentry, ?_, ?_⟩
  · rw [h.contents place hp id hentry]
    exact hcontent
  · rw [h.held]
    exact hfree

end Spares

theorem Coherent.single_entry (h : disk.Coherent) {other : Location} {id : Nat}
    (he : disk.entry? place = some (.file id)) (ho : disk.entry? other = some (.file id)) :
    place = other := by
  have hfind : ∀ location, disk.entry? location = some (.file id) →
      disk.tree.find? location = some (.file id) := by
    intro location hl
    rw [entry?_def] at hl
    split at hl
    · cases hl
    · exact hl
  exact h.single place other id (hfind place he) (hfind other ho)

/-- A disk with a file of its own at a place spares the others. -/
theorem Holds.spares {id : Nat} {content : Content} (h : Holds place id content disk disk')
    (coherent : disk'.Coherent) (held : disk'.held = disk.held) : Spares [place] disk disk' where
  toExtends := h.grows.toExtends
  files := fun other ho file he => by
    rcases h.grows.files other file he with he | ⟨rfl, -⟩
    · exact he
    · exact absurd (List.mem_singleton.mpr rfl) ho
  contents := fun other ho file he => by
    refine h.grows.contents file ?_
    rintro rfl
    exact ho (List.mem_singleton.mpr (coherent.single_entry (h.grows.kept _ _ he) h.entry))
  held := held

end Disk

namespace Instance

variable {disk after : Disk} {directory : Path} {parsed : ParsedGenesis} {cache : UInt64}

/-- What a run has made of a store: its path leads to a database that nobody has open, and that
database has become one with the genesis block and the merged configuration. -/
structure Stands (parsed : ParsedGenesis) (directory : Path) (before after : Disk) (store : Name) :
    Prop where
  located : after.locate (databasePath directory store) = .ok (storePlace directory store)
  turned : ∃ table, parsed.Turns (before.tableAt (storePlace directory store)) table ∧
    after.Offers (storePlace directory store) table

theorem setupStore_stands (absolute : Path.isAbsolute directory) (coherent : disk.Coherent)
    {store : Name} (plain : store.IsPlain)
    (ho : setupStore disk directory parsed cache store = (.ok (), after)) :
    Stands parsed directory disk after store ∧
      Disk.Spares [storePlace directory store] disk after := by
  obtain ⟨id, before, opened, written, hopened, hturns, hholds, hheld, hlocated⟩ :=
    setupStore_ok (follow_databasePath absolute plain) (fun _ he => coherent.lt_nextFile he) ho
  have hbefore : disk.tableAt (storePlace directory store) = before ∧ id ∉ disk.held := by
    rcases hopened.was with ⟨hentry, rfl, rfl⟩ | ⟨hentry, hfree, rfl⟩
    · refine ⟨by rw [Disk.tableAt, hentry], ?_⟩
      intro hid
      exact absurd (coherent.held _ hid) (Nat.lt_irrefl _)
    · exact ⟨by rw [Disk.tableAt, hentry], hfree⟩
  rw [← hheld] at hbefore
  refine ⟨⟨hlocated, written, ?_, id, hholds.entry, hholds.content, hbefore.2⟩,
    hholds.spares (setupStore_coherent coherent ho) hheld⟩
  rw [hbefore.1]
  exact hturns

/-- Every store that a run sets up stands at the end, whatever it held before. -/
theorem setupStores_stands (absolute : Path.isAbsolute directory) (coherent : disk.Coherent)
    {stores : List Name} (plain : ∀ store ∈ stores, store.IsPlain) (distinct : stores.Nodup)
    (h : setupStores disk directory parsed cache stores = (.ok (), after)) :
    after.Coherent ∧ Disk.Spares (stores.map (storePlace directory)) disk after ∧
      ∀ store ∈ stores, Stands parsed directory disk after store := by
  induction stores generalizing disk with
  | nil =>
    cases h
    exact ⟨coherent, .refl _ _, fun _ hs => (nomatch hs)⟩
  | cons store rest ih =>
    obtain ⟨hstore, hrest⟩ := List.nodup_cons.mp distinct
    have hother : ∀ other ∈ rest, storePlace directory other ≠ storePlace directory store :=
      fun other ho he => hstore (storePlace_injective he ▸ ho)
    rw [setupStores] at h
    rcases ho : setupStore disk directory parsed cache store with ⟨_ | _, between⟩
    · rw [ho] at h
      cases h
    rw [ho] at h
    obtain ⟨hstands, hspares⟩ :=
      setupStore_stands absolute coherent (plain store (List.mem_cons_self ..)) ho
    obtain ⟨hcoherent, hspares', hall⟩ := ih (setupStore_coherent coherent ho)
      (fun other hm => plain other (List.mem_cons_of_mem _ hm)) hrest h
    refine ⟨hcoherent, hspares.trans hspares', ?_⟩
    intro other hm
    -- The first store is spared by the others, and each of the others by the first one.
    rcases List.mem_cons.mp hm with rfl | hm
    · obtain ⟨hlocated, table, hturns, hoffers⟩ := hstands
      refine ⟨hspares'.toExtends.locate hlocated, table, hturns, hspares'.offers ?_ hoffers⟩
      intro hplace
      obtain ⟨later, hlater, he⟩ := List.mem_map.mp hplace
      exact hother later hlater he
    · obtain ⟨hlocated, table, hturns, hoffers⟩ := hall other hm
      refine ⟨hlocated, table, ?_, hoffers⟩
      rw [hspares.tableAt fun hplace => hother other hm (List.mem_singleton.mp hplace)] at hturns
      exact hturns

end Instance
end Provision

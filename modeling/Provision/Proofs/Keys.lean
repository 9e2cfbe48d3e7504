import Mathlib.Algebra.Group.Nat.Defs
import Provision.Store.Key

/-! The keys of a store can be told apart.

`decode?` reads a key back from its bytes: the length and the first byte tell what the record
is about, and the number of the block and its hash stand at fixed places. So no two keys have
the same bytes (`encode_injective`). -/
namespace Provision

/-! ### Numbers and hashes among bytes -/

namespace Bytes

theorem toNat_concat (bytes : Bytes) (byte : UInt8) :
    toNat (bytes ++ [byte]) = toNat bytes * 256 + byte.toNat := by
  simp only [toNat, List.foldl_append, List.foldl_cons, List.foldl_nil]

/-- Of a number that is too large the last bytes are kept. -/
theorem toNat_bigEndian (width value : Nat) :
    toNat (bigEndian width value) = value % 256 ^ width := by
  induction width generalizing value with
  | zero => simp [bigEndian, toNat, Nat.mod_one]
  | succ width ih =>
    have hbyte : (UInt8.ofNat value).toNat = value % 256 := by simp
    rw [bigEndian, toNat_concat, ih, hbyte, Nat.pow_succ, Nat.mul_comm (256 ^ width) 256,
      Nat.mod_mul]
    omega

end Bytes

theorem Fixed.front_append {size : Nat} (word : Fixed size) (rest : Bytes) :
    Fixed.front (word.bytes ++ rest) = word := by
  apply Fixed.ext
  have h := word.length_eq
  simp [front, ← h]

namespace Key

/-! ### Reading a key back -/

@[simp] theorem ascii_length (text : List Char) : (ascii text).length = text.length :=
  List.length_map ..

@[simp] theorem blockNumber_length (block : UInt64) : (blockNumber block).length = 8 :=
  Bytes.bigEndian_length ..

@[simp] theorem toNat_blockNumber (block : UInt64) : (blockNumber block).toNat = block.toNat := by
  rw [blockNumber, Bytes.toNat_bigEndian]
  exact Nat.mod_eq_of_lt block.toNat_lt

/-- The number of a block at the second byte. -/
def blockIn (bytes : Bytes) : UInt64 := UInt64.ofNat (Bytes.toNat ((bytes.drop 1).take 8))

/-- The hash after the first bytes. -/
def hashIn (skipped : Nat) (bytes : Bytes) : Hash := Fixed.front (bytes.drop skipped)

/-- The only key that can have these bytes, by their length and the first of them. -/
def guess? (bytes : Bytes) : Option Key :=
  match bytes.length, bytes.head? with
  | 8, _ => some .headFast
  | 9, _ => some .headBlock
  | 10, some 0x68 => some (.canonicalHash (blockIn bytes))
  | 10, _ => some .headHeader
  | 33, _ => some (.numberOf (hashIn 1 bytes))
  | 41, some 0x68 => some (.header (blockIn bytes) (hashIn 9 bytes))
  | 41, some 0x62 => some (.body (blockIn bytes) (hashIn 9 bytes))
  | 41, _ => some (.receipts (blockIn bytes) (hashIn 9 bytes))
  | 42, _ => some (.totalDifficulty (blockIn bytes) (hashIn 9 bytes))
  | 48, _ => some (.config (hashIn 16 bytes))
  | _, _ => none

/-- The key that bytes are, if they are one. -/
def decode? (bytes : Bytes) : Option Key :=
  (guess? bytes).filter fun key => key.encode = bytes

theorem blockIn_mark (mark : Char) (block : UInt64) (rest : Bytes) :
    blockIn (ascii [mark] ++ blockNumber block ++ rest) = block := by
  have htake : (blockNumber block ++ rest).take 8 = blockNumber block := by
    rw [← blockNumber_length block]
    exact List.take_left
  simp only [blockIn, ascii, List.map_cons, List.map_nil, List.cons_append, List.nil_append,
    List.drop_succ_cons, List.drop_zero, htake, toNat_blockNumber]
  exact UInt64.ofNat_toNat

theorem hashIn_append {skipped : Nat} {front : Bytes} (h : front.length = skipped) (hash : Hash)
    (rest : Bytes) : hashIn skipped (front ++ hash.bytes ++ rest) = hash := by
  rw [hashIn, List.append_assoc, ← h, List.drop_left]
  exact hash.front_append rest

/-- A mark of one character, the number of a block and its hash. -/
def blockKey (mark : Char) (block : UInt64) (hash : Hash) : Bytes :=
  ascii [mark] ++ blockNumber block ++ hash.bytes

theorem blockKey_length (mark : Char) (block : UInt64) (hash : Hash) :
    (blockKey mark block hash).length = 41 := by
  simp [blockKey, hash.length_eq]

theorem blockKey_head (mark : Char) (block : UInt64) (hash : Hash) :
    (blockKey mark block hash).head? = some (UInt8.ofNat mark.toNat) := rfl

theorem blockIn_blockKey (mark : Char) (block : UInt64) (hash : Hash) :
    blockIn (blockKey mark block hash) = block :=
  blockIn_mark mark block hash.bytes

theorem hashIn_blockKey (mark : Char) (block : UInt64) (hash : Hash) (rest : Bytes) :
    hashIn 9 (blockKey mark block hash ++ rest) = hash :=
  hashIn_append (by simp) hash rest

theorem guess?_blockKey (mark : Char) (block : UInt64) (hash : Hash) :
    guess? (blockKey mark block hash) =
      if UInt8.ofNat mark.toNat = 0x68 then some (.header block hash)
      else if UInt8.ofNat mark.toNat = 0x62 then some (.body block hash)
      else some (.receipts block hash) := by
  have hhash := hashIn_blockKey mark block hash []
  rw [List.append_nil] at hhash
  simp only [guess?, blockKey_length, blockKey_head, blockIn_blockKey, hhash]
  by_cases h : UInt8.ofNat mark.toNat = 0x68
  · simp [h]
  · by_cases hb : UInt8.ofNat mark.toNat = 0x62
    · simp [hb]
    · simp [h, hb]

theorem guess?_encode (key : Key) : guess? key.encode = some key := by
  cases key with
  | header block hash => exact guess?_blockKey 'h' block hash
  | body block hash => exact guess?_blockKey 'b' block hash
  | receipts block hash => exact guess?_blockKey 'r' block hash
  | totalDifficulty block hash =>
    have hblock : blockIn (encode (.totalDifficulty block hash)) = block := by
      rw [encode, List.append_assoc]
      exact blockIn_mark 'h' block _
    have hhash : hashIn 9 (encode (.totalDifficulty block hash)) = hash :=
      hashIn_blockKey 'h' block hash (ascii ['t'])
    have hlength : (encode (.totalDifficulty block hash)).length = 42 := by
      simp [encode, hash.length_eq]
    simp only [guess?, hlength, hblock, hhash]
  | canonicalHash block =>
    have hblock : blockIn (encode (.canonicalHash block)) = block :=
      blockIn_mark 'h' block (ascii ['n'])
    have hhead : (encode (.canonicalHash block)).head? = some 0x68 := rfl
    have hlength : (encode (.canonicalHash block)).length = 10 := by simp [encode]
    simp only [guess?, hlength, hhead, hblock]
  | numberOf hash =>
    have hhash : hashIn 1 (encode (.numberOf hash)) = hash := by
      rw [encode, ← List.append_nil (ascii ['H'] ++ hash.bytes)]
      exact hashIn_append (by rfl) hash []
    have hlength : (encode (.numberOf hash)).length = 33 := by simp [encode, hash.length_eq]
    simp only [guess?, hlength, hhash]
  | config hash =>
    have hhash : hashIn 16 (encode (.config hash)) = hash := by
      rw [encode, ← List.append_nil (configMark ++ hash.bytes)]
      exact hashIn_append (by rfl) hash []
    have hlength : (encode (.config hash)).length = 48 := by
      simp [encode, configMark, hash.length_eq]
    simp only [guess?, hlength, hhash]
  | headHeader => rfl
  | headBlock => rfl
  | headFast => rfl

theorem decode?_eq_some_iff {bytes : Bytes} {key : Key} :
    decode? bytes = some key ↔ key.encode = bytes := by
  rw [decode?, Option.filter_eq_some_iff, decide_eq_true_iff]
  constructor
  · exact And.right
  · rintro rfl
    exact ⟨guess?_encode key, rfl⟩

/-- No two keys have the same bytes. -/
theorem encode_injective : Function.Injective encode := by
  intro a b h
  have ha := decode?_eq_some_iff.mpr h
  rw [decode?_eq_some_iff.mpr rfl] at ha
  exact (Option.some.inj ha).symm

end Key
end Provision

import Provision.Bytes.Basic

/-! Text as bytes, in UTF-8.

`decode?_encode`: what was written as text reads back as that text. -/
namespace Provision.Text.Utf8

def encode (text : String) : Bytes :=
  text.toByteArray.data.toList

def ofChars (text : List Char) : Bytes :=
  encode (String.ofList text)

/-- Refuses ill-formed bytes. -/
def decode? (bytes : Bytes) : Option String :=
  String.fromUTF8? ⟨bytes.toArray⟩

/-- How many bytes the characters take. -/
def length (chars : List Char) : Nat :=
  (chars.map Char.utf8Size).foldr (· + ·) 0

/-- The bytes of the characters, each byte shown as the Latin-1 character of its number. -/
def latin (chars : List Char) : List Char :=
  (chars.flatMap String.utf8EncodeChar).map fun byte => Char.ofNat byte.toNat

theorem decode?_encode (text : String) : decode? (encode text) = some text := by
  have h : (⟨(encode text).toArray⟩ : ByteArray) = text.toByteArray := by
    simp [encode]
  rw [decode?, h, String.fromUTF8?]
  simp [String.fromUTF8, String.isValidUTF8]

end Provision.Text.Utf8

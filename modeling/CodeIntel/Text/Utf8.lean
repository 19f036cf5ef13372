/-! Bytes as text. -/

namespace CodeIntel.Text

/-- How many bytes from offset `start` on are whole characters in UTF-8, looking at no more than
`most` characters. -/
def wholeCharacters (bytes : ByteArray) (start : Nat) : (most : Nat) → Nat
  | 0 => 0
  | most + 1 =>
    match bytes.utf8DecodeChar? start with
    | some c => c.utf8Size + wholeCharacters bytes (start + c.utf8Size) most
    | none => 0

/-- The length of the longest front part that is UTF-8. A character takes at least a byte. -/
def validLength (bytes : ByteArray) : Nat := wholeCharacters bytes 0 bytes.size

/-- The text of some bytes, or the offset of the first that does not belong to a character. -/
def ofBytes (bytes : ByteArray) : Except Nat String :=
  match String.fromUTF8? bytes with
  | some text => .ok text
  | none => .error (validLength bytes)

/-- The bytes of a text are read back as that text. -/
theorem ofBytes_toUTF8 (text : String) : ofBytes text.toUTF8 = .ok text := by
  simp [ofBytes, String.fromUTF8?, String.toUTF8, text.isValidUTF8, String.fromUTF8]

end CodeIntel.Text

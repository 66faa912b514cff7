import TerraformTrace.Text.Word

/-!
# TerraformTrace.Text.Encoding

Bytes as text. What reads bytes is a *codec*, and which codecs there are is not for this
library to say: whoever reads files is handed the codecs by name (`Codecs`). A codec gives
a text, or finds that the bytes are not text of its encoding, or gives up for a reason of
its own.

The codecs that the program itself brings (`Codecs.standard`) are UTF-8 (strict: no
surrogates, no overlong forms, nothing above U+10FFFF), UTF-8 with an optional byte order
mark, UTF-16 with one and in either byte order, Latin-1, Windows-1252 and ASCII. Case and
punctuation of a name do not matter. Text in UTF-16 that does not start with a byte order
mark is what a codec gives up over.

Text read from a file has its line ends unified: a carriage return, with or without a
line feed after it, becomes a line feed.
-/

namespace TerraformTrace

/-- What a file holds. -/
abbrev Bytes := List UInt8

/-- Why a codec gives no text. -/
inductive DecodeError
  /-- The bytes are not text of the encoding. -/
  | undecodable
  /-- The codec gives up over something else. -/
  | refused (reason : Text)
deriving DecidableEq, Repr

/-- Reads the bytes of a file as text. -/
abbrev Codec := Bytes → Except DecodeError Text

/-- The codecs of encodings, by name. A name may be that of no encoding. -/
abbrev Codecs := Text → Option Codec

/-- An encoding that the program knows. -/
inductive Encoding
  | utf8
  /-- UTF-8 without the byte order mark a file may start with. -/
  | utf8Mark
  /-- UTF-16 in the byte order that the mark at the start says. -/
  | utf16
  /-- UTF-16 with the low byte of a unit first. -/
  | utf16Little
  /-- UTF-16 with the high byte of a unit first. -/
  | utf16Big
  | latin1
  | windows1252
  | ascii
deriving DecidableEq, Repr

namespace Encoding

/-! ### Names -/

/-- The words of an encoding's name in lower case, with underscores between them. -/
def canonicalName (name : Text) : Text :=
  Text.join ['_'] ((Text.splitAt ' ' (name.map fun c =>
    if c.isAlphanum || c = '.' then c.toLower else ' ')).filter (!·.isEmpty))

/-- The names of each encoding. -/
def names : List (Encoding × List String) :=
  [(.utf8, ["utf_8", "utf8", "u8", "utf", "utf8_ucs2", "utf8_ucs4", "cp65001"]),
    (.utf8Mark, ["utf_8_sig"]),
    (.utf16, ["utf_16", "utf16", "u16"]),
    (.utf16Little, ["utf_16_le", "utf_16le", "unicodelittleunmarked"]),
    (.utf16Big, ["utf_16_be", "utf_16be", "unicodebigunmarked"]),
    (.latin1, ["latin_1", "latin1", "latin", "l1", "iso_8859_1", "iso8859_1", "iso8859", "8859",
      "cp819", "ibm819", "csisolatin1", "iso_8859_1_1987", "iso_ir_100"]),
    (.windows1252, ["cp1252", "1252", "windows_1252"]),
    (.ascii, ["ascii", "us_ascii", "us", "646", "ansi_x3.4_1968", "ansi_x3_4_1968",
      "ansi_x3.4_1986", "cp367", "csascii", "ibm367", "iso646_us", "iso_646.irv_1991",
      "iso_ir_6"])]

/-- The encoding with a name. -/
def ofName? (name : Text) : Option Encoding :=
  (names.find? fun entry => entry.2.any fun known => known.toList = canonicalName name).map (·.1)

/-! ### Decoding -/

/-- Whether a byte continues a multi-byte character. -/
def isTail (b : UInt8) : Bool := 0x80 ≤ b && b ≤ 0xBF

/-- The low six bits of a continuation byte. -/
def tailBits (b : UInt8) : Nat := b.toNat % 64

/-- The character at the start of UTF-8 bytes, and the number of its bytes. -/
def utf8Char? : Bytes → Option (Char × Nat)
  | [] => none
  | a :: rest =>
    if a < 0x80 then some (Char.ofNat a.toNat, 1)
    else if 0xC2 ≤ a && a ≤ 0xDF then
      match rest with
      | b :: _ =>
        if isTail b then some (Char.ofNat (a.toNat % 32 * 64 + tailBits b), 2) else none
      | _ => none
    else if 0xE0 ≤ a && a ≤ 0xEF then
      match rest with
      | b :: c :: _ =>
        let least : UInt8 := if a = 0xE0 then 0xA0 else 0x80
        let most : UInt8 := if a = 0xED then 0x9F else 0xBF
        if least ≤ b && b ≤ most && isTail c then
          some (Char.ofNat ((a.toNat % 16 * 64 + tailBits b) * 64 + tailBits c), 3)
        else none
      | _ => none
    else if 0xF0 ≤ a && a ≤ 0xF4 then
      match rest with
      | b :: c :: d :: _ =>
        let least : UInt8 := if a = 0xF0 then 0x90 else 0x80
        let most : UInt8 := if a = 0xF4 then 0x8F else 0xBF
        if least ≤ b && b ≤ most && isTail c && isTail d then
          let n := ((a.toNat % 8 * 64 + tailBits b) * 64 + tailBits c) * 64 + tailBits d
          some (Char.ofNat n, 4)
        else none
      | _ => none
    else none

/-- Reads UTF-8 after passing over `skip` bytes of a character already read. -/
def utf8Text? : (skip : Nat) → Bytes → Option Text
  | _, [] => some []
  | skip + 1, _ :: rest => utf8Text? skip rest
  | 0, a :: rest => do
    let (c, size) ← utf8Char? (a :: rest)
    let text ← utf8Text? (size - 1) rest
    return c :: text

/-- The byte order mark in UTF-8. -/
def mark : Bytes := [0xEF, 0xBB, 0xBF]

/-- The sixteen-bit units of bytes, if the last one is whole. -/
def units? (highFirst : Bool) : Bytes → Option (List Nat)
  | [] => some []
  | [_] => none
  | a :: b :: rest => do
    let unit := if highFirst then a.toNat * 256 + b.toNat else b.toNat * 256 + a.toNat
    return unit :: (← units? highFirst rest)

/-- Reads units of UTF-16. Surrogates stand in pairs, a high one before a low one. -/
def unitsText? : List Nat → Option Text
  | [] => some []
  | [unit] => if 0xD800 ≤ unit && unit < 0xE000 then none else some [Char.ofNat unit]
  | unit :: next :: rest =>
    if 0xD800 ≤ unit && unit < 0xDC00 then
      if 0xDC00 ≤ next && next < 0xE000 then do
        let n := 0x10000 + (unit - 0xD800) * 0x400 + (next - 0xDC00)
        return Char.ofNat n :: (← unitsText? rest)
      else none
    else if 0xDC00 ≤ unit && unit < 0xE000 then none
    else return Char.ofNat unit :: (← unitsText? (next :: rest))

/-- Reads UTF-16 in a byte order. -/
def utf16Text? (highFirst : Bool) (bytes : Bytes) : Option Text :=
  units? highFirst bytes >>= unitsText?

/-- The characters of Windows-1252 from 0x80 to 0x9F; zero where there is none. -/
def windows1252Table : List Nat :=
  [0x20AC, 0, 0x201A, 0x192, 0x201E, 0x2026, 0x2020, 0x2021, 0x2C6, 0x2030, 0x160, 0x2039, 0x152,
    0, 0x17D, 0, 0, 0x2018, 0x2019, 0x201C, 0x201D, 0x2022, 0x2013, 0x2014, 0x2DC, 0x2122, 0x161,
    0x203A, 0x153, 0, 0x17E, 0x178]

/-- The character of a byte in Windows-1252. -/
def windows1252Char? (b : UInt8) : Option Char :=
  if b < 0x80 || 0xA0 ≤ b then some (Char.ofNat b.toNat)
  else
    match windows1252Table.getD (b.toNat - 0x80) 0 with
    | 0 => none
    | n => some (Char.ofNat n)

/-- Reads bytes as text, if they are text of the encoding. Where a byte order mark of
UTF-8 may stand, the beginning of one is passed over as well. -/
def decode? : Encoding → Bytes → Option Text
  | .utf8, bytes => utf8Text? 0 bytes
  | .utf8Mark, bytes =>
    if bytes.isPrefixOf mark then some []
    else utf8Text? 0 (if mark.isPrefixOf bytes then bytes.drop mark.length else bytes)
  | .utf16, [] => some []
  | .utf16, 0xFF :: 0xFE :: rest => utf16Text? false rest
  | .utf16, 0xFE :: 0xFF :: rest => utf16Text? true rest
  | .utf16, _ => none
  | .utf16Little, bytes => utf16Text? false bytes
  | .utf16Big, bytes => utf16Text? true bytes
  | .latin1, bytes => some (bytes.map fun b => Char.ofNat b.toNat)
  | .windows1252, bytes => bytes.mapM windows1252Char?
  | .ascii, bytes =>
    if bytes.all (· < 0x80) then some (bytes.map fun b => Char.ofNat b.toNat) else none

/-- Whether bytes would be text in UTF-16 if they said in which byte order. -/
def lacksMark (bytes : Bytes) : Bool :=
  bytes.take 2 ≠ [0xFF, 0xFE] && bytes.take 2 ≠ [0xFE, 0xFF] && (utf16Text? false bytes).isSome

/-- The codec of an encoding. -/
def codec (encoding : Encoding) : Codec := fun bytes =>
  match encoding.decode? bytes with
  | some text => .ok text
  | none =>
    if encoding = .utf16 && lacksMark bytes then
      .error (.refused "UTF-16 stream does not start with BOM".toList)
    else .error .undecodable

end Encoding

/-- The codecs of the encodings that the program knows. -/
def Codecs.standard : Codecs := fun name => (Encoding.ofName? name).map Encoding.codec

/-- Writes every line end as a line feed. -/
def Text.unifyLineEnds : Text → Text
  | '\r' :: '\n' :: rest => '\n' :: unifyLineEnds rest
  | '\r' :: rest => '\n' :: unifyLineEnds rest
  | c :: rest => c :: unifyLineEnds rest
  | [] => []

end TerraformTrace

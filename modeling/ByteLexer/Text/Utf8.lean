/-! # UTF-8 text

`encode` writes the UTF-8 form of a text. `decode` reads any byte list: each longest part of an
ill-formed sequence that could still have begun a character becomes one U+FFFD. -/
namespace ByteLexer.Utf8

def encodeChars (text : List Char) : List UInt8 := text.flatMap String.utf8EncodeChar

def encode (text : String) : List UInt8 := encodeChars text.toList

@[simp] theorem encodeChars_nil : encodeChars [] = [] := rfl

@[simp] theorem encodeChars_cons (c : Char) (text : List Char) :
    encodeChars (c :: text) = String.utf8EncodeChar c ++ encodeChars text := rfl

@[simp] theorem encodeChars_append (a b : List Char) :
    encodeChars (a ++ b) = encodeChars a ++ encodeChars b := by simp [encodeChars]

@[simp] theorem encode_empty : encode "" = [] := rfl

theorem encode_append (a b : String) : encode (a ++ b) = encode a ++ encode b := by
  rw [encode, String.toList_append, encodeChars_append, encode, encode]

/-- A character that has begun: the next byte must lie in `low .. high`, and `left` bytes follow
that one. `value` holds the bits read so far. -/
structure Sequence where
  left : Nat
  value : Nat
  low : Nat
  high : Nat
  deriving DecidableEq

inductive Opening where
  | char (c : Char)
  | sequence (s : Sequence)
  | invalid
  deriving DecidableEq

/-- Second bytes are narrowed after E0 and F0 (no overlong form), ED (no surrogate) and F4
(nothing above U+10FFFF). -/
def opening (byte : UInt8) : Opening :=
  let b := byte.toNat
  if b < 0x80 then .char (Char.ofNat b)
  else if b < 0xC2 then .invalid
  else if b < 0xE0 then .sequence ⟨0, b - 0xC0, 0x80, 0xBF⟩
  else if b = 0xE0 then .sequence ⟨1, 0, 0xA0, 0xBF⟩
  else if b = 0xED then .sequence ⟨1, 0xD, 0x80, 0x9F⟩
  else if b < 0xF0 then .sequence ⟨1, b - 0xE0, 0x80, 0xBF⟩
  else if b = 0xF0 then .sequence ⟨2, 0, 0x90, 0xBF⟩
  else if b < 0xF4 then .sequence ⟨2, b - 0xF0, 0x80, 0xBF⟩
  else if b = 0xF4 then .sequence ⟨2, 4, 0x80, 0x8F⟩
  else .invalid

/-- Stands for bytes that form no character. -/
def replacement : Char := Char.ofNat 0xFFFD

/-- A decoder between two bytes: the characters read, last first, and the one that has begun. -/
structure Decoder where
  read : List Char
  begun : Option Sequence
  deriving DecidableEq

namespace Decoder

def empty : Decoder := ⟨[], none⟩

def start (read : List Char) (byte : UInt8) : Decoder :=
  match opening byte with
  | .char c => ⟨c :: read, none⟩
  | .sequence s => ⟨read, some s⟩
  | .invalid => ⟨replacement :: read, none⟩

/-- Reads one byte. A byte that cannot continue the character that has begun ends it as ill-formed
and is itself read as a beginning. -/
def step (d : Decoder) (byte : UInt8) : Decoder :=
  match d.begun with
  | none => start d.read byte
  | some s =>
    if s.low ≤ byte.toNat ∧ byte.toNat ≤ s.high then
      let value := s.value * 64 + byte.toNat % 64
      match s.left with
      | 0 => ⟨Char.ofNat value :: d.read, none⟩
      | left + 1 => ⟨d.read, some ⟨left, value, 0x80, 0xBF⟩⟩
    else start (replacement :: d.read) byte

def finish (d : Decoder) : List Char :=
  match d.begun with
  | none => d.read.reverse
  | some _ => (replacement :: d.read).reverse

end Decoder

def decodeChars (bytes : List UInt8) : List Char := (bytes.foldl Decoder.step .empty).finish

def decode (bytes : List UInt8) : String := String.ofList (decodeChars bytes)

theorem decode_nil : decode [] = "" := rfl

@[simp] theorem toList_decode (bytes : List UInt8) : (decode bytes).toList = decodeChars bytes := by
  simp [decode]

end ByteLexer.Utf8

import ByteLexer.Scan.ByteClass
import ByteLexer.Text.Utf8
import ByteLexer.Token.Basic

/-! # What the first byte of a token announces

The first byte of a token fixes which bytes after it belong to the token (`reach`) and which token
they make (`token`). -/
namespace ByteLexer

/-- A mark is a token of one byte; a pair is one too, and another with an equals sign behind it. -/
inductive Lead where
  | mark (kind : Kind)
  | pair (alone joined : Kind)
  | comment
  | word
  | number
  deriving DecidableEq

namespace Lead

def marks : List (UInt8 × Kind) :=
  [(0x2B, .opPlus), (0x2D, .opMinus), (0x2A, .opMult), (0x2F, .opDiv), (0x25, .opMod),
    (0x26, .opAnd), (0x7C, .opOr), (0x3B, .semicolon), (0x3A, .colon), (0x2C, .comma),
    (0x28, .lparen), (0x29, .rparen), (0x7B, .lbrace), (0x7D, .rbrace),
    (0x5B, .lbracket), (0x5D, .rbracket)]

def pairs : List (UInt8 × Kind × Kind) :=
  [(0x3E, .opGt, .opGe), (0x3D, .assign, .opEq), (0x21, .opNot, .opNe), (0x3C, .opLt, .opLe)]

/-- What a byte announces; `none` if no token begins with it. -/
def ofByte? (b : UInt8) : Option Lead :=
  if let some kind := marks.lookup b then some (.mark kind)
  else if let some (alone, joined) := pairs.lookup b then some (.pair alone joined)
  else if b = commentMark then some .comment
  else if isWordByte b then some .word
  else if isDigit b then some .number
  else none

def ofInt? (n : Int) : Option Lead :=
  if 0 ≤ n ∧ n < 256 then ofByte? (UInt8.ofNat n.toNat) else none

/-- How many bytes a number goes on: digits, then a dot with any further digits. -/
def numberReach (after : List UInt8) : Nat :=
  let whole := (after.takeWhile isDigit).length
  match after.drop whole with
  | b :: rest => if b = dot then whole + 1 + (rest.takeWhile isDigit).length else whole
  | [] => whole

/-- How many of the bytes after the first one belong to the token. -/
def reach (lead : Lead) (after : List UInt8) : Nat :=
  match lead with
  | mark _ => 0
  | pair _ _ => if after.head? = some equals then 1 else 0
  | comment => (after.takeWhile (· ≠ newline)).length
  | word => (after.takeWhile isWordByte).length
  | number => numberReach after

def wordToken (text : String) : Token :=
  match Kind.keyword? text with
  | some kind => .unit kind
  | none => .payload .identifier text

/-- The token of a lead that reaches over `extra` further bytes, where `span` are all its bytes. -/
def token (lead : Lead) (extra : Nat) (span : List UInt8) : Token :=
  match lead with
  | mark kind => .unit kind
  | pair alone joined => .unit (if extra = 0 then alone else joined)
  | comment => .payload .comment (Utf8.decode span)
  | word => wordToken (Utf8.decode span)
  | number => .payload .numLiteral (Utf8.decode span)

end Lead
end ByteLexer

import ByteLexer.Scan.ByteClass
import ByteLexer.Text.Utf8
import ByteLexer.Token.Basic

/-! # The grammar of tokens

Which byte lists are lexemes, and which token each of them denotes, said without a scanner. A token
of a source is denoted by the longest lexeme that stands there. -/
namespace ByteLexer

def IsWord (bytes : List UInt8) : Prop := bytes ≠ [] ∧ ∀ b ∈ bytes, isWordByte b = true

/-- A number is one digit or more, then nothing or a dot with any digits. -/
def IsNumber (bytes : List UInt8) : Prop :=
  ∃ whole fraction, bytes = whole ++ fraction ∧ whole ≠ [] ∧ (∀ b ∈ whole, isDigit b = true) ∧
    (fraction = [] ∨ ∃ digits, fraction = dot :: digits ∧ ∀ b ∈ digits, isDigit b = true)

def IsComment (bytes : List UInt8) : Prop :=
  ∃ body, bytes = commentMark :: body ∧ newline ∉ body

def IsSymbol (bytes : List UInt8) : Prop :=
  ∃ (kind : Kind) (spelling : String),
    (kind.family? = some .operator ∨ kind.family? = some .delimiter) ∧
    kind.spelling? = some spelling ∧ bytes = Utf8.encode spelling

def IsLexeme (bytes : List UInt8) : Prop :=
  IsSymbol bytes ∨ IsWord bytes ∨ IsNumber bytes ∨ IsComment bytes

/-- That `lexeme` is the longest lexeme at the front of `source`. -/
def LongestLexeme (source lexeme : List UInt8) : Prop :=
  IsLexeme lexeme ∧ lexeme <+: source ∧
    ∀ other, IsLexeme other → other <+: source → other.length ≤ lexeme.length

/-- The token that a lexeme denotes. -/
inductive Denotes : List UInt8 → Token → Prop where
  | fixed (kind : Kind) (spelling : String) (hfamily : kind.family? ≠ none)
      (hspelling : kind.spelling? = some spelling) : Denotes (Utf8.encode spelling) (.unit kind)
  | identifier (bytes : List UInt8) (hword : IsWord bytes)
      (hkeyword : Kind.keyword? (Utf8.decode bytes) = none) :
      Denotes bytes (.payload .identifier (Utf8.decode bytes))
  | number (bytes : List UInt8) (hnumber : IsNumber bytes) :
      Denotes bytes (.payload .numLiteral (Utf8.decode bytes))
  | comment (bytes : List UInt8) (hcomment : IsComment bytes) :
      Denotes bytes (.payload .comment (Utf8.decode bytes))

namespace Token

/-- The tokens that sources are made of: unit tokens of the three families, identifiers that are no
keyword, numbers, and comments of one line. -/
inductive WellFormed : Token → Prop where
  | fixed (kind : Kind) (hfamily : kind.family? ≠ none) : WellFormed (.unit kind)
  | identifier (text : String) (hword : IsWord (Utf8.encode text))
      (hkeyword : Kind.keyword? text = none) : WellFormed (.payload .identifier text)
  | number (text : String) (hnumber : IsNumber (Utf8.encode text)) :
      WellFormed (.payload .numLiteral text)
  | comment (body : List Char) (hline : '\n' ∉ body) :
      WellFormed (.payload .comment (String.ofList ('?' :: body)))

def isWord (t : Token) : Bool := t.kind.family? = some .keyword || t.kind = .identifier

/-- Whether the lexemes of two tokens run together if nothing stands between them. -/
def fuses (t u : Token) : Bool :=
  t.isWord && u.isWord
    || t.kind = .numLiteral && u.kind = .numLiteral
    || [Kind.opGt, .assign, .opNot, .opLt].contains t.kind && [Kind.assign, .opEq].contains u.kind

def isWordChar (c : Char) : Bool := c.isAlpha || c == '_'

def isNumeral (text : List Char) : Bool :=
  text.takeWhile Char.isDigit != [] && match text.dropWhile Char.isDigit with
    | [] => true
    | c :: places => c == '.' && places.all Char.isDigit

/-- Whether a scanner can give the token at all: a unit token of one of the three families, an
identifier that is no keyword, a number, or a comment of one line. -/
def isScannable (t : Token) : Bool :=
  match t.kind, t.text with
  | .identifier, some text =>
    text != "" && text.toList.all isWordChar && (Kind.keyword? text).isNone
  | .numLiteral, some text => isNumeral text.toList
  | .comment, some text => text.toList.head? == some '?' && !text.toList.contains '\n'
  | kind, none => kind.family?.isSome
  | _, some _ => false

end Token
end ByteLexer

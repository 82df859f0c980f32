import ByteLexer.Text.Quoted

/-! # Kinds of token

The kinds, their names, numbers and fixed spellings. -/
namespace ByteLexer

/-- What a token is. Kinds are numbered from one in this order. -/
inductive Kind where
  | kwLet | kwFn | kwVoid | kwTrue | kwFalse | kwIf | kwElse | kwWhile | kwReturn | kwBreak
  | numLiteral | strLiteral
  | opPlus | opMinus | opMult | opDiv | opMod | opAnd | opOr | opNot
  | opGt | opGe | opEq | opNe | opLt | opLe
  | semicolon | colon | comma | assign
  | lparen | rparen | lbrace | rbrace | lbracket | rbracket
  | identifier | comment | eof
  deriving DecidableEq

namespace Kind

def all : List Kind :=
  [kwLet, kwFn, kwVoid, kwTrue, kwFalse, kwIf, kwElse, kwWhile, kwReturn, kwBreak,
    numLiteral, strLiteral,
    opPlus, opMinus, opMult, opDiv, opMod, opAnd, opOr, opNot,
    opGt, opGe, opEq, opNe, opLt, opLe,
    semicolon, colon, comma, assign,
    lparen, rparen, lbrace, rbrace, lbracket, rbracket,
    identifier, comment, eof]

theorem mem_all (k : Kind) : k ∈ all := by cases k <;> decide

def name : Kind → String
  | kwLet => "KwLet"
  | kwFn => "KwFn"
  | kwVoid => "KwVoid"
  | kwTrue => "KwTrue"
  | kwFalse => "KwFalse"
  | kwIf => "KwIf"
  | kwElse => "KwElse"
  | kwWhile => "KwWhile"
  | kwReturn => "KwReturn"
  | kwBreak => "KwBreak"
  | numLiteral => "NumLiteral"
  | strLiteral => "StrLiteral"
  | opPlus => "OpPlus"
  | opMinus => "OpMinus"
  | opMult => "OpMult"
  | opDiv => "OpDiv"
  | opMod => "OpMod"
  | opAnd => "OpAnd"
  | opOr => "OpOr"
  | opNot => "OpNot"
  | opGt => "OpGt"
  | opGe => "OpGe"
  | opEq => "OpEq"
  | opNe => "OpNe"
  | opLt => "OpLt"
  | opLe => "OpLe"
  | semicolon => "SemiColon"
  | colon => "Colon"
  | comma => "Comma"
  | assign => "Assignment"
  | lparen => "LParen"
  | rparen => "RParen"
  | lbrace => "LSquirly"
  | rbrace => "RSquirly"
  | lbracket => "LBracket"
  | rbracket => "RBracket"
  | identifier => "Identifier"
  | comment => "Comment"
  | eof => "Eof"

/-- The fixed spelling, or `none` for a kind whose tokens carry their own text. -/
def spelling? : Kind → Option String
  | kwLet => some "let"
  | kwFn => some "fn"
  | kwVoid => some "void"
  | kwTrue => some "true"
  | kwFalse => some "false"
  | kwIf => some "if"
  | kwElse => some "else"
  | kwWhile => some "while"
  | kwReturn => some "return"
  | kwBreak => some "break"
  | opPlus => some "+"
  | opMinus => some "-"
  | opMult => some "*"
  | opDiv => some "/"
  | opMod => some "%"
  | opAnd => some "&"
  | opOr => some "|"
  | opNot => some "!"
  | opGt => some ">"
  | opGe => some ">="
  | opEq => some "=="
  | opNe => some "!="
  | opLt => some "<"
  | opLe => some "<="
  | semicolon => some ";"
  | colon => some ":"
  | comma => some ","
  | assign => some "="
  | lparen => some "("
  | rparen => some ")"
  | lbrace => some "\x7b"
  | rbrace => some "\x7d"
  | lbracket => some "["
  | rbracket => some "]"
  | eof => some ""
  | numLiteral | strLiteral | identifier | comment => none

inductive Family where
  | keyword | operator | delimiter
  deriving DecidableEq

def family? : Kind → Option Family
  | kwLet | kwFn | kwVoid | kwTrue | kwFalse | kwIf | kwElse | kwWhile | kwReturn | kwBreak =>
    some .keyword
  | opPlus | opMinus | opMult | opDiv | opMod | opAnd | opOr | opNot
  | opGt | opGe | opEq | opNe | opLt | opLe => some .operator
  | semicolon | colon | comma | assign
  | lparen | rparen | lbrace | rbrace | lbracket | rbracket => some .delimiter
  | numLiteral | strLiteral | identifier | comment | eof => none

def hasPayload (k : Kind) : Bool := k.spelling?.isNone

def spellings (f : Family) : List (String × Kind) :=
  (all.filter (·.family? = some f)).filterMap fun k => k.spelling?.map (·, k)

def keyword? (word : String) : Option Kind := (spellings .keyword).lookup word

def code (k : Kind) : Nat := k.ctorIdx + 1

inductive Unknown where
  | name (given : String)
  | code (given : Int)
  deriving DecidableEq

def Unknown.message : Unknown → String
  | .name given => Quoted.quote given
  | .code given => toString given ++ " is not a valid TokenType"

def ofName (given : String) : Except Unknown Kind :=
  match all.find? (·.name == given) with
  | some k => .ok k
  | none => .error (.name given)

def ofCode (given : Int) : Except Unknown Kind :=
  match all.find? (fun k => (k.code : Int) == given) with
  | some k => .ok k
  | none => .error (.code given)

theorem ofName_name (k : Kind) : ofName k.name = .ok k := by cases k <;> rfl

theorem ofCode_code (k : Kind) : ofCode k.code = .ok k := by cases k <;> rfl

end Kind
end ByteLexer

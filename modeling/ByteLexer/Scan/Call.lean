import ByteLexer.Scan.Scanner

/-! # Calls on a scanner

The operations of a scanner as data, so that sequences of them can be spoken about. -/
namespace ByteLexer.Scanner

inductive Call where
  | nextToken
  | tokens
  | classify (lead : Int)
  | peek
  | advance
  | skipBlanks
  | readWhile (accepted : List Int)
  | readWord
  | readNumber
  | readComment
  | slice (start : Int)
  deriving DecidableEq

inductive Answer where
  | token (found : Option Token)
  | tokens (found : List Token)
  | byte (found : Option UInt8)
  | text (found : String)
  | moved
  deriving DecidableEq

def haveRead (s : Scanner) (found : String × Cursor) : Answer × Scanner :=
  (.text found.1, { s with cursor := found.2 })

def perform (s : Scanner) : Call → Answer × Scanner
  | .nextToken => s.nextToken.map .token id
  | .tokens => s.tokens.map .tokens id
  | .classify lead => (s.classify lead).map .token id
  | .peek => (.byte s.cursor.peek, s)
  | .advance => (.moved, s.move .advance)
  | .skipBlanks => (.moved, s.move .skipBlanks)
  | .readWhile accepted => (.moved, s.move (.readWhile fun b => accepted.contains b.toNat))
  | .readWord => s.haveRead s.cursor.readWord
  | .readNumber => s.haveRead s.cursor.readNumber
  | .readComment => s.haveRead s.cursor.readComment
  | .slice start => (.text (s.cursor.slice start), s)

def performAll (s : Scanner) : List Call → List Answer × Scanner
  | [] => ([], s)
  | call :: calls =>
    let first := s.perform call
    let more := first.2.performAll calls
    (first.1 :: more.1, more.2)

end ByteLexer.Scanner

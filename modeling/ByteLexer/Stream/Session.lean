import ByteLexer.Scan.Call
import ByteLexer.Stream.Trace

/-! # Sessions

One scanner with any number of token streams that share it. -/
namespace ByteLexer

instance : Supply Scanner Token where
  draw := Scanner.nextToken
  size s := s.cursor.rest.length
  size_draw_lt := Scanner.length_lt_of_nextToken

abbrev Session := Network Scanner Token

namespace Session

def ofBytes (source : List UInt8) : Session := .ofSupply (.ofBytes source)

def tokenize (s : Scanner) : Session := .single s

inductive Call (β : Type) where
  | scanner (call : Scanner.Call)
  | tokenStream
  | stream (call : Network.Call Token β)

inductive Reply (β : Type) where
  | scanner (answer : Scanner.Answer)
  | stream (reply : Network.Reply Token β)

def perform {β : Type} (s : Session) : Call β → Reply β × Session
  | .scanner call => (s.supply.perform call).map .scanner ({ s with supply := · })
  | .tokenStream => (s.attach (.supply false)).map (.stream <| .opened ·) id
  | .stream call => (Network.perform s call).map .stream id

def performAll {β : Type} (s : Session) : List (Call β) → List (Reply β) × Session
  | [] => ([], s)
  | call :: calls =>
    let first := s.perform call
    let more := first.2.performAll calls
    (first.1 :: more.1, more.2)

/-- The tokens that an answer hands to the caller. A look at a token hands nothing out. -/
def Call.handedOut {β : Type} : Call β → Reply β → List Token
  | .scanner .nextToken, .scanner (.token found) => found.toList
  | .scanner .tokens, .scanner (.tokens found) => found
  | .stream call, .stream reply => call.handedOut reply
  | _, _ => []

def passed {β : Type} (s : Session) : Call β → List Token
  | .stream call => call.passed (Network.content s call.stream)
  | _ => []

def prepended {β : Type} (s : Session) : Call β → List Token
  | .stream call => call.prepended s.streams.length
  | _ => []

/-- What each of several calls comes to, one after the other. -/
def along {β : Type} (items : Session → Call β → List Token) (s : Session) :
    List (Call β) → List Token
  | [] => []
  | call :: calls => items s call ++ along items (s.perform call).2 calls

def Call.ofUse {β : Type} : Network.Use Token β → Call β
  | .draw => .scanner .nextToken
  | .drain => .scanner .tokens
  | .attach => .tokenStream
  | .stream call => .stream call

def report (s : Session) : List Notice × Session :=
  s.supply.report.map id ({ s with supply := · })

end Session
end ByteLexer

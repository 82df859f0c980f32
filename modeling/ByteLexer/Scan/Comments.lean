import ByteLexer.Scan.Event

/-! # Comments of a source

The places of the comments, and the source with other bytes in these places. -/
namespace ByteLexer

/-- From where to where a comment goes, the latter not included. -/
def Event.comment? : Event → Option (Nat × Nat)
  | token start stop t => if t.kind = .comment then some (start, stop) else none
  | skipped _ _ => none

def comments (source : List UInt8) : List (Nat × Nat) :=
  (events source).filterMap Event.comment?

/-- The source from `start` on with other bytes in some places: `f` gives those for a place by where
it begins. -/
def splice (f : Nat → List UInt8) (source : List UInt8) (start : Nat) :
    List (Nat × Nat) → List UInt8
  | [] => source.drop start
  | (first, stop) :: places =>
    (source.take first).drop start ++ (f first ++ splice f source stop places)

def replaceComments (f : Nat → List UInt8) (source : List UInt8) : List UInt8 :=
  splice f source 0 (comments source)

def dropComments (source : List UInt8) : List UInt8 := replaceComments (fun _ => []) source

end ByteLexer

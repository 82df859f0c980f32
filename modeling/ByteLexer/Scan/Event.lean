import ByteLexer.Scan.Scanner

/-! # Events

What a run over a whole source finds, with the places in the source: tokens and skipped bytes. -/
namespace ByteLexer

/-- A token from `start` up to `stop`, the latter not included, or a byte that begins none. -/
inductive Event where
  | token (start stop : Nat) (found : Token)
  | skipped (offset : Nat) (byte : UInt8)
  deriving DecidableEq

def Scanner.Step.here (step : Scanner.Step) : Cursor := step.before.skipBlanks

/-- A call finds nothing if only blanks are left. -/
def Scanner.Step.event? (step : Scanner.Step) : Option Event :=
  match step.token with
  | some t => some (.token step.here.position step.after.position t)
  | none => step.here.current.map (.skipped step.here.position)

def events (source : List UInt8) : List Event :=
  (Scanner.ofBytes source).run.1.filterMap Scanner.Step.event?

namespace Event

def start : Event → Nat
  | token start _ _ => start
  | skipped offset _ => offset

def stop : Event → Nat
  | token _ stop _ => stop
  | skipped offset _ => offset + 1

def shift (n : Nat) : Event → Event
  | token start stop found => token (start + n) (stop + n) found
  | skipped offset byte => skipped (offset + n) byte

def token? : Event → Option Token
  | token _ _ found => some found
  | skipped _ _ => none

def skip? : Event → Option Nat
  | token _ _ _ => none
  | skipped offset _ => some offset

def found : Event → Token ⊕ UInt8
  | token _ _ t => .inl t
  | skipped _ byte => .inr byte

theorem shift_shift (m n : Nat) (e : Event) : (e.shift m).shift n = e.shift (m + n) := by
  cases e <;> simp only [shift, Nat.add_assoc]

@[simp] theorem token?_shift (n : Nat) (e : Event) : (e.shift n).token? = e.token? := by
  cases e <;> rfl

@[simp] theorem found_shift (n : Nat) (e : Event) : (e.shift n).found = e.found := by
  cases e <;> rfl

theorem skip?_shift (n : Nat) (e : Event) : (e.shift n).skip? = e.skip?.map (· + n) := by
  cases e <;> rfl

end Event

def skips (source : List UInt8) : List Nat := (events source).filterMap Event.skip?

/-- The pieces of a source from `start` on, cut at places whose bytes belong to no piece. -/
def pieces (source : List UInt8) (start : Nat) : List Nat → List (List UInt8)
  | [] => [source.drop start]
  | p :: places => (source.take p).drop start :: pieces source (p + 1) places

/-- The pieces of a source between the bytes that begin no token. -/
def segments (source : List UInt8) : List (List UInt8) := pieces source 0 (skips source)

end ByteLexer

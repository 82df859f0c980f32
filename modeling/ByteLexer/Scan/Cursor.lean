import ByteLexer.Scan.Lead

/-! # Cursors

A cursor stands on a byte of its source, or past the end. It keeps what remains of the source at its
position, and carries the proof that it does. -/
namespace ByteLexer

structure Cursor where
  source : List UInt8
  position : Nat
  rest : List UInt8
  rest_eq : rest = source.drop position

namespace Cursor

def ofBytes (source : List UInt8) : Cursor := ⟨source, 0, source, rfl⟩

def readPosition (c : Cursor) : Nat := c.position + 1

def current (c : Cursor) : Option UInt8 := c.rest.head?

def ahead (c : Cursor) : List UInt8 := c.rest.tail

def peek (c : Cursor) : Option UInt8 := c.ahead.head?

/-- Moves on by `n` bytes, past the end as well. -/
def advanceBy (c : Cursor) (n : Nat) : Cursor where
  source := c.source
  position := c.position + n
  rest := c.rest.drop n
  rest_eq := by rw [c.rest_eq, List.drop_drop]

def advance (c : Cursor) : Cursor := c.advanceBy 1

def skipBlanks (c : Cursor) : Cursor := c.advanceBy (c.rest.takeWhile isBlank).length

def readWhile (accepted : UInt8 → Bool) (c : Cursor) : Cursor :=
  c.advanceBy (c.ahead.takeWhile accepted).length

/-- The byte under the cursor and `n` more. -/
def span (c : Cursor) (n : Nat) : List UInt8 := c.rest.take (n + 1)

/-- Reads what a lead announces, whatever byte the cursor stands on: the text from the cursor to
the last byte reached, where the cursor is left. -/
def readLead (lead : Lead) (c : Cursor) : String × Cursor :=
  let extra := lead.reach c.ahead
  (Utf8.decode (c.span extra), c.advanceBy extra)

def readWord (c : Cursor) : String × Cursor := c.readLead .word

def readNumber (c : Cursor) : String × Cursor := c.readLead .number

def readComment (c : Cursor) : String × Cursor := c.readLead .comment

/-- The bytes of the source from `start` through the one under the cursor; a negative start counts
from the end of the source. -/
def sliceBytes (c : Cursor) (start : Int) : List UInt8 :=
  let first := if start < 0 then (c.source.length + start).toNat else start.toNat
  (c.source.take (c.position + 1)).drop first

def slice (c : Cursor) (start : Int) : String := Utf8.decode (c.sliceBytes start)

@[simp] theorem source_advanceBy (c : Cursor) (n : Nat) : (c.advanceBy n).source = c.source := rfl

@[simp] theorem position_advanceBy (c : Cursor) (n : Nat) :
    (c.advanceBy n).position = c.position + n := rfl

@[simp] theorem rest_advanceBy (c : Cursor) (n : Nat) : (c.advanceBy n).rest = c.rest.drop n := rfl

theorem advanceBy_advanceBy (c : Cursor) (m n : Nat) :
    (c.advanceBy m).advanceBy n = c.advanceBy (m + n) := by
  simp [advanceBy, Nat.add_assoc]

end Cursor
end ByteLexer

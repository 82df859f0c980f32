/-! # Classes of bytes -/
namespace ByteLexer

/-- Blanks separate tokens: space, tab, line feed, carriage return and form feed. -/
def isBlank (b : UInt8) : Bool :=
  b == 0x20 || b == 0x09 || b == 0x0A || b == 0x0D || b == 0x0C

def isWordByte (b : UInt8) : Bool :=
  0x41 ≤ b && b ≤ 0x5A || 0x61 ≤ b && b ≤ 0x7A || b == 0x5F

def isDigit (b : UInt8) : Bool := 0x30 ≤ b && b ≤ 0x39

def newline : UInt8 := 0x0A

def equals : UInt8 := 0x3D

def dot : UInt8 := 0x2E

def commentMark : UInt8 := 0x3F

/-- Every byte, in rising order. -/
def allBytes : List UInt8 := (List.range 256).map UInt8.ofNat

end ByteLexer

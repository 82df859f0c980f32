/-! # Hexadecimal numerals -/
namespace ByteLexer.Hex

def digits (width : Nat) (n : Nat) : String :=
  let ds := Nat.toDigits 16 n
  String.ofList (List.replicate (width - ds.length) '0' ++ ds)

/-- A numeral with its sign and the mark `0x`; zeros after the mark fill it up to `width`
characters, sign and mark included. -/
def signed (width : Nat) (n : Int) : String :=
  if n < 0 then "-0x" ++ digits (width - 3) n.natAbs
  else "0x" ++ digits (width - 2) n.natAbs

end ByteLexer.Hex

import ByteLexer.Text.Hex

/-! # Notices

What happened besides the tokens: a file was read, or a byte was skipped because no token begins
with it. -/
namespace ByteLexer

inductive Notice where
  | read (size : Nat) (path : String)
  | skipped (byte : Int) (offset : Nat)
  deriving DecidableEq

/-- The text of a notice; a byte is written as a hexadecimal numeral of at least four characters. -/
def Notice.message : Notice → String
  | .read size path => "read " ++ toString size ++ " bytes from " ++ path
  | .skipped byte offset =>
    "skipping byte " ++ Hex.signed 4 byte ++ " at offset " ++ toString offset

def Notice.shift (n : Nat) : Notice → Notice
  | .read size path => .read size path
  | .skipped byte offset => .skipped byte (offset + n)

end ByteLexer

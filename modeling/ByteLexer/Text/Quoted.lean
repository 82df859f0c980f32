import ByteLexer.Text.Hex
import ByteLexer.Text.Printable

/-! # Quoted texts

A text in quotes, on one line and with every character visible. -/
namespace ByteLexer.Quoted

/-- Single quotes, unless the text holds one and no double quote. -/
def mark (text : List Char) : Char :=
  if text.contains '\x27' && !text.contains '\x22' then '\x22' else '\x27'

def escape (mark c : Char) : String :=
  if c = mark || c = '\x5c' then String.ofList ['\x5c', c]
  else if c = '\n' then "\\n"
  else if c = '\r' then "\\r"
  else if c = '\t' then "\\t"
  else if isPrintable c then String.singleton c
  else if c.toNat < 0x100 then "\\x" ++ Hex.digits 2 c.toNat
  else if c.toNat < 0x10000 then "\\u" ++ Hex.digits 4 c.toNat
  else "\\U" ++ Hex.digits 8 c.toNat

def quote (text : String) : String :=
  let m := mark text.toList
  String.singleton m ++ String.join (text.toList.map (escape m)) ++ String.singleton m

end ByteLexer.Quoted

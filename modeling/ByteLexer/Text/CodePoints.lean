import ByteLexer.Text.Hex
import ByteLexer.Text.Utf8

/-! # Texts given by code points

A list of code points has a UTF-8 form unless it holds a surrogate. -/
namespace ByteLexer.CodePoints

def isSurrogate (codePoint : Nat) : Bool := 0xD800 ≤ codePoint && codePoint ≤ 0xDFFF

/-- The first unbroken run of surrogates in a list of code points: its first index, its first code
point and how many more follow. -/
structure SurrogateRun where
  index : Nat
  codePoint : Nat
  more : Nat
  deriving DecidableEq

def SurrogateRun.message (run : SurrogateRun) : String :=
  let place :=
    if run.more = 0 then
      "character '\\u" ++ Hex.digits 4 run.codePoint ++ "' in position " ++ toString run.index
    else
      "characters in position " ++ toString run.index ++ "-" ++ toString (run.index + run.more)
  "'utf-8' codec can't encode " ++ place ++ ": surrogates not allowed"

/-- The UTF-8 form, or the first run of surrogates. -/
def encode (codePoints : List Nat) : Except SurrogateRun (List UInt8) :=
  match codePoints.dropWhile (!isSurrogate ·) with
  | [] => .ok (Utf8.encodeChars (codePoints.map Char.ofNat))
  | codePoint :: rest =>
    .error ⟨(codePoints.takeWhile (!isSurrogate ·)).length, codePoint,
      (rest.takeWhile isSurrogate).length⟩

end ByteLexer.CodePoints

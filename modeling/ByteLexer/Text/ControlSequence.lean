/-! # Control sequences

A control sequence tells a terminal to change colour or move its cursor: an escape and an opening
bracket, then parameters, intermediates and one final character, each from its own ASCII range.
`strip` leaves these sequences out of a text. -/
namespace ByteLexer.ControlSequence

def isParameter (c : Char) : Bool := 0x30 ≤ c.toNat && c.toNat ≤ 0x3F

def isIntermediate (c : Char) : Bool := 0x20 ≤ c.toNat && c.toNat ≤ 0x2F

def isFinal (c : Char) : Bool := 0x40 ≤ c.toNat && c.toNat ≤ 0x7E

def escape : Char := '\x1b'

/-- What follows a control sequence, given what follows its escape. -/
def afterEscape? : List Char → Option (List Char)
  | '[' :: text =>
    match (text.dropWhile isParameter).dropWhile isIntermediate with
    | c :: rest => if isFinal c then some rest else none
    | [] => none
  | _ => none

private theorem length_dropWhile_le (p : Char → Bool) (text : List Char) :
    (text.dropWhile p).length ≤ text.length :=
  (List.dropWhile_sublist p).length_le

private theorem length_afterEscape_lt {text rest : List Char} (h : afterEscape? text = some rest) :
    rest.length < text.length := by
  unfold afterEscape? at h
  split at h
  · rename_i text
    have hp := length_dropWhile_le isParameter text
    have hi := length_dropWhile_le isIntermediate (text.dropWhile isParameter)
    split at h
    · rename_i c tail hc
      rw [hc, List.length_cons] at hi
      split at h
      · cases h
        simp only [List.length_cons]
        omega
      · cases h
    · cases h
  · cases h

def stripChars : List Char → List Char
  | [] => []
  | c :: text =>
    if c = escape then
      match _h : afterEscape? text with
      | some rest => stripChars rest
      | none => c :: stripChars text
    else c :: stripChars text
termination_by text => text.length
decreasing_by
  · have hlt := length_afterEscape_lt ‹_›
    simp only [List.length_cons]
    omega
  · simp
  · simp

def strip (text : String) : String := String.ofList (stripChars text.toList)

end ByteLexer.ControlSequence

import ByteLexer.Scan.Cursor
import ByteLexer.Scan.Notice

/-! # Scanners

A scanner gives the tokens of a source, one per call of `nextToken`. A call gives `none` at the end
of the source and on a byte that begins no token; only the latter leaves a notice. Either way the
scanner moves on, so calls may always go on. -/
namespace ByteLexer

/-- A cursor with the notices so far, the last one first. -/
structure Scanner where
  cursor : Cursor
  journal : List Notice

namespace Scanner

def ofBytes (source : List UInt8) : Scanner := ⟨.ofBytes source, []⟩

def move (s : Scanner) (f : Cursor → Cursor) : Scanner := { s with cursor := f s.cursor }

def note (s : Scanner) (notice : Notice) : Scanner := { s with journal := notice :: s.journal }

/-- The notices in order, and the scanner with none. -/
def report (s : Scanner) : List Notice × Scanner := (s.journal.reverse, { s with journal := [] })

/-- The token that `lead` announces at the cursor, whatever byte stands there. The cursor is left
on the last byte of the token. An integer that announces none leaves a notice. -/
def classify (lead : Int) (s : Scanner) : Option Token × Scanner :=
  match Lead.ofInt? lead with
  | some l =>
    let extra := l.reach s.cursor.ahead
    (some (l.token extra (s.cursor.span extra)), s.move (·.advanceBy extra))
  | none => (none, s.note (.skipped lead s.cursor.position))

/-- Skips blanks and gives the token there, leaving the cursor on the byte after it. -/
def nextToken (s : Scanner) : Option Token × Scanner :=
  let here := s.move .skipBlanks
  match here.cursor.current with
  | some byte =>
    let found := here.classify byte.toNat
    (found.1, found.2.move .advance)
  | none => (none, here.move .advance)

private theorem length_classify (lead : Int) (s : Scanner) :
    (s.classify lead).2.cursor.rest.length ≤ s.cursor.rest.length := by
  unfold classify
  split <;> simp [move, note]

private theorem length_skipBlanks (s : Scanner) :
    (s.move .skipBlanks).cursor.rest.length ≤ s.cursor.rest.length := by
  simp [move, Cursor.skipBlanks]

private theorem length_advance (s : Scanner) :
    (s.move .advance).cursor.rest.length = s.cursor.rest.length - 1 := by
  simp [move, Cursor.advance]

theorem length_nextToken_lt {s : Scanner} (h : s.cursor.rest ≠ []) :
    s.nextToken.2.cursor.rest.length < s.cursor.rest.length := by
  have hpos := List.length_pos_iff.mpr h
  have hs := length_skipBlanks s
  simp only [nextToken]
  split
  · rename_i byte _
    have hc := length_classify byte.toNat (s.move .skipBlanks)
    simp only [length_advance]
    omega
  · simp only [length_advance]
    omega

theorem nextToken_of_rest_eq_nil {s : Scanner} (h : s.cursor.rest = []) :
    s.nextToken.1 = none := by
  simp [nextToken, move, Cursor.skipBlanks, Cursor.current, h]

theorem length_lt_of_nextToken {s s' : Scanner} {t : Token} (h : s.nextToken = (some t, s')) :
    s'.cursor.rest.length < s.cursor.rest.length := by
  have hne : s.cursor.rest ≠ [] := by
    intro he
    simpa [h] using nextToken_of_rest_eq_nil he
  simpa [h] using length_nextToken_lt hne

/-- The tokens up to the first call that gives none. -/
def tokens (s : Scanner) : List Token × Scanner :=
  match _h : s.nextToken with
  | (none, s') => ([], s')
  | (some t, s') =>
    let more := tokens s'
    (t :: more.1, more.2)
termination_by s.cursor.rest.length
decreasing_by exact length_lt_of_nextToken ‹_›

/-- One call of `nextToken`. -/
structure Step where
  before : Cursor
  token : Option Token
  notices : List Notice
  after : Cursor

/-- Makes one call and takes the notices it left. -/
def step (s : Scanner) : Step × Scanner :=
  let called := s.nextToken
  let reported := called.2.report
  (⟨s.cursor, called.1, reported.1, reported.2.cursor⟩, reported.2)

def afterSteps (s : Scanner) : Nat → Scanner
  | 0 => s
  | k + 1 => s.step.2.afterSteps k

/-- The call of number `k`, counted from zero; calls go on past the end. -/
def stepAt (s : Scanner) (k : Nat) : Step := (s.afterSteps k).step.1

/-- The calls from here until the cursor is past the end. -/
def run (s : Scanner) : List Step × Scanner :=
  if _h : s.cursor.rest = [] then ([], s)
  else
    let first := s.step
    let more := run first.2
    (first.1 :: more.1, more.2)
termination_by s.cursor.rest.length
decreasing_by exact length_nextToken_lt ‹_›

end Scanner

/-- The tokens of a source up to its first byte that begins none. -/
def tokensOf (source : List UInt8) : List Token := (Scanner.ofBytes source).tokens.1

end ByteLexer

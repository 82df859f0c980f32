import ByteLexer.Scan.Call

/-! # Scanners in registers

A scanner that works byte by byte: two indices into the source and the byte that was loaded last,
each kept for itself, and loops that load one byte at a time. Every load is checked, so one outside
the source would show. -/

private theorem Except.bind_eq_ok_iff {ε α β : Type} {x : Except ε α} {f : α → Except ε β} {b : β} :
    x >>= f = .ok b ↔ ∃ a, x = .ok a ∧ f a = .ok b := by
  cases x with
  | error e => exact ⟨fun h => (by cases h), fun ⟨a, ha, _⟩ => (by cases ha)⟩
  | ok a => exact ⟨fun h => ⟨a, rfl, h⟩, fun ⟨_, ha, h⟩ => Except.ok.inj ha ▸ h⟩

private theorem Except.map_eq_ok_iff {ε α β : Type} {x : Except ε α} {f : α → β} {b : β} :
    x.map f = .ok b ↔ ∃ a, x = .ok a ∧ f a = b := by
  cases x with
  | error e => exact ⟨fun h => (by cases h), fun ⟨a, ha, _⟩ => (by cases ha)⟩
  | ok a => exact ⟨fun h => ⟨a, rfl, Except.ok.inj h⟩,
      fun ⟨_, ha, h⟩ => congrArg Except.ok (Except.ok.inj ha ▸ h)⟩

namespace ByteLexer

structure OutOfRange where
  index : Nat
  size : Nat
  deriving DecidableEq

/-- `current` is the byte at `position`, none past the end; that at `readPosition` is loaded next.
The last notice comes first. -/
structure Registers where
  source : List UInt8
  position : Nat
  readPosition : Nat
  current : Option UInt8
  journal : List Notice

namespace Registers

/-- The byte at an index, which must lie in the source. -/
def load (r : Registers) (index : Nat) : Except OutOfRange UInt8 :=
  match r.source[index]? with
  | some b => .ok b
  | none => .error ⟨index, r.source.length⟩

/-- The byte that is loaded next. Only an index before the end is loaded from. -/
def peek (r : Registers) : Except OutOfRange (Option UInt8) :=
  if r.readPosition ≥ r.source.length then .ok none
  else (r.load r.readPosition).map some

def advance (r : Registers) : Except OutOfRange Registers :=
  r.peek.map fun next =>
    { r with current := next, position := r.readPosition, readPosition := r.readPosition + 1 }

/-- No byte is loaded at first, so the first one has to be. -/
def ofBytes (source : List UInt8) : Except OutOfRange Registers :=
  advance ⟨source, 0, 0, none, []⟩

def note (r : Registers) (notice : Notice) : Registers := { r with journal := notice :: r.journal }

/-- The bytes still to be loaded, with the one that is. -/
def left (r : Registers) : Nat := (r.source.length - r.readPosition) + r.current.toList.length

theorem peek_eq (r : Registers) : r.peek = .ok r.source[r.readPosition]? := by
  unfold peek load
  split
  · rename_i h
    rw [List.getElem?_eq_none h]
  · rename_i h
    rw [List.getElem?_eq_getElem (Nat.not_le.mp h)]
    rfl

theorem advance_eq (r : Registers) : r.advance = .ok
    ⟨r.source, r.readPosition, r.readPosition + 1, r.source[r.readPosition]?, r.journal⟩ := by
  rw [advance, peek_eq]
  rfl

private theorem left_advance_lt {r r' : Registers} (hcurrent : r.current.isSome = true)
    (h : r.advance = .ok r') : r'.left < r.left := by
  obtain ⟨b, hb⟩ := Option.isSome_iff_exists.mp hcurrent
  rw [advance_eq] at h
  cases h
  simp only [left, hb]
  by_cases hnext : r.readPosition < r.source.length
  · simp only [List.getElem?_eq_getElem hnext, Option.toList_some, List.length_singleton]
    omega
  · simp only [List.getElem?_eq_none (Nat.not_lt.mp hnext), Option.toList_some, Option.toList_none,
      List.length_singleton, List.length_nil]
    omega

def skipBlanks (r : Registers) : Except OutOfRange Registers :=
  if _hblank : r.current.any isBlank = true then
    match _h : r.advance with
    | .ok r' => r'.skipBlanks
    | .error outside => .error outside
  else .ok r
termination_by r.left
decreasing_by
  apply left_advance_lt _ _h
  cases hcurrent : r.current <;> simp_all

def readWhile (accepted : UInt8 → Bool) (r : Registers) : Except OutOfRange Registers :=
  match _hpeek : r.peek with
  | .ok (some next) =>
    if accepted next then
      match _h : r.advance with
      | .ok r' => r'.readWhile accepted
      | .error outside => .error outside
    else .ok r
  | .ok none => .ok r
  | .error outside => .error outside
termination_by r.source.length - r.readPosition
decreasing_by
  rw [advance_eq] at _h
  cases _h
  rw [peek_eq] at _hpeek
  have hlt := (List.getElem?_eq_some_iff.mp (Except.ok.inj _hpeek)).1
  dsimp only
  omega

def slice (r : Registers) (start : Int) : String :=
  let first := if start < 0 then r.source.length + start else start
  Utf8.decode ((r.source.take (r.position + 1)).drop first.toNat)

/-- Reads on by `read` and gives the text from the byte that was loaded before. -/
def textOf (r : Registers) (read : Registers → Except OutOfRange Registers) :
    Except OutOfRange (String × Registers) :=
  (read r).map fun r' => (r'.slice r.position, r')

def readWord (r : Registers) : Except OutOfRange (String × Registers) :=
  r.textOf (readWhile isWordByte)

def readNumber (r : Registers) : Except OutOfRange (String × Registers) :=
  r.textOf fun r => do
    let whole ← r.readWhile isDigit
    if (← whole.peek) = some dot then (← whole.advance).readWhile isDigit else return whole

def readComment (r : Registers) : Except OutOfRange (String × Registers) :=
  r.textOf (readWhile (· ≠ newline))

def classify (lead : Int) (r : Registers) : Except OutOfRange (Option Token × Registers) :=
  match Lead.ofInt? lead with
  | some (.mark kind) => .ok (some (.unit kind), r)
  | some (.pair alone joined) => do
    if (← r.peek) = some equals then return (some (.unit joined), ← r.advance)
    else return (some (.unit alone), r)
  | some .comment => r.readComment.map fun read => (some (.payload .comment read.1), read.2)
  | some .word => r.readWord.map fun read => (some (Lead.wordToken read.1), read.2)
  | some .number => r.readNumber.map fun read => (some (.payload .numLiteral read.1), read.2)
  | none => .ok (none, r.note (.skipped lead r.position))

def classifyCurrent (r : Registers) : Except OutOfRange (Option Token × Registers) :=
  match r.current with
  | some byte => r.classify byte.toNat
  | none => .ok (none, r)

def nextToken (r : Registers) : Except OutOfRange (Option Token × Registers) := do
  let here ← r.skipBlanks
  let found ← here.classifyCurrent
  return (found.1, ← found.2.advance)

/-- Loading bytes that the source has leaves no fewer unloaded and ends on a byte. -/
structure Onward (r r' : Registers) : Prop where
  left_le : r'.left ≤ r.left
  current : r.current.isSome = true → r'.current.isSome = true

private theorem Onward.refl (r : Registers) : Onward r r := ⟨Nat.le_refl _, id⟩

private theorem Onward.trans {r r' r'' : Registers} (h : Onward r r') (h' : Onward r' r'') :
    Onward r r'' := ⟨Nat.le_trans h'.left_le h.left_le, h'.current ∘ h.current⟩

private theorem onward_advance {r r' : Registers} {next : UInt8} (hpeek : r.peek = .ok (some next))
    (h : r.advance = .ok r') : Onward r r' := by
  rw [peek_eq] at hpeek
  rw [advance_eq, Except.ok.inj hpeek] at h
  cases h
  have hlt := (List.getElem?_eq_some_iff.mp (Except.ok.inj hpeek)).1
  refine ⟨?_, fun _ => rfl⟩
  simp only [left, Option.toList_some, List.length_singleton]
  omega

private theorem onward_readWhile {accepted : UInt8 → Bool} {r r' : Registers}
    (h : r.readWhile accepted = .ok r') : Onward r r' := by
  fun_induction readWhile accepted r with
  | case1 r next hpeek haccepted r'' hadvance ih =>
    exact (onward_advance hpeek hadvance).trans (ih h)
  | case2 => cases h
  | case3 | case4 => cases h; exact Onward.refl _
  | case5 => cases h

private theorem onward_textOf {r r' : Registers} {read : Registers → Except OutOfRange Registers}
    (hread : ∀ {r'}, read r = .ok r' → Onward r r') {text : String}
    (h : r.textOf read = .ok (text, r')) : Onward r r' := by
  obtain ⟨r'', hread', heq⟩ := Except.map_eq_ok_iff.mp h
  cases heq
  exact hread hread'

private theorem onward_readNumber {r r' : Registers} {text : String}
    (h : r.readNumber = .ok (text, r')) : Onward r r' := by
  refine onward_textOf ?_ h
  intro r' hread
  obtain ⟨whole, hwhole, hread⟩ := Except.bind_eq_ok_iff.mp hread
  obtain ⟨next, hpeek, hread⟩ := Except.bind_eq_ok_iff.mp hread
  split at hread
  · rename_i hdot
    obtain ⟨behind, hadvance, hread⟩ := Except.bind_eq_ok_iff.mp hread
    exact ((onward_readWhile hwhole).trans (onward_advance (hdot ▸ hpeek) hadvance)).trans
      (onward_readWhile hread)
  · cases hread
    exact onward_readWhile hwhole

private theorem onward_classify {lead : Int} {r r' : Registers} {found : Option Token}
    (h : r.classify lead = .ok (found, r')) : Onward r r' := by
  unfold classify at h
  split at h
  · cases h
    exact Onward.refl r
  · obtain ⟨next, hpeek, h⟩ := Except.bind_eq_ok_iff.mp h
    split at h
    · rename_i hequals
      obtain ⟨behind, hadvance, h⟩ := Except.bind_eq_ok_iff.mp h
      cases h
      exact onward_advance (hequals ▸ hpeek) hadvance
    · cases h
      exact Onward.refl r
  · obtain ⟨read, hread, h⟩ := Except.map_eq_ok_iff.mp h
    cases h
    exact onward_textOf onward_readWhile hread
  · obtain ⟨read, hread, h⟩ := Except.map_eq_ok_iff.mp h
    cases h
    exact onward_textOf onward_readWhile hread
  · obtain ⟨read, hread, h⟩ := Except.map_eq_ok_iff.mp h
    cases h
    exact onward_readNumber hread
  · cases h
    exact ⟨Nat.le_refl _, id⟩

private theorem left_skipBlanks_le {r r' : Registers} (h : r.skipBlanks = .ok r') :
    r'.left ≤ r.left := by
  fun_induction skipBlanks r with
  | case1 r hblank r'' hadvance ih =>
    have hcurrent : r.current.isSome = true := by cases hcurrent : r.current <;> simp_all
    exact Nat.le_trans (ih h) (Nat.le_of_lt (left_advance_lt hcurrent hadvance))
  | case2 => cases h
  | case3 => cases h; exact Nat.le_refl _

private theorem left_nextToken_lt {r r' : Registers} {t : Token}
    (h : r.nextToken = .ok (some t, r')) : r'.left < r.left := by
  obtain ⟨here, hhere, h⟩ := Except.bind_eq_ok_iff.mp h
  obtain ⟨⟨found, read⟩, hfound, h⟩ := Except.bind_eq_ok_iff.mp h
  obtain ⟨after, hafter, h⟩ := Except.bind_eq_ok_iff.mp h
  cases h
  cases hcurrent : here.current with
  | some byte =>
    simp only [classifyCurrent, hcurrent] at hfound
    have honward := onward_classify hfound
    have hlt := left_advance_lt (honward.current (by rw [hcurrent]; rfl)) hafter
    exact Nat.lt_of_lt_of_le hlt (Nat.le_trans honward.left_le (left_skipBlanks_le hhere))
  | none =>
    simp only [classifyCurrent, hcurrent] at hfound
    cases hfound

def tokens (r : Registers) : Except OutOfRange (List Token × Registers) :=
  match _h : r.nextToken with
  | .ok (some t, r') => r'.tokens.map fun more => (t :: more.1, more.2)
  | .ok (none, r') => .ok ([], r')
  | .error outside => .error outside
termination_by r.left
decreasing_by exact left_nextToken_lt ‹_›

def perform (r : Registers) : Scanner.Call → Except OutOfRange (Scanner.Answer × Registers)
  | .nextToken => r.nextToken.map (·.map .token id)
  | .tokens => r.tokens.map (·.map .tokens id)
  | .classify lead => (r.classify lead).map (·.map .token id)
  | .peek => r.peek.map (.byte ·, r)
  | .advance => r.advance.map (.moved, ·)
  | .skipBlanks => r.skipBlanks.map (.moved, ·)
  | .readWhile accepted => (r.readWhile fun b => accepted.contains b.toNat).map (.moved, ·)
  | .readWord => r.readWord.map (·.map .text id)
  | .readNumber => r.readNumber.map (·.map .text id)
  | .readComment => r.readComment.map (·.map .text id)
  | .slice start => .ok (.text (r.slice start), r)

def performAll (r : Registers) :
    List Scanner.Call → Except OutOfRange (List Scanner.Answer × Registers)
  | [] => .ok ([], r)
  | call :: calls => do
    let first ← r.perform call
    let more ← first.2.performAll calls
    return (first.1 :: more.1, more.2)

end Registers
end ByteLexer

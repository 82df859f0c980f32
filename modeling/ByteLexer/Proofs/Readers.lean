import ByteLexer.Proofs.Registers
import ByteLexer.Text.Span

/-!
# Readers from any place

A reader does not look at the byte under the cursor. From any place within the source, also from
inside a token, it passes the longest part ahead that it accepts and stops on the last byte of it.
Past the end nothing is read and nothing changes.
-/

namespace ByteLexer

/-- Behind the byte at `place`, the bytes before `stop` are the longest part that belongs to a
language. -/
structure Reaches (language : List UInt8 → Prop) (source : List UInt8) (place stop : Nat) :
    Prop where
  place_lt : place < stop
  stop_le : stop ≤ source.length
  longest : LongestFront language (source.drop (place + 1)) (source.extract (place + 1) stop)

private theorem Lead.longestFront_take_reach (lead : Lead) (after : List UInt8) :
    LongestFront lead.Accepts after (after.take (lead.reach after)) := by
  refine ⟨lead.accepts_take_reach after, List.take_prefix _ _, ?_⟩
  intro other haccepts hpre
  rw [lead.length_take_reach]
  exact Lead.length_le_reach haccepts hpre

private theorem Lead.reach_nil (lead : Lead) : lead.reach [] = 0 :=
  Nat.le_zero.mp (lead.reach_le_length [])

private theorem longestFront_takeWhile (accepted : List Int) (bytes : List UInt8) :
    LongestFront (fun part => ∀ b ∈ part, (b.toNat : Int) ∈ accepted) bytes
      (bytes.takeWhile fun b => accepted.contains b.toNat) := by
  refine ⟨?_, List.takeWhile_prefix _, ?_⟩
  · intro b hb
    have hin := List.mem_takeWhile_imp hb
    exact List.contains_iff_mem.mp hin
  · intro other hall hpre
    obtain ⟨tail, rfl⟩ := hpre
    rw [List.takeWhile_append_of_pos fun b hb => List.contains_iff_mem.mpr (hall b hb),
      List.length_append]
    exact Nat.le_add_right _ _

namespace Cursor

def moveTo (c : Cursor) (place : Nat) : Cursor := ⟨c.source, place, c.source.drop place, rfl⟩

private theorem advanceBy_eq_moveTo (c : Cursor) (n : Nat) :
    c.advanceBy n = c.moveTo (c.position + n) := by
  simp [advanceBy, moveTo, c.rest_eq]

private theorem ahead_eq_drop (c : Cursor) : c.ahead = c.source.drop (c.position + 1) := by
  rw [ahead, rest_eq, List.tail_drop]

private theorem span_eq_extract (c : Cursor) (n : Nat) :
    c.span n = c.source.extract c.position (c.position + n + 1) := by
  rw [span, rest_eq, Nat.add_assoc, extract_add]

private theorem reaches_of_longestFront {c : Cursor} (hposition : c.position < c.source.length)
    {language : List UInt8 → Prop} {front : List UInt8}
    (hlongest : LongestFront language c.ahead front) :
    Reaches language c.source c.position (c.position + front.length + 1) := by
  have hle := hlongest.isPrefix.length_le
  have hfront := List.prefix_iff_eq_take.mp hlongest.isPrefix
  rw [ahead_eq_drop] at hle hfront hlongest
  rw [List.length_drop] at hle
  refine ⟨by omega, by omega, ?_⟩
  rwa [Nat.add_right_comm, extract_add, ← hfront]

private theorem rest_eq_nil {c : Cursor} (hposition : c.source.length ≤ c.position) :
    c.rest = [] := by
  rw [rest_eq]
  exact List.drop_of_length_le hposition

end Cursor

namespace Scanner

def Call.reads? : Call → Option Lead
  | .readWord => some .word
  | .readNumber => some .number
  | .readComment => some .comment
  | _ => none

private theorem perform_of_reads {call : Call} {lead : Lead} (h : call.reads? = some lead)
    (s : Scanner) :
    s.perform call = (.text (Utf8.decode (s.cursor.span (lead.reach s.cursor.ahead))),
      s.move (·.advanceBy (lead.reach s.cursor.ahead))) := by
  cases call <;> cases h <;> rfl

section WithinSource

variable {s : Scanner} (hposition : s.cursor.position < s.cursor.source.length)

include hposition

private theorem exists_reaches_readWhile (accepted : List Int) :
    ∃ stop, Reaches (fun part => ∀ b ∈ part, (b.toNat : Int) ∈ accepted)
        s.cursor.source s.cursor.position stop ∧
      s.perform (.readWhile accepted) = (.moved, s.move (·.moveTo (stop - 1))) := by
  refine ⟨_, Cursor.reaches_of_longestFront hposition
    (longestFront_takeWhile accepted s.cursor.ahead), ?_⟩
  rw [perform, move, Cursor.readWhile, Cursor.advanceBy_eq_moveTo]
  rfl

private theorem exists_reaches_of_reads {call : Call} {lead : Lead} (h : call.reads? = some lead) :
    ∃ stop, Reaches lead.Accepts s.cursor.source s.cursor.position stop ∧
      s.perform call = (.text (Utf8.spanText s.cursor.source s.cursor.position stop),
        s.move (·.moveTo (stop - 1))) := by
  refine ⟨_, Cursor.reaches_of_longestFront hposition
    (lead.longestFront_take_reach s.cursor.ahead), ?_⟩
  rw [perform_of_reads h, move, Cursor.span_eq_extract, Cursor.advanceBy_eq_moveTo,
    lead.length_take_reach]
  rfl

end WithinSource

private theorem perform_past_end {s : Scanner} (h : s.cursor.rest = []) (accepted : List Int) :
    s.perform (.readWhile accepted) = (.moved, s) ∧
      ∀ call lead, call.reads? = some lead → s.perform call = (.text "", s) := by
  have hahead : s.cursor.ahead = [] := by rw [Cursor.ahead, h, List.tail_nil]
  constructor
  · rw [perform, move, Cursor.readWhile, hahead]
    rfl
  · intro call lead hreads
    rw [perform_of_reads hreads, hahead, lead.reach_nil, Cursor.span, h]
    rfl

/-- Whichever calls were made before, within the source `readWhile` passes the longest part ahead
whose bytes are all accepted, and a reader passes the longest part ahead that it accepts and answers
with the text from the cursor on. Both stop on the last byte passed, and neither looks at the byte
under the cursor. Past the end they change nothing, and a reader answers with the empty text. -/
theorem perform_reader (source : List UInt8) (past : List Call) (accepted : List Int) :
    let s : Scanner := ((ofBytes source).performAll past).2
    let place := s.cursor.position
    (place < source.length →
      (∃ stop, Reaches (fun part => ∀ b ∈ part, (b.toNat : Int) ∈ accepted) source place stop ∧
        s.perform (.readWhile accepted) = (.moved, s.move (·.moveTo (stop - 1)))) ∧
      ∀ call lead, call.reads? = some lead → ∃ stop, Reaches lead.Accepts source place stop ∧
        s.perform call =
          (.text (Utf8.spanText source place stop), s.move (·.moveTo (stop - 1)))) ∧
    (source.length ≤ place → s.perform (.readWhile accepted) = (.moved, s) ∧
      ∀ call lead, call.reads? = some lead → s.perform call = (.text "", s)) := by
  intro s place
  have hsource : s.cursor.source = source := Registers.cursor_source_performAll source past
  rw [← hsource]
  constructor
  · intro hplace
    apply And.intro (exists_reaches_readWhile hplace accepted)
    intro call lead hreads
    exact exists_reaches_of_reads hplace hreads
  · intro hplace
    exact perform_past_end (Cursor.rest_eq_nil hplace) accepted

/-- A number read from a dot has a second one; behind the last byte there is none to read. -/
theorem perform_reader_from_dot :
    let s : Scanner := ((ofBytes [0x37, 0x2E, 0x35, 0x2E, 0x32]).performAll [.advance]).2
    let late : Scanner :=
      ((ofBytes [0x37, 0x2E, 0x35, 0x2E, 0x32]).performAll [.nextToken, .nextToken, .nextToken]).2
    s.cursor.position = 1 ∧
      Reaches Lead.number.Accepts [0x37, 0x2E, 0x35, 0x2E, 0x32] 1 5 ∧
      s.perform .readNumber = (.text ".5.2", s.move (·.moveTo 4)) ∧
      late.cursor.position = 5 ∧ late.perform .readNumber = (.text "", late) := by
  intro s late
  have hplace : s.cursor.position = 1 := by decide
  have hlate : late.cursor.position = 5 := by decide
  obtain ⟨hwithin, _⟩ := perform_reader [0x37, 0x2E, 0x35, 0x2E, 0x32] [.advance] []
  obtain ⟨_, hpast⟩ :=
    perform_reader [0x37, 0x2E, 0x35, 0x2E, 0x32] [.nextToken, .nextToken, .nextToken] []
  obtain ⟨stop, hreaches, hperform⟩ := (hwithin (by decide)).2 .readNumber .number rfl
  have hstop : 4 = stop - 1 := congrArg (·.2.cursor.position) hperform
  obtain rfl : stop = 5 := by omega
  exact ⟨hplace, hplace ▸ hreaches, hperform, hlate, (hpast (by decide)).2 .readNumber .number rfl⟩

end Scanner
end ByteLexer

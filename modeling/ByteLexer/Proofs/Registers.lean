import ByteLexer.Proofs.Resumption
import ByteLexer.Scan.Registers

/-!
# Scanners byte by byte

A scanner in registers does what a scanner with a cursor does, one load after the other. No load is
made outside the source, and after every call the registers agree with each other and with the
source, whichever calls were made before.
-/

namespace ByteLexer

namespace Cursor

private theorem current_eq (c : Cursor) : c.current = c.source[c.position]? := by
  rw [current, rest_eq, List.head?_drop]

private theorem peek_eq (c : Cursor) : c.peek = c.source[c.readPosition]? := by
  rw [peek, ahead, rest_eq, List.tail_drop, List.head?_drop, readPosition]

private theorem ahead_advance (c : Cursor) : c.advance.ahead = c.ahead.tail := by
  simp [ahead, advance]

private theorem skipBlanks_of_blank {c : Cursor} {b : UInt8} (hcurrent : c.current = some b)
    (hblank : isBlank b = true) : c.skipBlanks = c.advance.skipBlanks := by
  obtain ⟨after, hrest⟩ := List.head?_eq_some_iff.mp hcurrent
  simp [skipBlanks, advance, advanceBy_advanceBy, hrest, hblank, Nat.add_comm]

private theorem skipBlanks_of_not {c : Cursor} (h : ∀ b, c.current = some b → isBlank b = false) :
    c.skipBlanks = c := by
  have hnone : c.rest.takeWhile isBlank = [] := by
    cases hrest : c.rest with
    | nil => rfl
    | cons b after => simp [h b (by simp [current, hrest])]
  rw [skipBlanks, hnone]
  rfl

private theorem readWhile_of_accepted {c : Cursor} {accepted : UInt8 → Bool} {b : UInt8}
    (hpeek : c.peek = some b) (hb : accepted b = true) :
    c.readWhile accepted = c.advance.readWhile accepted := by
  obtain ⟨after, hahead⟩ := List.head?_eq_some_iff.mp hpeek
  have hmore : c.advance.ahead = after := by rw [ahead_advance, hahead, List.tail_cons]
  rw [readWhile, readWhile, hahead, hmore, advance, advanceBy_advanceBy,
    List.takeWhile_cons_of_pos hb, List.length_cons, Nat.add_comm]

private theorem readWhile_of_not {c : Cursor} {accepted : UInt8 → Bool}
    (h : ∀ b, c.peek = some b → accepted b = false) : c.readWhile accepted = c := by
  have hnone : c.ahead.takeWhile accepted = [] := by
    cases hahead : c.ahead with
    | nil => rfl
    | cons b after => simp [h b (by simp [peek, hahead])]
  rw [readWhile, hnone]
  rfl

end Cursor

def Scanner.registers (s : Scanner) : Registers :=
  ⟨s.cursor.source, s.cursor.position, s.cursor.readPosition, s.cursor.current, s.journal⟩

namespace Registers

/-- The registers agree with each other and with the source. -/
structure Sound (source : List UInt8) (r : Registers) : Prop where
  source_eq : r.source = source
  readPosition_eq : r.readPosition = r.position + 1
  current_eq_none_iff : r.current = none ↔ source.length ≤ r.position
  current_eq_some : ∀ h : r.position < source.length, r.current = some source[r.position]

private theorem sound_registers (s : Scanner) : s.registers.Sound s.cursor.source := by
  refine ⟨rfl, rfl, ?_, ?_⟩
  · simp only [Scanner.registers, Cursor.current_eq, List.getElem?_eq_none_iff]
  · intro h
    simp only [Scanner.registers, Cursor.current_eq]
    exact List.getElem?_eq_getElem h

private theorem peek_registers (s : Scanner) : s.registers.peek = .ok s.cursor.peek := by
  rw [peek_eq, Cursor.peek_eq]
  rfl

private theorem advance_registers (s : Scanner) :
    s.registers.advance = .ok (s.move .advance).registers := by
  rw [advance_eq]
  simp only [Scanner.registers, Scanner.move, Cursor.current_eq]
  rfl

private theorem ofBytes_eq (source : List UInt8) :
    ofBytes source = .ok (Scanner.ofBytes source).registers := by
  rw [ofBytes, advance_eq]
  simp only [Scanner.registers, Cursor.current_eq, Scanner.ofBytes]
  rfl

private theorem skipBlanks_of_blank {r : Registers} {b : UInt8} (hcurrent : r.current = some b)
    (hblank : isBlank b = true) : r.skipBlanks = r.advance >>= skipBlanks := by
  rw [skipBlanks, dif_pos (by simpa [hcurrent] using hblank)]
  split <;> (rename_i h; rw [h]; rfl)

private theorem skipBlanks_of_not {r : Registers}
    (h : ∀ b, r.current = some b → isBlank b = false) : r.skipBlanks = .ok r := by
  rw [skipBlanks, dif_neg]
  cases hcurrent : r.current with
  | none => simp
  | some b => simpa using h b hcurrent

private theorem skipBlanks_registers (s : Scanner) :
    s.registers.skipBlanks = .ok (s.move .skipBlanks).registers := by
  induction hrest : s.cursor.rest generalizing s with
  | nil =>
    have hcurrent : s.cursor.current = none := by simp [Cursor.current, hrest]
    have hnot : ∀ b, s.cursor.current = some b → isBlank b = false := by simp [hcurrent]
    rw [skipBlanks_of_not hnot, Scanner.move, Cursor.skipBlanks_of_not hnot]
  | cons b after ih =>
    have hcurrent : s.cursor.current = some b := by simp [Cursor.current, hrest]
    by_cases hblank : isBlank b = true
    · have hmore : (s.move .advance).cursor.rest = after := by
        simp [Scanner.move, Cursor.advance, hrest]
      have hsame : s.move .skipBlanks = (s.move .advance).move .skipBlanks :=
        congrArg (Scanner.mk · s.journal) (Cursor.skipBlanks_of_blank hcurrent hblank)
      rw [skipBlanks_of_blank hcurrent hblank, advance_registers, hsame]
      exact ih _ hmore
    · have hnot : ∀ b, s.cursor.current = some b → isBlank b = false := by
        simpa [hcurrent] using hblank
      rw [skipBlanks_of_not hnot, Scanner.move, Cursor.skipBlanks_of_not hnot]

private theorem readWhile_of_accepted {r : Registers} {accepted : UInt8 → Bool} {b : UInt8}
    (hpeek : r.peek = .ok (some b)) (hb : accepted b = true) :
    r.readWhile accepted = r.advance >>= readWhile accepted := by
  rw [readWhile]
  split <;> rename_i hother <;> rw [hpeek] at hother <;> cases hother
  rw [if_pos hb]
  split <;> (rename_i h; rw [h]; rfl)

private theorem readWhile_of_not {r : Registers} {accepted : UInt8 → Bool} {next : Option UInt8}
    (hpeek : r.peek = .ok next) (h : ∀ b, next = some b → accepted b = false) :
    r.readWhile accepted = .ok r := by
  rw [readWhile]
  split <;> rename_i hother <;> rw [hpeek] at hother <;> cases hother
  simp [h _ rfl]

private theorem readWhile_registers (s : Scanner) (accepted : UInt8 → Bool) :
    s.registers.readWhile accepted = .ok (s.move (.readWhile accepted)).registers := by
  have hpeek := peek_registers s
  induction hahead : s.cursor.ahead generalizing s with
  | nil =>
    have hnot : ∀ b, s.cursor.peek = some b → accepted b = false := by simp [Cursor.peek, hahead]
    rw [readWhile_of_not hpeek hnot, Scanner.move, Cursor.readWhile_of_not hnot]
  | cons b after ih =>
    have hnext : s.cursor.peek = some b := by simp [Cursor.peek, hahead]
    by_cases hb : accepted b = true
    · have hmore : (s.move .advance).cursor.ahead = after := by
        simp [Scanner.move, Cursor.ahead_advance, hahead]
      have hsame : s.move (.readWhile accepted) = (s.move .advance).move (.readWhile accepted) :=
        congrArg (Scanner.mk · s.journal) (Cursor.readWhile_of_accepted hnext hb)
      rw [readWhile_of_accepted (hnext ▸ hpeek) hb, advance_registers, hsame]
      exact ih _ (peek_registers _) hmore
    · have hnot : ∀ b, s.cursor.peek = some b → accepted b = false := by
        simpa [hnext] using hb
      rw [readWhile_of_not hpeek hnot, Scanner.move, Cursor.readWhile_of_not hnot]

private theorem slice_registers (s : Scanner) (start : Int) :
    s.registers.slice start = s.cursor.slice start := by
  rw [slice, Cursor.slice, Cursor.sliceBytes]
  split <;> rfl

private theorem slice_moved (s : Scanner) (n : Nat) :
    (s.move (·.advanceBy n)).registers.slice s.cursor.position =
      Utf8.decode (s.cursor.span n) := by
  rw [slice, Cursor.span, Cursor.rest_eq, if_neg (by omega), List.drop_take]
  simp only [Scanner.registers, Scanner.move, Cursor.source_advanceBy, Cursor.position_advanceBy,
    Int.toNat_natCast]
  congr 2
  omega

private theorem textOf_registers {s : Scanner} {n : Nat}
    {read : Registers → Except OutOfRange Registers}
    (hread : read s.registers = .ok (s.move (·.advanceBy n)).registers) :
    s.registers.textOf read =
      .ok (Utf8.decode (s.cursor.span n), (s.move (·.advanceBy n)).registers) := by
  rw [textOf, hread, ← slice_moved]
  rfl

private theorem readWord_registers (s : Scanner) :
    s.registers.readWord = .ok (s.cursor.readWord.1, (s.haveRead s.cursor.readWord).2.registers) :=
  textOf_registers (readWhile_registers s isWordByte)

private theorem readComment_registers (s : Scanner) :
    s.registers.readComment =
      .ok (s.cursor.readComment.1, (s.haveRead s.cursor.readComment).2.registers) :=
  textOf_registers (readWhile_registers s (· ≠ newline))

private theorem ahead_advanceBy (c : Cursor) (n : Nat) :
    (c.advanceBy n).ahead = c.ahead.drop n := by
  simp [Cursor.ahead]

private theorem readNumber_registers (s : Scanner) :
    s.registers.readNumber =
      .ok (s.cursor.readNumber.1, (s.haveRead s.cursor.readNumber).2.registers) := by
  apply textOf_registers
  let whole := s.move (.readWhile isDigit)
  have hwhole : s.registers.readWhile isDigit = .ok whole.registers :=
    readWhile_registers s isDigit
  have hahead : whole.cursor.ahead =
      s.cursor.ahead.drop (s.cursor.ahead.takeWhile isDigit).length := ahead_advanceBy _ _
  simp only [hwhole, peek_registers, advance_registers, Except.bind, bind,
    Cursor.peek, hahead, Lead.reach, Lead.numberReach]
  cases hnext : s.cursor.ahead.drop (s.cursor.ahead.takeWhile isDigit).length with
  | nil => rfl
  | cons b rest =>
    by_cases hdot : b = dot
    · have hrest : (whole.move .advance).cursor.ahead = rest := by
        rw [Scanner.move, Cursor.ahead_advance, hahead, hnext, List.tail_cons]
      have hplaces := readWhile_registers (whole.move .advance) isDigit
      simp only [Scanner.move, Cursor.readWhile] at hrest hplaces
      simp only [List.head?_cons, hdot, if_true, Scanner.move, hplaces, hrest]
      simp only [whole, Scanner.move, Cursor.readWhile, Cursor.advance, Cursor.advanceBy_advanceBy]
    · simp only [List.head?_cons, Option.some.injEq, hdot, if_false]
      rfl

private theorem classify_registers (s : Scanner) (lead : Int) :
    s.registers.classify lead = .ok ((s.classify lead).1, (s.classify lead).2.registers) := by
  rw [classify, Scanner.classify]
  cases Lead.ofInt? lead with
  | none => rfl
  | some l =>
    cases l with
    | mark kind => rfl
    | pair alone joined =>
      simp only [peek_registers, Except.bind, bind]
      by_cases hequals : s.cursor.peek = some equals
      · have hreach : s.cursor.ahead.head? = some equals := hequals
        simp only [hequals, if_true, advance_registers, Lead.reach, hreach]
        rfl
      · have hreach : ¬ s.cursor.ahead.head? = some equals := hequals
        simp only [hequals, if_false, Lead.reach, hreach]
        rfl
    | comment => rw [readComment_registers]; rfl
    | word => rw [readWord_registers]; rfl
    | number => rw [readNumber_registers]; rfl

private theorem cursor_source_perform (s : Scanner) (call : Scanner.Call) :
    (s.perform call).2.cursor.source = s.cursor.source ∧
      s.cursor.position ≤ (s.perform call).2.cursor.position := by
  obtain ⟨n, hn⟩ := s.cursor_perform call
  rw [hn]
  exact ⟨rfl, Nat.le_add_right _ n⟩

private theorem classifyCurrent_registers {s : Scanner} {b : UInt8}
    (hcurrent : s.cursor.current = some b) : s.registers.classifyCurrent =
      .ok ((s.classify b.toNat).1, (s.classify b.toNat).2.registers) := by
  have hloaded : s.registers.current = some b := hcurrent
  simp only [classifyCurrent, hloaded]
  exact classify_registers s b.toNat

private theorem nextToken_registers (s : Scanner) :
    s.registers.nextToken = .ok (s.nextToken.1, s.nextToken.2.registers) := by
  rw [nextToken, skipBlanks_registers, Scanner.nextToken]
  generalize s.move .skipBlanks = here
  simp only [bind, Except.bind]
  cases hcurrent : here.cursor.current with
  | some byte =>
    simp only [classifyCurrent_registers hcurrent]
    rw [advance_registers]
    rfl
  | none =>
    have hloaded : here.registers.current = none := hcurrent
    simp only [classifyCurrent, hloaded, advance_registers]
    rfl

private theorem tokens_registers (s : Scanner) :
    s.registers.tokens = .ok (s.tokens.1, s.tokens.2.registers) := by
  have hcall := nextToken_registers s
  cases htoken : s.nextToken.1 with
  | none =>
    rw [htoken] at hcall
    rw [tokens, Scanner.tokens_of_none htoken]
    split <;> rename_i hother <;> rw [hcall] at hother <;> cases hother
    rfl
  | some t =>
    have hmore := tokens_registers s.nextToken.2
    rw [htoken] at hcall
    rw [tokens, Scanner.tokens_of_some htoken]
    split <;> rename_i hother <;> rw [hcall] at hother <;> cases hother
    exact congrArg (Except.map fun more => (t :: more.1, more.2)) hmore
termination_by s.cursor.rest.length
decreasing_by exact Scanner.length_lt_of_nextToken (Prod.ext htoken rfl)

/-- In registers every call gives what it gives with a cursor, and no load fails. -/
theorem perform_registers (s : Scanner) (call : Scanner.Call) :
    s.registers.perform call = .ok ((s.perform call).1, (s.perform call).2.registers) := by
  cases call with
  | nextToken => rw [perform, nextToken_registers]; rfl
  | tokens => rw [perform, tokens_registers]; rfl
  | classify lead => rw [perform, classify_registers]; rfl
  | peek => rw [perform, peek_registers]; rfl
  | advance => rw [perform, advance_registers]; rfl
  | skipBlanks => rw [perform, skipBlanks_registers]; rfl
  | readWhile accepted => rw [perform, readWhile_registers]; rfl
  | readWord => rw [perform, readWord_registers]; rfl
  | readNumber => rw [perform, readNumber_registers]; rfl
  | readComment => rw [perform, readComment_registers]; rfl
  | slice start => rw [perform, slice_registers]; rfl

theorem performAll_registers (s : Scanner) (calls : List Scanner.Call) :
    s.registers.performAll calls =
      .ok ((s.performAll calls).1, (s.performAll calls).2.registers) := by
  induction calls generalizing s with
  | nil => rfl
  | cons call calls ih =>
    simp only [performAll, perform_registers, bind, Except.bind, ih]
    rfl

theorem cursor_source_performAll (source : List UInt8) (calls : List Scanner.Call) :
    ((Scanner.ofBytes source).performAll calls).2.cursor.source = source := by
  obtain ⟨n, hn⟩ := (Scanner.ofBytes source).cursor_performAll calls
  rw [hn]
  rfl

/-- Whatever calls are made on a scanner in registers, none loads from outside the source, and each
answers as it does on a scanner with a cursor. Behind every call the byte after the loaded one is
next, the loaded byte is that of the source at the position, and the position is no smaller than
before; looking at the next byte or at a slice changes nothing. -/
theorem perform_sound (source : List UInt8) (past : List Scanner.Call) (call : Scanner.Call) :
    let s : Scanner := ((Scanner.ofBytes source).performAll past).2
    let after : Scanner := (s.perform call).2
    (ofBytes source >>= (performAll · past)) =
      .ok (((Scanner.ofBytes source).performAll past).1, s.registers) ∧
    s.registers.perform call = .ok ((s.perform call).1, after.registers) ∧
    s.registers.Sound source ∧ after.registers.Sound source ∧
    s.registers.position ≤ after.registers.position ∧
    (call = .peek ∨ (∃ start, call = .slice start) → after.registers = s.registers) := by
  intro s after
  have hsource : s.cursor.source = source := cursor_source_performAll source past
  obtain ⟨hsource', hposition⟩ := cursor_source_perform s call
  refine ⟨?_, perform_registers s call, ?_, ?_, hposition, ?_⟩
  · rw [ofBytes_eq]
    exact performAll_registers _ past
  · exact hsource ▸ sound_registers s
  · exact (hsource'.trans hsource) ▸ sound_registers after
  · intro hlooks
    rcases hlooks with rfl | ⟨start, rfl⟩ <;> rfl

/-- Behind a call that takes a digit for an equals sign, and past the end, a slice that begins at
the last byte changes nothing. -/
theorem perform_sound_past_end :
    let s : Scanner :=
      ((Scanner.ofBytes [0x35, 0x2E]).performAll [.classify 0x3D, .nextToken, .advance]).2
    s.registers.Sound [0x35, 0x2E] ∧ s.registers.position = 3 ∧
      s.registers.perform (.slice (-1)) = .ok (.text ".", s.registers) := by
  intro s
  obtain ⟨_, hcall, hsound, _, _, hsame⟩ :=
    perform_sound [0x35, 0x2E] [.classify 0x3D, .nextToken, .advance] (.slice (-1))
  have hanswer : (s.perform (.slice (-1))).1 = .text "." := by decide
  rw [hsame (Or.inr ⟨-1, rfl⟩)] at hcall
  exact ⟨hsound, by decide, hcall.trans (by rw [← hanswer])⟩

end Registers
end ByteLexer

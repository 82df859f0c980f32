import ByteLexer.Proofs.Lexeme
import ByteLexer.Scan.Scanner

/-!
# One call of the scanner

A call is described by the grammar of tokens alone: behind the blanks it takes the longest lexeme
and gives the token that this lexeme denotes, or passes one byte if no lexeme begins there.
-/

namespace ByteLexer

namespace Cursor

def blanks (c : Cursor) : List UInt8 := c.rest.takeWhile isBlank

def unread (c : Cursor) : List UInt8 := c.rest.dropWhile isBlank

theorem blanks_append_unread (c : Cursor) : c.blanks ++ c.unread = c.rest :=
  List.takeWhile_append_dropWhile

theorem isBlank_of_mem_blanks {c : Cursor} {b : UInt8} (h : b ∈ c.blanks) : isBlank b = true :=
  List.mem_takeWhile_imp h

theorem not_isBlank_of_unread {c : Cursor} {b : UInt8} {after : List UInt8}
    (h : c.unread = b :: after) : isBlank b = false := by
  have hhead := List.head?_dropWhile_not isBlank c.rest
  rw [unread] at h
  rw [h] at hhead
  exact hhead

theorem rest_advanceBy_blanks (c : Cursor) (n : Nat) :
    (c.advanceBy (c.blanks.length + n)).rest = c.unread.drop n := by
  calc (c.advanceBy (c.blanks.length + n)).rest
      = (c.blanks ++ c.unread).drop (c.blanks.length + n) := by
        rw [blanks_append_unread, rest_advanceBy]
    _ = c.unread.drop n := List.drop_length_add_append n

@[simp] theorem rest_skipBlanks (c : Cursor) : c.skipBlanks.rest = c.unread :=
  c.rest_advanceBy_blanks 0

end Cursor

namespace Scanner

/-- What one call finds and where it leaves the scanner, said by the grammar. -/
inductive Reads (s : Scanner) : Option Token → Scanner → Prop where
  | token (lexeme : List UInt8) (t : Token) (hlongest : LongestLexeme s.cursor.unread lexeme)
      (hdenotes : Denotes lexeme t) :
      Reads s (some t) (s.move (·.advanceBy (s.cursor.blanks.length + lexeme.length)))
  | skipped (b : UInt8) (after : List UInt8) (hunread : s.cursor.unread = b :: after)
      (hlead : Lead.ofByte? b = none) :
      Reads s none ((s.note (.skipped b.toNat (s.cursor.position + s.cursor.blanks.length))).move
        (·.advanceBy (s.cursor.blanks.length + 1)))
  | ended (hunread : s.cursor.unread = []) :
      Reads s none (s.move (·.advanceBy (s.cursor.blanks.length + 1)))

private theorem ofInt?_toNat (b : UInt8) : Lead.ofInt? b.toNat = Lead.ofByte? b := by
  have hlt : b.toNat < 256 := b.toNat_lt
  rw [Lead.ofInt?, if_pos (by omega), Int.toNat_natCast, UInt8.ofNat_toNat]

theorem nextToken_of_lead {s : Scanner} {b : UInt8} {after : List UInt8} {lead : Lead}
    (hunread : s.cursor.unread = b :: after) (hlead : Lead.ofByte? b = some lead) :
    s.nextToken = (some (lead.token (lead.reach after) (b :: after.take (lead.reach after))),
      s.move (·.advanceBy (s.cursor.blanks.length + (lead.reach after + 1)))) := by
  have hrest : s.cursor.skipBlanks.rest = b :: after := by rw [Cursor.rest_skipBlanks, hunread]
  have hcurrent : (s.move .skipBlanks).cursor.current = some b := by
    rw [move, Cursor.current, hrest]
    rfl
  have hahead : (s.move .skipBlanks).cursor.ahead = after := by
    rw [move, Cursor.ahead, hrest]
    rfl
  have hspan : (s.move .skipBlanks).cursor.span (lead.reach after) =
      b :: after.take (lead.reach after) := by
    rw [move, Cursor.span, hrest]
    rfl
  simp only [nextToken, hcurrent, classify, ofInt?_toNat, hlead, hahead, hspan]
  simp only [move, Cursor.advance, Cursor.skipBlanks, Cursor.advanceBy_advanceBy, Cursor.blanks,
    Nat.add_assoc]

theorem nextToken_of_skipped {s : Scanner} {b : UInt8} {after : List UInt8}
    (hunread : s.cursor.unread = b :: after) (hlead : Lead.ofByte? b = none) :
    s.nextToken = (none,
      (s.note (.skipped b.toNat (s.cursor.position + s.cursor.blanks.length))).move
        (·.advanceBy (s.cursor.blanks.length + 1))) := by
  have hcurrent : (s.move .skipBlanks).cursor.current = some b := by
    rw [move, Cursor.current, Cursor.rest_skipBlanks, hunread]
    rfl
  simp only [nextToken, hcurrent, classify, ofInt?_toNat, hlead]
  simp only [move, note, Cursor.advance, Cursor.skipBlanks, Cursor.advanceBy_advanceBy,
    Cursor.blanks, Cursor.position_advanceBy]

theorem nextToken_of_ended {s : Scanner} (hunread : s.cursor.unread = []) :
    s.nextToken = (none, s.move (·.advanceBy (s.cursor.blanks.length + 1))) := by
  have hcurrent : (s.move .skipBlanks).cursor.current = none := by
    rw [move, Cursor.current, Cursor.rest_skipBlanks, hunread]
    rfl
  simp only [nextToken, hcurrent]
  simp only [move, Cursor.advance, Cursor.skipBlanks, Cursor.advanceBy_advanceBy, Cursor.blanks]

theorem rest_nextToken_of_lead {s : Scanner} {b : UInt8} {after : List UInt8} {lead : Lead}
    (hunread : s.cursor.unread = b :: after) (hlead : Lead.ofByte? b = some lead) :
    s.nextToken.2.cursor.rest = after.drop (lead.reach after) := by
  rw [nextToken_of_lead hunread hlead, move, Cursor.rest_advanceBy_blanks, hunread,
    List.drop_succ_cons]

theorem rest_nextToken_of_skipped {s : Scanner} {b : UInt8} {after : List UInt8}
    (hunread : s.cursor.unread = b :: after) (hlead : Lead.ofByte? b = none) :
    s.nextToken.2.cursor.rest = after := by
  rw [nextToken_of_skipped hunread hlead, move, note, Cursor.rest_advanceBy_blanks, hunread,
    List.drop_succ_cons, List.drop_zero]

theorem rest_nextToken_of_ended {s : Scanner} (hunread : s.cursor.unread = []) :
    s.nextToken.2.cursor.rest = [] := by
  rw [nextToken_of_ended hunread, move, Cursor.rest_advanceBy_blanks, hunread, List.drop_nil]

theorem reads_nextToken (s : Scanner) : s.Reads s.nextToken.1 s.nextToken.2 := by
  cases hunread : s.cursor.unread with
  | nil =>
    rw [nextToken_of_ended hunread]
    exact .ended hunread
  | cons b after =>
    cases hlead : Lead.ofByte? b with
    | none =>
      rw [nextToken_of_skipped hunread hlead]
      exact .skipped b after hunread hlead
    | some lead =>
      have hlongest := longestLexeme_cons hlead after
      have hlength : (b :: after.take (lead.reach after)).length = lead.reach after + 1 := by
        rw [List.length_cons, lead.length_take_reach]
      rw [nextToken_of_lead hunread hlead, ← hlength]
      exact .token _ _ (hunread ▸ hlongest) (denotes_reach hlead after)

theorem Reads.isSome_iff {s after : Scanner} {found : Option Token} (h : s.Reads found after) :
    (∃ t, found = some t) ↔ ∃ p, p ≠ [] ∧ p <+: s.cursor.unread ∧ IsLexeme p := by
  cases h with
  | token lexeme t hlongest hdenotes =>
    exact ⟨fun _ => ⟨lexeme, hdenotes.ne_nil, hlongest.2.1, hlongest.1⟩, fun _ => ⟨t, rfl⟩⟩
  | skipped b more hunread hlead =>
    refine ⟨fun hfound => absurd hfound (by simp), ?_⟩
    intro hlexeme
    obtain ⟨p, _, hpre, hlexeme⟩ := hlexeme
    rw [hunread] at hpre
    exact absurd hlexeme (not_isLexeme_of_ofByte?_eq_none hlead hpre)
  | ended hunread =>
    refine ⟨fun hfound => absurd hfound (by simp), ?_⟩
    intro hlexeme
    obtain ⟨p, hne, hpre, _⟩ := hlexeme
    rw [hunread] at hpre
    exact absurd (List.prefix_nil.mp hpre) hne

theorem Reads.of_some {s after : Scanner} {t : Token} (h : s.Reads (some t) after) :
    ∃ p, LongestLexeme s.cursor.unread p ∧ Denotes p t ∧
      after = s.move (·.advanceBy (s.cursor.blanks.length + p.length)) := by
  cases h with
  | token lexeme _ hlongest hdenotes => exact ⟨lexeme, hlongest, hdenotes, rfl⟩

private theorem Reads.of_none {s after : Scanner} (h : s.Reads none after) {b : UInt8}
    {more : List UInt8} (hunread : s.cursor.unread = b :: more) :
    after = (s.note (.skipped b.toNat (s.cursor.position + s.cursor.blanks.length))).move
      (·.advanceBy (s.cursor.blanks.length + 1)) := by
  cases h with
  | skipped c others hothers _ =>
    rw [hunread] at hothers
    cases hothers
    rfl
  | ended hnil =>
    rw [hunread] at hnil
    cases hnil

theorem Reads.source_eq {s after : Scanner} {found : Option Token} (h : s.Reads found after) :
    after.cursor.source = s.cursor.source := by
  cases h <;> rfl

/-- One call takes the longest lexeme behind the blanks and gives the one token it denotes. Where
no lexeme begins it passes one byte, and at the end it steps past the source. -/
theorem nextToken_longest_match (s : Scanner) :
    let ahead := s.cursor.source.drop s.cursor.position
    let start := s.cursor.position + (ahead.takeWhile isBlank).length
    let unread := ahead.dropWhile isBlank
    let found := s.nextToken.1
    let after := s.nextToken.2
    ((∃ t, found = some t) ↔ ∃ p, p ≠ [] ∧ p <+: unread ∧ IsLexeme p) ∧
    (∀ t, found = some t → ∃ p, LongestLexeme unread p ∧ Denotes p t ∧
      (∀ u, Denotes p u → u = t) ∧ after.cursor.position = start + p.length ∧
      after.journal = s.journal) ∧
    (∀ b more, found = none → unread = b :: more → after.cursor.position = start + 1 ∧
      after.journal = .skipped b.toNat start :: s.journal) ∧
    (unread = [] → found = none ∧
      after.cursor.position = max s.cursor.position s.cursor.source.length + 1 ∧
      after.journal = s.journal) ∧
    after.cursor.source = s.cursor.source ∧
    after.cursor.rest = s.cursor.source.drop after.cursor.position := by
  intro ahead start unread found after
  have hreads : s.Reads found after := s.reads_nextToken
  have hahead : s.cursor.rest = ahead := s.cursor.rest_eq
  have hblanks : s.cursor.blanks = ahead.takeWhile isBlank := by rw [Cursor.blanks, hahead]
  have hunread : s.cursor.unread = unread := by rw [Cursor.unread, hahead]
  have hstart : s.cursor.position + s.cursor.blanks.length = start := by rw [hblanks]
  have hsource : after.cursor.source = s.cursor.source := hreads.source_eq
  refine ⟨hunread ▸ hreads.isSome_iff, ?_, ?_, ?_, hsource, hsource ▸ after.cursor.rest_eq⟩
  · intro t hfound
    rw [hfound] at hreads
    obtain ⟨p, hlongest, hdenotes, hafter⟩ := hreads.of_some
    refine ⟨p, hunread ▸ hlongest, hdenotes, fun u hu => hu.unique hdenotes, ?_, ?_⟩
    · rw [hafter, ← hstart, Nat.add_assoc]
      rfl
    · rw [hafter]
      rfl
  · intro b more hfound hcons
    rw [hfound] at hreads
    have hafter := hreads.of_none (hunread.trans hcons)
    rw [hafter, ← hstart, Nat.add_assoc]
    exact ⟨rfl, rfl⟩
  · intro hnil
    -- All that is left are blanks.
    have hlength : s.cursor.blanks.length = s.cursor.source.length - s.cursor.position := by
      have happend := s.cursor.blanks_append_unread
      rw [hunread, hnil, List.append_nil, hahead] at happend
      rw [happend, List.length_drop]
    have hended := nextToken_of_ended (hunread.trans hnil)
    refine ⟨congrArg Prod.fst hended, ?_, congrArg (fun called => called.2.journal) hended⟩
    have hposition : after.cursor.position =
        s.cursor.position + (s.cursor.blanks.length + 1) :=
      congrArg (fun called => called.2.cursor.position) hended
    rw [hposition, hlength]
    omega

/-- Of `>==` behind a blank the call takes `>=`, whatever was read before. -/
theorem nextToken_longest_match_joined :
    let s : Scanner := ⟨⟨[0x61, 0x20, 0x3E, 0x3D, 0x3D], 1, [0x20, 0x3E, 0x3D, 0x3D], rfl⟩, []⟩
    ∃ p, LongestLexeme [0x3E, 0x3D, 0x3D] p ∧ Denotes p (.unit .opGe) ∧
      s.nextToken.2.cursor.position = 2 + p.length := by
  intro s
  obtain ⟨p, hlongest, hdenotes, _, hposition, _⟩ :=
    (nextToken_longest_match s).2.1 (.unit .opGe) (by decide)
  exact ⟨p, hlongest, hdenotes, hposition⟩

end Scanner
end ByteLexer

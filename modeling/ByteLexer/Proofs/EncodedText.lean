import ByteLexer.Proofs.Partition

/-!
# Runs over encoded text

In the encoded form of a text no token begins or ends inside a character. A lexeme begins with an
ASCII byte, and of all lexemes only comments hold other bytes; a comment ends with its line or with
the text. So every token is spelled as the text spells it.
-/

namespace ByteLexer

private theorem LongestLexeme.next_of_isComment {source lexeme tail : List UInt8}
    (h : LongestLexeme source lexeme) (hcomment : IsComment lexeme)
    (hsource : source = lexeme ++ tail) {b : UInt8} (hb : tail.head? = some b) : b = newline := by
  by_contra hne
  obtain ⟨rest, rfl⟩ := List.head?_eq_some_iff.mp hb
  obtain ⟨body, rfl, hbody⟩ := hcomment
  have hlonger : IsComment (commentMark :: body ++ [b]) :=
    ⟨body ++ [b], rfl, by simp [hbody, Ne.symm hne]⟩
  have hpre : commentMark :: body ++ [b] <+: source := ⟨rest, by simp [hsource]⟩
  have hle := h.2.2 _ (Or.inr (Or.inr (Or.inr hlonger))) hpre
  simp only [List.length_append, List.length_singleton] at hle
  omega

private theorem Denotes.isComment {bytes : List UInt8} {t : Token} (h : Denotes bytes t)
    (hkind : t.kind = .comment) : IsComment bytes := by
  cases h with
  | fixed kind spelling hfamily _ =>
    cases (hkind : kind = .comment)
    exact absurd rfl hfamily
  | identifier _ _ _ => cases hkind
  | number _ _ => cases hkind
  | comment _ hcomment => exact hcomment

private theorem Denotes.exists_chars {lexeme tail : List UInt8} {t : Token} {text : List Char}
    (ht : Denotes lexeme t) (htext : Utf8.encodeChars text = lexeme ++ tail)
    (hlongest : LongestLexeme (lexeme ++ tail) lexeme) :
    ∃ piece, Utf8.encodeChars piece = lexeme := by
  by_cases hkind : t.kind = .comment
  · cases tail with
    | nil => exact ⟨text, by rw [htext, List.append_nil]⟩
    | cons b rest =>
      have hnewline : b = newline := hlongest.next_of_isComment (ht.isComment hkind) rfl rfl
      rw [hnewline] at htext
      obtain ⟨piece, after, _, hpiece, _⟩ := Utf8.exists_chars_of_ascii rfl htext
      exact ⟨piece, hpiece⟩
  · exact ⟨t.lexeme.toList, ht.encode_lexeme hkind⟩

/-- A token found in an encoded text is a piece of the text. -/
theorem Denotes.exists_text {u : String} {front lexeme tail : List UInt8} {t : Token}
    (ht : Denotes lexeme t) (hu : Utf8.encode u = front ++ (lexeme ++ tail))
    (hlongest : LongestLexeme (lexeme ++ tail) lexeme) :
    ∃ before after : String, u = before ++ t.lexeme ++ after ∧ Utf8.encode before = front ∧
      Utf8.encode t.lexeme = lexeme := by
  obtain ⟨first, more, lead, hlexeme, hlead, _⟩ := denotes_iff.mp ht
  -- The first byte of the lexeme is ASCII, so it begins a character.
  have hfirst : Utf8.encodeChars u.toList = front ++ first :: (more ++ tail) := by
    rw [← List.cons_append, ← hlexeme]
    exact hu
  obtain ⟨before, _, _, hbefore, _⟩ :=
    Utf8.exists_chars_of_ascii (Lead.isAscii_of_ofByte? hlead) hfirst
  have hfront : Utf8.encodeChars u.toList = Utf8.encodeChars before ++ (lexeme ++ tail) := by
    rw [hbefore]
    exact hu
  obtain ⟨text, hsplit, htext⟩ := Utf8.exists_chars_of_append hfront
  -- The lexeme is the encoded form of some characters, so these are next.
  obtain ⟨piece, hpiece⟩ := ht.exists_chars htext hlongest
  rw [← hpiece] at htext
  obtain ⟨after, hpieces, _⟩ := Utf8.exists_chars_of_append htext
  have hspelled : t.lexeme = String.ofList piece := by
    rw [ht.lexeme_eq, ← hpiece, Utf8.decode, Utf8.decodeChars_encodeChars]
  refine ⟨String.ofList before, String.ofList after, ?_, ?_, ?_⟩
  · rw [← String.toList_inj, hspelled]
    simp [hsplit, hpieces]
  · rw [Utf8.encode, String.toList_ofList, hbefore]
  · rw [hspelled, Utf8.encode, String.toList_ofList, hpiece]

namespace Scanner

namespace Step

/-- The bytes of the step with its token spelled out: blanks, then the lexeme, or the byte that was
skipped. -/
def written (step : Step) : List UInt8 :=
  step.gap ++ match step.token with
    | some t => Utf8.encode t.lexeme
    | none => step.span

/-- The token stands in the text, literally, at its two positions. -/
def Spells (step : Step) (u : String) (t : Token) : Prop :=
  ∃ before after : String, u = before ++ t.lexeme ++ after ∧
    (Utf8.encode before).length = step.here.position ∧
    (Utf8.encode (before ++ t.lexeme)).length = step.after.position

end Step

theorem spells_step {u : String} {s : Scanner} (hsource : s.cursor.source = Utf8.encode u)
    {t : Token}
    (h : s.step.1.token = some t) : Utf8.encode t.lexeme = s.step.1.span ∧ s.step.1.Spells u t := by
  obtain ⟨hlongest, hdenotes, hafter⟩ := span_of_token h
  rw [unread_eq_span_append] at hlongest
  have hu := s.source_eq_append_span
  rw [hsource] at hu
  obtain ⟨before, after, htext, hbefore, hlexeme⟩ := hdenotes.exists_text hu hlongest
  have hle : s.step.1.here.position ≤ (Utf8.encode u).length := by
    have hpos := List.length_pos_iff.mpr hdenotes.ne_nil
    have hlengths := congrArg List.length hu
    rw [List.length_append, List.length_append, List.length_take] at hlengths
    omega
  have hlength : (Utf8.encode before).length = s.step.1.here.position := by
    rw [hbefore, List.length_take, Nat.min_eq_left hle]
  refine ⟨hlexeme, before, after, htext, hlength, ?_⟩
  rw [Utf8.encode_append, List.length_append, hlength, hlexeme, hafter]

theorem written_step {u : String} {s : Scanner} (hsource : s.cursor.source = Utf8.encode u) :
    s.step.1.written = s.step.1.chunk := by
  rw [Step.written, chunk_step]
  cases htoken : s.step.1.token with
  | none => rfl
  | some t => exact congrArg (s.step.1.gap ++ ·) (spells_step hsource htoken).1

/-- A run over an encoded text passes blanks and bytes that begin no lexeme, and the tokens between
them are spelled in the text as their lexemes spell them. -/
theorem run_encode (u : String) :
    let run := (ofBytes (Utf8.encode u)).run
    (run.1.map Step.written).flatten = Utf8.encode u ∧ run.2.cursor.current = none ∧
    ∀ step ∈ run.1, (∀ b ∈ step.gap, isBlank b = true) ∧
      (∀ t, step.token = some t → Utf8.encode t.lexeme = step.span ∧ step.Spells u t) ∧
      (step.token = none → step.SkipsByte ∨ step.FindsNothing) := by
  intro run
  refine ⟨?_, ?_, ?_⟩
  · have hwritten : run.1.map Step.written = run.1.map Step.chunk := by
      apply List.map_congr_left
      intro step hmem
      obtain ⟨done, s, hs, _, rfl⟩ := exists_consumed_of_mem_run hmem
      exact written_step hs.source_eq
    rw [hwritten]
    exact flatten_chunks_run (Utf8.encode u)
  · exact List.head?_eq_none_iff.mpr (rest_run (ofBytes (Utf8.encode u)))
  · intro step hmem
    obtain ⟨done, s, hs, _, rfl⟩ := exists_consumed_of_mem_run hmem
    refine ⟨?_, fun t ht => spells_step hs.source_eq ht, ?_⟩
    · intro b hb
      rw [gap_step] at hb
      exact Cursor.isBlank_of_mem_blanks hb
    · intro hnone
      rcases (finds_step hs.journal).cases with ⟨t, htoken, _⟩ | hskips | hnothing
      · rw [hnone] at htoken
        cases htoken
      · exact Or.inl hskips
      · exact Or.inr hnothing

/-- The run passes the two bytes of a letter outside comments one by one, and keeps those within the
comment together. -/
theorem run_encode_comment :
    let u := String.ofList ['é', '?', 'ü']
    let s := ofBytes (Utf8.encode u)
    let third := s.step.2.step.2.step.1
    let t := Token.payload .comment (String.ofList ['?', 'ü'])
    third ∈ s.run.1 ∧ third.token = some t ∧ Utf8.encode t.lexeme = third.span ∧
      third.span = [0x3F, 0xC3, 0xBC] ∧ third.Spells u t := by
  intro u s third t
  have hmem : third ∈ s.run.1 := by
    rw [run_of_rest_ne_nil (s := s) (by decide), run_of_rest_ne_nil (s := s.step.2) (by decide),
      run_of_rest_ne_nil (s := s.step.2.step.2) (by decide)]
    simp [third]
  have htoken : third.token = some t := by decide
  obtain ⟨hlexeme, hspells⟩ := ((run_encode u).2.2 third hmem).2.1 t htoken
  exact ⟨hmem, htoken, hlexeme, by decide, hspells⟩

end Scanner
end ByteLexer

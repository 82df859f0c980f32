import ByteLexer.Proofs.RoundTrip

/-!
# The tokens of all sources

Over all sources and all calls a scanner gives the well-formed tokens and no others. Whether a token
is one of them is decided by its kind and the characters of its text.
-/

namespace ByteLexer

namespace Token

private theorem isDigit_char_iff (c : Char) :
    c.isDigit = true ↔ 0x30 ≤ c.toNat ∧ c.toNat ≤ 0x39 := by
  simp [Char.isDigit, UInt32.le_iff_toNat_le]

private theorem isWordChar_iff (c : Char) : isWordChar c = true ↔
    0x41 ≤ c.toNat ∧ c.toNat ≤ 0x5A ∨ 0x61 ≤ c.toNat ∧ c.toNat ≤ 0x7A ∨ c.toNat = 0x5F := by
  have hunderscore : c = '_' ↔ c.toNat = 0x5F := by
    constructor
    · intro h
      rw [h]
      rfl
    · intro h
      rw [← Char.ofNat_toNat c, h]
  have halpha : c.isAlpha = (c.isUpper || c.isLower) := rfl
  have hupper : c.isUpper = decide (c.val ≥ 'A'.val ∧ c.val ≤ 'Z'.val) := rfl
  have hlower : c.isLower = (c.val ≥ 'a'.val && c.val ≤ 'z'.val) := rfl
  simp [isWordChar, halpha, hupper, hlower, UInt32.le_iff_toNat_le, hunderscore, or_assoc]

private theorem isDigit_asciiByte {c : Char} (h : c.toNat < 0x80) :
    isDigit (Utf8.asciiByte c) = c.isDigit := by
  rw [Bool.eq_iff_iff, isDigit_iff, isDigit_char_iff, Utf8.toNat_asciiByte h]

private theorem isWordByte_asciiByte {c : Char} (h : c.toNat < 0x80) :
    isWordByte (Utf8.asciiByte c) = isWordChar c := by
  rw [Bool.eq_iff_iff, isWordByte_iff, isWordChar_iff, Utf8.toNat_asciiByte h]

private theorem forall_encodeChars_iff {p : UInt8 → Bool} {q : Char → Bool}
    (hp : ∀ b, p b = true → Utf8.isAscii b = true) (hq : ∀ c, q c = true → c.toNat < 0x80)
    (hpq : ∀ {c : Char}, c.toNat < 0x80 → p (Utf8.asciiByte c) = q c) (text : List Char) :
    (∀ b ∈ Utf8.encodeChars text, p b = true) ↔ ∀ c ∈ text, q c = true := by
  constructor
  · intro h c hc
    have hascii := (Utf8.isAscii_encodeChars_iff text).mp fun b hb => hp b (h b hb)
    rw [← hpq (hascii c hc)]
    apply h
    rw [Utf8.encodeChars_of_ascii hascii]
    exact List.mem_map_of_mem hc
  · intro h b hb
    rw [Utf8.encodeChars_of_ascii fun c hc => hq c (h c hc)] at hb
    obtain ⟨c, hc, rfl⟩ := List.mem_map.mp hb
    rw [hpq (hq c (h c hc))]
    exact h c hc

private theorem isAscii_of_isWordByte {b : UInt8} (h : isWordByte b = true) :
    Utf8.isAscii b = true := by
  have hlead : Lead.ofByte? b = some .word := Lead.ofByte?_eq_some_iff.mpr h
  exact Lead.isAscii_of_ofByte? hlead

private theorem isWord_encodeChars_iff (text : List Char) :
    IsWord (Utf8.encodeChars text) ↔ text ≠ [] ∧ ∀ c ∈ text, isWordChar c = true := by
  have hword : ∀ c, isWordChar c = true → c.toNat < 0x80 := by
    intro c hc
    have hrange := (isWordChar_iff c).mp hc
    omega
  have hnil : Utf8.encodeChars text = [] ↔ text = [] := by
    rw [← Utf8.decodeChars_eq_nil_iff, Utf8.decodeChars_encodeChars]
  rw [IsWord, ne_eq, hnil,
    forall_encodeChars_iff (fun b => isAscii_of_isWordByte) hword isWordByte_asciiByte]

private theorem isNumeral_iff (text : List Char) : isNumeral text = true ↔
    ∃ whole fraction, text = whole ++ fraction ∧ whole ≠ [] ∧
      (∀ c ∈ whole, c.isDigit = true) ∧
      (fraction = [] ∨ ∃ places, fraction = '.' :: places ∧ ∀ c ∈ places, c.isDigit = true) := by
  constructor
  · intro h
    simp only [isNumeral, Bool.and_eq_true, bne_iff_ne] at h
    obtain ⟨hwhole, hfraction⟩ := h
    refine ⟨text.takeWhile Char.isDigit, text.dropWhile Char.isDigit,
      List.takeWhile_append_dropWhile.symm, hwhole, fun c hc => List.mem_takeWhile_imp hc, ?_⟩
    cases hrest : text.dropWhile Char.isDigit with
    | nil => exact Or.inl rfl
    | cons c places =>
      simp only [hrest, Bool.and_eq_true, beq_iff_eq, List.all_eq_true] at hfraction
      exact Or.inr ⟨places, by rw [hfraction.1], hfraction.2⟩
  · intro h
    obtain ⟨whole, fraction, rfl, hne, hwhole, hfraction⟩ := h
    rw [isNumeral, List.takeWhile_append_of_pos hwhole, List.dropWhile_append_of_pos hwhole]
    rcases hfraction with rfl | ⟨places, rfl, hplaces⟩
    · simpa using hne
    · simpa [hne] using hplaces

private theorem eq_dot_of_asciiByte {c : Char} (h : c.toNat < 0x80) (hc : Utf8.asciiByte c = dot) :
    c = '.' := by
  have hvalue : c.toNat = dot.toNat := by rw [← hc, Utf8.toNat_asciiByte h]
  rw [← Char.ofNat_toNat c, hvalue]
  rfl

private theorem isNumber_encodeChars_iff (text : List Char) :
    IsNumber (Utf8.encodeChars text) ↔ isNumeral text = true := by
  have hdigit : ∀ c : Char, c.isDigit = true → c.toNat < 0x80 := by
    intro c hc
    have hrange := (isDigit_char_iff c).mp hc
    omega
  have hdigits := forall_encodeChars_iff
    (fun b hb => isAscii_of_isNumber ⟨[b], [], rfl, by simp, by simpa using hb, Or.inl rfl⟩ b
      (by simp)) hdigit isDigit_asciiByte
  rw [isNumeral_iff]
  constructor
  · intro h
    have hascii := (Utf8.isAscii_encodeChars_iff text).mp (isAscii_of_isNumber h)
    obtain ⟨whole, fraction, hbytes, hne, hwhole, hfraction⟩ := h
    rw [Utf8.encodeChars_of_ascii hascii] at hbytes
    obtain ⟨front, back, rfl, rfl, rfl⟩ := List.map_eq_append_iff.mp hbytes
    obtain ⟨hfront, hback⟩ := List.forall_mem_append.mp hascii
    rw [← Utf8.encodeChars_of_ascii hfront] at hwhole
    refine ⟨front, back, rfl, by simpa using hne, (hdigits front).mp hwhole, ?_⟩
    rcases hfraction with hnil | ⟨digits, hcons, hplaces⟩
    · exact Or.inl (List.map_eq_nil_iff.mp hnil)
    · obtain ⟨c, places, rfl, hc, rfl⟩ := List.map_eq_cons_iff.mp hcons
      obtain ⟨hsmall, hrest⟩ := List.forall_mem_cons.mp hback
      rw [← Utf8.encodeChars_of_ascii hrest] at hplaces
      exact Or.inr ⟨places, by rw [eq_dot_of_asciiByte hsmall hc], (hdigits places).mp hplaces⟩
  · intro h
    obtain ⟨whole, fraction, rfl, hne, hwhole, hfraction⟩ := h
    refine ⟨Utf8.encodeChars whole, Utf8.encodeChars fraction, Utf8.encodeChars_append _ _, ?_,
      (hdigits whole).mpr hwhole, ?_⟩
    · rwa [ne_eq, ← Utf8.decodeChars_eq_nil_iff, Utf8.decodeChars_encodeChars]
    · rcases hfraction with rfl | ⟨places, rfl, hplaces⟩
      · exact Or.inl rfl
      · exact Or.inr ⟨Utf8.encodeChars places, rfl, (hdigits places).mpr hplaces⟩

private theorem isScannable_unit_iff (kind : Kind) :
    (unit kind).isScannable = true ↔ kind.family? ≠ none := by
  cases kind <;> simp [isScannable, unit, Kind.family?]

private theorem isScannable_identifier_iff (text : String) :
    (payload .identifier text).isScannable = true ↔
      IsWord (Utf8.encode text) ∧ Kind.keyword? text = none := by
  rw [Utf8.encode, isWord_encodeChars_iff]
  simp [isScannable, payload]

private theorem isScannable_number_iff (text : String) :
    (payload .numLiteral text).isScannable = true ↔ IsNumber (Utf8.encode text) := by
  rw [Utf8.encode, isNumber_encodeChars_iff]
  rfl

private theorem isScannable_comment_iff (text : String) :
    (payload .comment text).isScannable = true ↔
      ∃ body, text = String.ofList ('?' :: body) ∧ '\n' ∉ body := by
  simp only [isScannable, payload, Bool.and_eq_true, beq_iff_eq, List.head?_eq_some_iff]
  constructor
  · intro h
    obtain ⟨⟨body, hbody⟩, hline⟩ := h
    refine ⟨body, by rw [← hbody, String.ofList_toList], ?_⟩
    simpa [hbody] using hline
  · intro h
    obtain ⟨body, rfl, hline⟩ := h
    exact ⟨⟨body, by simp⟩, by simpa using hline⟩

theorem isScannable_iff (t : Token) : t.isScannable = true ↔ t.WellFormed := by
  obtain ⟨kind, text⟩ := t
  constructor
  · intro h
    cases text with
    | none => exact .fixed kind ((isScannable_unit_iff kind).mp h)
    | some text =>
      cases kind with
      | identifier =>
        obtain ⟨hword, hkeyword⟩ := (isScannable_identifier_iff text).mp h
        exact .identifier text hword hkeyword
      | numLiteral => exact .number text ((isScannable_number_iff text).mp h)
      | comment =>
        obtain ⟨body, rfl, hline⟩ := (isScannable_comment_iff text).mp h
        exact .comment body hline
      | _ => cases h
  · intro h
    cases h with
    | fixed _ hfamily => exact (isScannable_unit_iff kind).mpr hfamily
    | identifier text hword hkeyword =>
      exact (isScannable_identifier_iff text).mpr ⟨hword, hkeyword⟩
    | number text hnumber => exact (isScannable_number_iff text).mpr hnumber
    | comment body hline => exact (isScannable_comment_iff _).mpr ⟨body, rfl, hline⟩

example : (payload .numLiteral "1.").isScannable = true ∧
    (payload .numLiteral ".5").isScannable = false ∧
    (payload .identifier "let").isScannable = false := by decide

private theorem WellFormed.kind_ne {t : Token} (h : t.WellFormed) :
    t.kind ≠ .strLiteral ∧ t.kind ≠ .eof := by
  cases h with
  | fixed kind hfamily => constructor <;> (rintro rfl; exact hfamily rfl)
  | _ => exact ⟨nofun, nofun⟩

theorem WellFormed.text_eq_none_iff {t : Token} (h : t.WellFormed) :
    t.text = none ↔ t.kind.hasPayload = false := by
  cases h with
  | fixed kind hfamily => cases kind <;> first | exact absurd rfl hfamily | decide
  | _ => simp [payload, Kind.hasPayload, Kind.spelling?]

private theorem WellFormed.lexeme_ne {t : Token} (h : t.WellFormed) : t.lexeme ≠ "" := by
  intro hempty
  apply h.denotes.ne_nil
  rw [hempty, Utf8.encode_empty]

private theorem not_isBlankChar {c : Char} (h : 0x20 < c.toNat) : isBlankChar c = false := by
  rw [← Bool.not_eq_true]
  intro hblank
  simp only [isBlankChar, Bool.or_eq_true, beq_iff_eq] at hblank
  rcases hblank with (((rfl | rfl) | rfl) | rfl) | rfl <;> exact absurd h (by decide)

private theorem WellFormed.chars {t : Token} (h : t.WellFormed) (hkind : t.kind ≠ .comment) :
    ∀ c ∈ t.lexeme.toList, c.toNat < 0x80 ∧ isBlankChar c = false := by
  suffices hrange : ∀ c ∈ t.lexeme.toList, 0x20 < c.toNat ∧ c.toNat < 0x80 from fun c hc =>
    ⟨(hrange c hc).2, not_isBlankChar (hrange c hc).1⟩
  cases h with
  | fixed kind hfamily =>
    have htable : ∀ kind ∈ Kind.all, (unit kind).lexeme.toList.all
        (fun c => decide (0x20 < c.toNat ∧ c.toNat < 0x80)) = true := by decide
    intro c hc
    exact of_decide_eq_true (List.all_eq_true.mp (htable kind kind.mem_all) c hc)
  | identifier text hword hkeyword =>
    intro c hc
    have hrange := (isWordChar_iff c).mp (((isWord_encodeChars_iff text.toList).mp hword).2 c hc)
    omega
  | number text hnumber =>
    intro c hc
    have hdigit : ∀ d : Char, d.isDigit = true → 0x20 < d.toNat ∧ d.toNat < 0x80 := by
      intro d hd
      have hrange := (isDigit_char_iff d).mp hd
      omega
    obtain ⟨whole, fraction, htext, _, hwhole, hfraction⟩ :=
      (isNumeral_iff text.toList).mp ((isNumber_encodeChars_iff text.toList).mp hnumber)
    have hmem : c ∈ whole ++ fraction := htext ▸ hc
    rcases List.mem_append.mp hmem with hmem | hmem
    · exact hdigit c (hwhole c hmem)
    · rcases hfraction with rfl | ⟨places, rfl, hplaces⟩
      · exact absurd hmem List.not_mem_nil
      · rcases List.mem_cons.mp hmem with rfl | hmem
        · decide
        · exact hdigit c (hplaces c hmem)
  | comment body hline => exact absurd rfl hkind

theorem WellFormed.newline_not_mem_lexeme {t : Token} (h : t.WellFormed) :
    '\n' ∉ t.lexeme.toList := by
  by_cases hkind : t.kind = .comment
  · cases h with
    | fixed kind hfamily =>
      obtain rfl : kind = .comment := hkind
      exact absurd rfl hfamily
    | identifier text hword hkeyword => cases hkind
    | number text hnumber => cases hkind
    | comment body hline => simpa [lexeme, payload, Kind.spelling?] using hline
  · intro hmem
    exact absurd (h.chars hkind '\n' hmem).2 (by decide)

end Token

/-- Lexemes stay within their line. -/
theorem Denotes.newline_not_mem {bytes : List UInt8} {t : Token} (h : Denotes bytes t) :
    newline ∉ bytes := by
  rw [← newline_not_mem_decode_iff, ← Utf8.toList_decode, ← h.lexeme_eq]
  exact h.wellFormed.newline_not_mem_lexeme

namespace Scanner

theorem wellFormed_of_nextToken {s : Scanner} {t : Token} (h : s.nextToken.1 = some t) :
    t.WellFormed := by
  have hreads := s.reads_nextToken
  rw [h] at hreads
  obtain ⟨lexeme, _, hdenotes, _⟩ := hreads.of_some
  exact hdenotes.wellFormed

/-- The first call on the lexeme of a well-formed token gives the token. -/
theorem nextToken_encode_lexeme {t : Token} (h : t.WellFormed) :
    (ofBytes (Utf8.encode t.lexeme)).nextToken.1 = some t := by
  obtain ⟨b, more, lead, hbytes, hlead, haccepts, htoken⟩ := denotes_iff.mp h.denotes
  have hblank : ¬ isBlank b = true := by
    intro hb
    rw [Lead.ofByte?_of_isBlank hb] at hlead
    cases hlead
  have hunread : (ofBytes (Utf8.encode t.lexeme)).cursor.unread = b :: more :=
    (congrArg (List.dropWhile isBlank) hbytes).trans (List.dropWhile_cons_of_neg hblank)
  rw [nextToken_of_lead hunread hlead, Lead.accepts_iff_reach.mp haccepts, List.take_length,
    ← hbytes, ← htoken]

/-- Over all sources the calls give the scannable tokens and no others. So none is a string or the
end of the source, payload kinds and only these carry a text, no lexeme is empty, and outside
comments there is neither a blank nor a character beyond ASCII. -/
theorem stepAt_token_iff :
    (∀ t : Token, (∃ source k, ((ofBytes source).stepAt k).token = some t) ↔
      t.isScannable = true) ∧
    ∀ (source : List UInt8) (k : Nat) (t : Token), ((ofBytes source).stepAt k).token = some t →
      t.kind ≠ .strLiteral ∧ t.kind ≠ .eof ∧ (t.text = none ↔ t.kind.hasPayload = false) ∧
      t.lexeme ≠ "" ∧
      (t.kind ≠ .comment → ∀ c ∈ t.lexeme.toList, c.toNat < 0x80 ∧ isBlankChar c = false) := by
  constructor
  · intro t
    rw [t.isScannable_iff]
    constructor
    · intro hgiven
      obtain ⟨source, k, h⟩ := hgiven
      exact wellFormed_of_nextToken h
    · intro h
      exact ⟨Utf8.encode t.lexeme, 0, nextToken_encode_lexeme h⟩
  · intro source k t h
    have hwell : t.WellFormed := wellFormed_of_nextToken h
    exact ⟨hwell.kind_ne.1, hwell.kind_ne.2, hwell.text_eq_none_iff, hwell.lexeme_ne, hwell.chars⟩

/-- Behind a byte of no token and a blank the ill-formed byte of a comment is replaced. -/
theorem stepAt_token_iff_comment :
    let t := Token.payload .comment (String.ofList ['?', Utf8.replacement])
    ((ofBytes [0x24, 0x20, 0x3F, 0xFF, 0x0A]).stepAt 1).token = some t ∧ t.isScannable = true ∧
      t.text ≠ none := by
  intro t
  have hgiven : ((ofBytes [0x24, 0x20, 0x3F, 0xFF, 0x0A]).stepAt 1).token = some t := by decide
  have htext := (stepAt_token_iff.2 _ 1 t hgiven).2.2.1
  refine ⟨hgiven, (stepAt_token_iff.1 t).mp ⟨_, 1, hgiven⟩, ?_⟩
  rw [ne_eq, htext]
  decide

end Scanner
end ByteLexer

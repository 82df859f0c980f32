import ByteLexer.Proofs.Decoding
import ByteLexer.Proofs.Reach
import ByteLexer.Token.Grammar

/-!
# Lexemes by their first byte

The first byte of a lexeme fixes its lead, and what follows is what the lead accepts. From this the
longest lexeme of a source, the one token a lexeme denotes and the lexemes of well-formed tokens are
read off.
-/

namespace ByteLexer

theorem isDigit_iff {b : UInt8} : isDigit b = true ↔ 0x30 ≤ b.toNat ∧ b.toNat ≤ 0x39 := by
  simp [isDigit, UInt8.le_iff_toNat_le]

theorem isWordByte_iff {b : UInt8} : isWordByte b = true ↔
    0x41 ≤ b.toNat ∧ b.toNat ≤ 0x5A ∨ 0x61 ≤ b.toNat ∧ b.toNat ≤ 0x7A ∨ b.toNat = 0x5F := by
  simp [isWordByte, UInt8.le_iff_toNat_le, ← UInt8.toNat_inj, or_assoc]

theorem isWordByte_eq_false_of_isDigit {b : UInt8} (h : isDigit b = true) :
    isWordByte b = false := by
  have hrange := isDigit_iff.mp h
  rw [← Bool.not_eq_true, isWordByte_iff]
  omega

theorem isDigit_eq_false_of_isWordByte {b : UInt8} (h : isWordByte b = true) :
    isDigit b = false := by
  have hrange := isWordByte_iff.mp h
  rw [← Bool.not_eq_true, isDigit_iff]
  omega

namespace Lead

/-- That a token of this lead may begin with the byte, said without the order of the checks. -/
def AnnouncedBy (b : UInt8) : Lead → Prop
  | mark kind => (b, kind) ∈ marks
  | pair alone joined => (b, alone, joined) ∈ pairs
  | comment => b = commentMark
  | word => isWordByte b = true
  | number => isDigit b = true

private theorem mem_of_lookup {α : Type} {table : List (UInt8 × α)} {b : UInt8} {entry : α}
    (h : table.lookup b = some entry) : (b, entry) ∈ table := by
  obtain ⟨before, after, rfl, _⟩ := List.lookup_eq_some_iff.mp h
  simp

private theorem announcedBy_of_ofByte? {b : UInt8} {lead : Lead} (h : ofByte? b = some lead) :
    lead.AnnouncedBy b := by
  simp only [ofByte?] at h
  cases hmark : marks.lookup b with
  | some kind =>
    simp only [hmark, Option.some.injEq] at h
    subst h
    exact mem_of_lookup hmark
  | none =>
    cases hpair : pairs.lookup b with
    | some kinds =>
      simp only [hmark, hpair, Option.some.injEq] at h
      subst h
      exact mem_of_lookup hpair
    | none =>
      simp only [hmark, hpair] at h
      split_ifs at h with hcomment hword hdigit <;> cases h
      · exact hcomment
      · exact hword
      · exact hdigit

private theorem lookup_eq_none_of_class {α : Type} {table : List (UInt8 × α)} {p : UInt8 → Bool}
    (htable : ∀ entry ∈ table, p entry.1 = false) {b : UInt8} (hb : p b = true) :
    table.lookup b = none := by
  rw [List.lookup_eq_none_iff]
  intro entry hentry
  simp only [bne_iff_ne, ne_eq]
  intro heq
  rw [heq, htable entry hentry] at hb
  cases hb

private theorem ofByte?_of_class {p : UInt8 → Bool} (hmarks : ∀ entry ∈ marks, p entry.1 = false)
    (hpairs : ∀ entry ∈ pairs, p entry.1 = false) (hmark : p commentMark = false) {b : UInt8}
    (hb : p b = true) :
    ofByte? b = if isWordByte b then some word else if isDigit b then some number else none := by
  have hcomment : b ≠ commentMark := by
    intro heq
    rw [heq, hmark] at hb
    cases hb
  simp only [ofByte?, lookup_eq_none_of_class hmarks hb, lookup_eq_none_of_class hpairs hb,
    hcomment, if_false]

private theorem ofByte?_of_announcedBy {b : UInt8} {lead : Lead} (h : lead.AnnouncedBy b) :
    ofByte? b = some lead := by
  cases lead with
  | mark kind =>
    have htable : ∀ entry ∈ marks, ofByte? entry.1 = some (mark entry.2) := by decide
    exact htable _ h
  | pair alone joined =>
    have htable : ∀ entry ∈ pairs, ofByte? entry.1 = some (pair entry.2.1 entry.2.2) := by decide
    exact htable _ h
  | comment => rw [show b = commentMark from h]; rfl
  | word =>
    have hword : isWordByte b = true := h
    rw [ofByte?_of_class (by decide) (by decide) rfl hword, if_pos hword]
  | number =>
    have hdigit : isDigit b = true := h
    have hword : ¬ isWordByte b = true := by simp [isWordByte_eq_false_of_isDigit hdigit]
    rw [ofByte?_of_class (by decide) (by decide) rfl hdigit, if_neg hword, if_pos hdigit]

theorem ofByte?_eq_some_iff {b : UInt8} {lead : Lead} :
    ofByte? b = some lead ↔ lead.AnnouncedBy b :=
  ⟨announcedBy_of_ofByte?, ofByte?_of_announcedBy⟩

theorem ofByte?_of_isBlank {b : UInt8} (h : isBlank b = true) : ofByte? b = none := by
  simp only [isBlank, Bool.or_eq_true, beq_iff_eq] at h
  rcases h with (((rfl | rfl) | rfl) | rfl) | rfl <;> rfl

theorem isAscii_of_ofByte? {b : UInt8} {lead : Lead} (h : ofByte? b = some lead) :
    Utf8.isAscii b = true := by
  have hannounced := ofByte?_eq_some_iff.mp h
  cases lead with
  | mark kind =>
    have htable : ∀ entry ∈ marks, Utf8.isAscii entry.1 = true := by decide
    exact htable _ hannounced
  | pair alone joined =>
    have htable : ∀ entry ∈ pairs, Utf8.isAscii entry.1 = true := by decide
    exact htable _ hannounced
  | comment => rw [show b = commentMark from hannounced]; rfl
  | word =>
    have hrange := isWordByte_iff.mp hannounced
    exact decide_eq_true (by omega)
  | number =>
    have hrange := isDigit_iff.mp hannounced
    exact decide_eq_true (by omega)

theorem accepts_iff_reach {lead : Lead} {more : List UInt8} :
    lead.Accepts more ↔ lead.reach more = more.length := by
  constructor
  · intro h
    have hstop := (reach_append_eq_length_iff h []).mpr (by simp)
    rwa [List.append_nil] at hstop
  · intro h
    have haccepts := lead.accepts_take_reach more
    rwa [h, List.take_length] at haccepts

end Lead

private theorem keyword_spelling {kind : Kind} {spelling : String}
    (hfamily : kind.family? = some .keyword) (hspelling : kind.spelling? = some spelling) :
    IsWord (Utf8.encode spelling) ∧ Kind.keyword? spelling = some kind := by
  have htable : ∀ entry ∈ Kind.spellings .keyword, Utf8.encode entry.1 ≠ [] ∧
      (Utf8.encode entry.1).all isWordByte = true ∧ Kind.keyword? entry.1 = some entry.2 := by
    decide
  have hentry : (spelling, kind) ∈ Kind.spellings .keyword := by
    refine List.mem_filterMap.mpr ⟨kind, List.mem_filter.mpr ⟨kind.mem_all, ?_⟩, ?_⟩
    · exact decide_eq_true hfamily
    · rw [hspelling]
      rfl
  obtain ⟨hne, hall, hkeyword⟩ := htable _ hentry
  exact ⟨⟨hne, List.all_eq_true.mp hall⟩, hkeyword⟩

private theorem read_spelling {kind : Kind} {spelling : String} (hfamily : kind.family? ≠ none)
    (hspelling : kind.spelling? = some spelling) :
    ∃ b more lead, Utf8.encode spelling = b :: more ∧ Lead.ofByte? b = some lead ∧
      lead.Accepts more ∧ Token.unit kind = lead.token more.length (b :: more) := by
  by_cases hkeyword : kind.family? = some .keyword
  · obtain ⟨hword, hfound⟩ := keyword_spelling hkeyword hspelling
    obtain ⟨b, more, hbytes⟩ := List.exists_cons_of_ne_nil hword.1
    have hbyte : ∀ c ∈ b :: more, isWordByte c = true := hbytes ▸ hword.2
    refine ⟨b, more, .word, hbytes, Lead.ofByte?_eq_some_iff.mpr (hbyte b (by simp)),
      fun c hc => hbyte c (by simp [hc]), ?_⟩
    rw [← hbytes, Lead.token, Utf8.decode_encode, Lead.wordToken, hfound]
  · cases kind <;> first
      | exact absurd rfl hfamily
      | exact absurd rfl hkeyword
      | (cases hspelling; exact ⟨_, _, _, rfl, rfl, Lead.accepts_iff_reach.mpr rfl, rfl⟩)

private theorem isAscii_of_isWord {bytes : List UInt8} (h : IsWord bytes) :
    ∀ b ∈ bytes, Utf8.isAscii b = true := by
  intro b hb
  have hlead : Lead.ofByte? b = some .word := Lead.ofByte?_eq_some_iff.mpr (h.2 b hb)
  exact Lead.isAscii_of_ofByte? hlead

theorem Kind.keyword?_eq_some {word : String} {kind : Kind} (h : Kind.keyword? word = some kind) :
    kind.family? = some .keyword ∧ kind.spelling? = some word := by
  obtain ⟨before, after, htable, _⟩ := List.lookup_eq_some_iff.mp h
  have hmem : (word, kind) ∈ Kind.spellings .keyword := by rw [htable]; simp
  obtain ⟨found, hfound, hentry⟩ := List.mem_filterMap.mp hmem
  obtain ⟨spelling, hspelling, hpair⟩ := Option.map_eq_some_iff.mp hentry
  cases hpair
  exact ⟨by simpa using (List.mem_filter.mp hfound).2, hspelling⟩

private theorem denotes_mark {b : UInt8} {kind : Kind} (h : (b, kind) ∈ Lead.marks) :
    Denotes [b] (.unit kind) := by
  have htable : ∀ entry ∈ Lead.marks, entry.2.family? ≠ none ∧
      entry.2.spelling?.map Utf8.encode = some [entry.1] := by decide
  obtain ⟨hfamily, hencode⟩ := htable _ h
  obtain ⟨spelling, hspelling, hbytes⟩ := Option.map_eq_some_iff.mp hencode
  rw [← hbytes]
  exact .fixed kind spelling hfamily hspelling

private theorem denotes_pair {b : UInt8} {alone joined : Kind}
    (h : (b, alone, joined) ∈ Lead.pairs) :
    Denotes [b] (.unit alone) ∧ Denotes [b, equals] (.unit joined) := by
  have htable : ∀ entry ∈ Lead.pairs,
      (entry.2.1.family? ≠ none ∧ entry.2.1.spelling?.map Utf8.encode = some [entry.1]) ∧
      entry.2.2.family? ≠ none ∧
        entry.2.2.spelling?.map Utf8.encode = some [entry.1, equals] := by decide
  obtain ⟨⟨hfamily, hencode⟩, hfamily', hencode'⟩ := htable _ h
  obtain ⟨spelling, hspelling, hbytes⟩ := Option.map_eq_some_iff.mp hencode
  obtain ⟨spelling', hspelling', hbytes'⟩ := Option.map_eq_some_iff.mp hencode'
  rw [← hbytes, ← hbytes']
  exact ⟨.fixed alone spelling hfamily hspelling, .fixed joined spelling' hfamily' hspelling'⟩

private theorem denotes_word {bytes : List UInt8} (h : IsWord bytes) :
    Denotes bytes (Lead.wordToken (Utf8.decode bytes)) := by
  rw [Lead.wordToken]
  cases hkeyword : Kind.keyword? (Utf8.decode bytes) with
  | none => exact .identifier bytes h hkeyword
  | some kind =>
    obtain ⟨hfamily, hspelling⟩ := Kind.keyword?_eq_some hkeyword
    have hfixed := Denotes.fixed kind (Utf8.decode bytes) (by rw [hfamily]; simp) hspelling
    rwa [Utf8.encode_decode_of_ascii (isAscii_of_isWord h)] at hfixed

private theorem Denotes.read {bytes : List UInt8} {t : Token} (h : Denotes bytes t) :
    ∃ b more lead, bytes = b :: more ∧ Lead.ofByte? b = some lead ∧
      lead.Accepts more ∧ t = lead.token more.length bytes := by
  cases h with
  | fixed kind spelling hfamily hspelling =>
    obtain ⟨b, more, lead, hencode, hlead, haccepts, htoken⟩ := read_spelling hfamily hspelling
    exact ⟨b, more, lead, hencode, hlead, haccepts, hencode ▸ htoken⟩
  | identifier _ hword hkeyword =>
    cases bytes with
    | nil => exact absurd rfl hword.1
    | cons b more =>
      refine ⟨b, more, .word, rfl, Lead.ofByte?_eq_some_iff.mpr (hword.2 b (by simp)),
        fun c hc => hword.2 c (by simp [hc]), ?_⟩
      simp only [Lead.token, Lead.wordToken, hkeyword]
  | number _ hnumber =>
    obtain ⟨whole, fraction, rfl, hwhole, hdigits, hfraction⟩ := hnumber
    cases whole with
    | nil => exact absurd rfl hwhole
    | cons b digits =>
      exact ⟨b, digits ++ fraction, .number, rfl,
        Lead.ofByte?_eq_some_iff.mpr (hdigits b (by simp)),
        ⟨digits, fraction, rfl, fun d hd => hdigits d (by simp [hd]), hfraction⟩, rfl⟩
  | comment _ hcomment =>
    obtain ⟨body, rfl, hbody⟩ := hcomment
    exact ⟨commentMark, body, .comment, rfl, rfl, hbody, rfl⟩

private theorem denotes_of_accepts {b : UInt8} {more : List UInt8} {lead : Lead}
    (hlead : Lead.ofByte? b = some lead) (haccepts : lead.Accepts more) :
    Denotes (b :: more) (lead.token more.length (b :: more)) := by
  have hannounced := Lead.ofByte?_eq_some_iff.mp hlead
  cases lead with
  | mark kind =>
    cases (haccepts : more = [])
    exact denotes_mark hannounced
  | pair alone joined =>
    rcases haccepts with rfl | rfl
    · exact (denotes_pair hannounced).1
    · exact (denotes_pair hannounced).2
  | comment =>
    cases (hannounced : b = commentMark)
    exact .comment _ ⟨more, rfl, haccepts⟩
  | word =>
    refine denotes_word ⟨by simp, ?_⟩
    intro c hc
    rcases List.mem_cons.mp hc with rfl | hc
    · exact hannounced
    · exact haccepts c hc
  | number =>
    obtain ⟨digits, fraction, rfl, hdigits, hfraction⟩ := haccepts
    refine .number _ ⟨b :: digits, fraction, rfl, by simp, ?_, hfraction⟩
    intro d hd
    rcases List.mem_cons.mp hd with rfl | hd
    · exact hannounced
    · exact hdigits d hd

/-- A lexeme is a first byte with what its lead accepts, and denotes what the lead makes of it. -/
theorem denotes_iff {bytes : List UInt8} {t : Token} :
    Denotes bytes t ↔ ∃ b more lead, bytes = b :: more ∧ Lead.ofByte? b = some lead ∧
      lead.Accepts more ∧ t = lead.token more.length bytes := by
  constructor
  · exact Denotes.read
  · intro h
    obtain ⟨b, more, lead, rfl, hlead, haccepts, rfl⟩ := h
    exact denotes_of_accepts hlead haccepts

theorem Denotes.unique {bytes : List UInt8} {t u : Token} (ht : Denotes bytes t)
    (hu : Denotes bytes u) : t = u := by
  obtain ⟨b, more, lead, rfl, hlead, _, rfl⟩ := denotes_iff.mp ht
  obtain ⟨c, others, lead', heq, hlead', _, rfl⟩ := denotes_iff.mp hu
  cases heq
  rw [hlead] at hlead'
  rw [Option.some.inj hlead']

theorem Denotes.ne_nil {bytes : List UInt8} {t : Token} (h : Denotes bytes t) : bytes ≠ [] := by
  obtain ⟨b, more, lead, rfl, _⟩ := denotes_iff.mp h
  simp

/-- The bytes that a lead reaches denote the token it makes of them. -/
theorem denotes_reach {b : UInt8} {lead : Lead} (hlead : Lead.ofByte? b = some lead)
    (after : List UInt8) : Denotes (b :: after.take (lead.reach after))
      (lead.token (lead.reach after) (b :: after.take (lead.reach after))) := by
  apply denotes_iff.mpr
  refine ⟨b, _, lead, rfl, hlead, lead.accepts_take_reach after, ?_⟩
  rw [lead.length_take_reach]

private theorem isLexeme_of_fixed {kind : Kind} {spelling : String} (hfamily : kind.family? ≠ none)
    (hspelling : kind.spelling? = some spelling) : IsLexeme (Utf8.encode spelling) := by
  obtain ⟨family, hsome⟩ := Option.ne_none_iff_exists'.mp hfamily
  cases family with
  | operator => exact Or.inl ⟨kind, spelling, Or.inl hsome, hspelling, rfl⟩
  | delimiter => exact Or.inl ⟨kind, spelling, Or.inr hsome, hspelling, rfl⟩
  | keyword => exact Or.inr (Or.inl (keyword_spelling hsome hspelling).1)

theorem isLexeme_iff_denotes {bytes : List UInt8} : IsLexeme bytes ↔ ∃ t, Denotes bytes t := by
  constructor
  · intro h
    rcases h with ⟨kind, spelling, hfamily, hspelling, rfl⟩ | hword | hnumber | hcomment
    · exact ⟨_, .fixed kind spelling (by rcases hfamily with h | h <;> rw [h] <;> simp) hspelling⟩
    · exact ⟨_, denotes_word hword⟩
    · exact ⟨_, .number bytes hnumber⟩
    · exact ⟨_, .comment bytes hcomment⟩
  · intro hdenotes
    obtain ⟨t, h⟩ := hdenotes
    cases h with
    | fixed kind spelling hfamily hspelling => exact isLexeme_of_fixed hfamily hspelling
    | identifier _ hword _ => exact Or.inr (Or.inl hword)
    | number _ hnumber => exact Or.inr (Or.inr (Or.inl hnumber))
    | comment _ hcomment => exact Or.inr (Or.inr (Or.inr hcomment))

private theorem isLexeme_cons_iff {b : UInt8} {more : List UInt8} :
    IsLexeme (b :: more) ↔ ∃ lead, Lead.ofByte? b = some lead ∧ lead.Accepts more := by
  rw [isLexeme_iff_denotes]
  constructor
  · intro hdenotes
    obtain ⟨t, h⟩ := hdenotes
    obtain ⟨c, others, lead, heq, hlead, haccepts, _⟩ := denotes_iff.mp h
    cases heq
    exact ⟨lead, hlead, haccepts⟩
  · intro h
    obtain ⟨lead, hlead, haccepts⟩ := h
    exact ⟨_, denotes_iff.mpr ⟨b, more, lead, rfl, hlead, haccepts, rfl⟩⟩

theorem isLexeme_cons_iff_accepts {b : UInt8} {more : List UInt8} {lead : Lead}
    (hlead : Lead.ofByte? b = some lead) : IsLexeme (b :: more) ↔ lead.Accepts more := by
  rw [isLexeme_cons_iff]
  constructor
  · intro h
    obtain ⟨lead', hlead', haccepts⟩ := h
    cases hlead.symm.trans hlead'
    exact haccepts
  · intro h
    exact ⟨lead, hlead, h⟩

private theorem not_isLexeme_nil : ¬ IsLexeme [] := by
  rw [isLexeme_iff_denotes]
  intro hdenotes
  obtain ⟨t, h⟩ := hdenotes
  exact h.ne_nil rfl

theorem longestLexeme_cons {b : UInt8} {lead : Lead} (hlead : Lead.ofByte? b = some lead)
    (after : List UInt8) : LongestLexeme (b :: after) (b :: after.take (lead.reach after)) := by
  refine ⟨isLexeme_cons_iff.mpr ⟨lead, hlead, lead.accepts_take_reach after⟩, ?_, ?_⟩
  · exact List.cons_prefix_cons.mpr ⟨rfl, List.take_prefix _ _⟩
  · intro other hother hpre
    cases other with
    | nil => simp
    | cons c others =>
      obtain ⟨rfl, htail⟩ := List.cons_prefix_cons.mp hpre
      obtain ⟨lead', hlead', haccepts⟩ := isLexeme_cons_iff.mp hother
      cases hlead.symm.trans hlead'
      have hle := Lead.length_le_reach haccepts htail
      rw [List.length_cons, List.length_cons, lead.length_take_reach]
      omega

theorem not_isLexeme_of_ofByte?_eq_none {b : UInt8} (hlead : Lead.ofByte? b = none)
    {after bytes : List UInt8} (hpre : bytes <+: b :: after) : ¬ IsLexeme bytes := by
  intro hlexeme
  cases bytes with
  | nil => exact not_isLexeme_nil hlexeme
  | cons c others =>
    obtain ⟨rfl, _⟩ := List.cons_prefix_cons.mp hpre
    obtain ⟨lead, hsome, _⟩ := isLexeme_cons_iff.mp hlexeme
    rw [hlead] at hsome
    cases hsome

theorem Denotes.lexeme_eq {bytes : List UInt8} {t : Token} (h : Denotes bytes t) :
    t.lexeme = Utf8.decode bytes := by
  cases h with
  | fixed kind spelling hfamily hspelling =>
    rw [Utf8.decode_encode, Token.lexeme, Token.unit, hspelling]
  | identifier _ _ _ => rfl
  | number _ _ => rfl
  | comment _ _ => rfl

theorem isAscii_of_isNumber {bytes : List UInt8} (h : IsNumber bytes) :
    ∀ b ∈ bytes, Utf8.isAscii b = true := by
  have hdigit : ∀ b, isDigit b = true → Utf8.isAscii b = true := by
    intro b hb
    have hlead : Lead.ofByte? b = some .number := Lead.ofByte?_eq_some_iff.mpr hb
    exact Lead.isAscii_of_ofByte? hlead
  obtain ⟨whole, fraction, rfl, _, hwhole, hfraction⟩ := h
  intro b hb
  rcases List.mem_append.mp hb with hb | hb
  · exact hdigit b (hwhole b hb)
  · rcases hfraction with rfl | ⟨places, rfl, hplaces⟩
    · exact absurd hb List.not_mem_nil
    · rcases List.mem_cons.mp hb with rfl | hb
      · rfl
      · exact hdigit b (hplaces b hb)

/-- Only comments may hold bytes that their text does not give back. -/
theorem Denotes.encode_lexeme {bytes : List UInt8} {t : Token} (h : Denotes bytes t)
    (hkind : t.kind ≠ .comment) : Utf8.encode t.lexeme = bytes := by
  rw [h.lexeme_eq]
  cases h with
  | fixed kind spelling _ _ => rw [Utf8.decode_encode]
  | identifier _ hword _ => exact Utf8.encode_decode_of_ascii (isAscii_of_isWord hword)
  | number _ hnumber => exact Utf8.encode_decode_of_ascii (isAscii_of_isNumber hnumber)
  | comment _ _ => exact absurd rfl hkind

theorem newline_not_mem_decode_iff (bytes : List UInt8) :
    '\n' ∉ Utf8.decodeChars bytes ↔ newline ∉ bytes := by
  have hascii : Utf8.isAscii newline = true := rfl
  exact not_congr (Utf8.mem_decodeChars_iff_of_ascii hascii bytes)

theorem Denotes.wellFormed {bytes : List UInt8} {t : Token} (h : Denotes bytes t) :
    t.WellFormed := by
  cases h with
  | fixed kind spelling hfamily _ => exact .fixed kind hfamily
  | identifier _ hword hkeyword =>
    refine .identifier _ ?_ hkeyword
    rwa [Utf8.encode_decode_of_ascii (isAscii_of_isWord hword)]
  | number _ hnumber =>
    refine .number _ ?_
    rwa [Utf8.encode_decode_of_ascii (isAscii_of_isNumber hnumber)]
  | comment _ hcomment =>
    obtain ⟨body, rfl, hbody⟩ := hcomment
    rw [Utf8.decode, Utf8.decodeChars_cons_of_ascii rfl]
    exact .comment (Utf8.decodeChars body) ((newline_not_mem_decode_iff body).mpr hbody)

/-- A well-formed token is what its lexeme denotes. -/
theorem Token.WellFormed.denotes {t : Token} (h : t.WellFormed) :
    Denotes (Utf8.encode t.lexeme) t := by
  cases h with
  | fixed kind hfamily =>
    have hspelled : kind.spelling? ≠ none := by
      intro hnone
      cases kind <;> first | exact hfamily rfl | cases hnone
    obtain ⟨spelling, hspelling⟩ := Option.ne_none_iff_exists'.mp hspelled
    rw [Token.lexeme, Token.unit, hspelling]
    exact .fixed kind spelling hfamily hspelling
  | identifier text hword hkeyword =>
    have h := Denotes.identifier (Utf8.encode text) hword (by rwa [Utf8.decode_encode])
    rwa [Utf8.decode_encode] at h
  | number text hnumber =>
    have h := Denotes.number (Utf8.encode text) hnumber
    rwa [Utf8.decode_encode] at h
  | comment body hline =>
    have hbody : newline ∉ Utf8.encodeChars body := by
      rwa [← newline_not_mem_decode_iff, Utf8.decodeChars_encodeChars]
    have hencode : Utf8.encode (String.ofList ('?' :: body)) =
        commentMark :: Utf8.encodeChars body := by
      rw [Utf8.encode, String.toList_ofList, Utf8.encodeChars_cons]
      rfl
    have h := Denotes.comment _ ⟨_, hencode, hbody⟩
    rwa [Utf8.decode_encode] at h

end ByteLexer

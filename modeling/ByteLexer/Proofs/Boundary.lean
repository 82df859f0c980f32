import ByteLexer.Proofs.Events

/-!
# Where a token ends

A lexeme ends where the byte behind it would not make a longer one. For the lexemes of well-formed
tokens this is decided by the two tokens that meet: a blank ends all but comments, and the first
byte of another lexeme is taken in exactly if the two tokens fuse.
-/

namespace ByteLexer

/-- The byte would still belong to the token if it stood right behind its lexeme. -/
def Token.Continues (t : Token) (b : UInt8) : Prop := IsLexeme (Utf8.encode t.lexeme ++ [b])

theorem Token.continues_iff {t : Token} {first b : UInt8} {more : List UInt8} {lead : Lead}
    (hbytes : Utf8.encode t.lexeme = first :: more) (hlead : Lead.ofByte? first = some lead) :
    t.Continues b ↔ lead.Accepts (more ++ [b]) := by
  rw [Continues, hbytes, List.cons_append, isLexeme_cons_iff_accepts hlead]

private theorem kind_wordToken (text : String) :
    (Lead.wordToken text).kind.family? = some .keyword ∨
      (Lead.wordToken text).kind = .identifier := by
  rw [Lead.wordToken]
  cases hkeyword : Kind.keyword? text with
  | none => exact Or.inr rfl
  | some kind => exact Or.inl (Kind.keyword?_eq_some hkeyword).1

private theorem beq_eq_false_of_class {p : UInt8 → Bool} {b c : UInt8} (hc : p c = false)
    (hb : p b = true) : (b == c) = false := by
  rw [beq_eq_false_iff_ne]
  intro heq
  rw [heq, hc] at hb
  cases hb

theorem Denotes.first_byte {first : UInt8} {more : List UInt8} {t : Token}
    (h : Denotes (first :: more) t) :
    t.isWord = isWordByte first ∧ decide (t.kind = .numLiteral) = isDigit first ∧
      [Kind.assign, .opEq].contains t.kind = (first == equals) ∧
      decide (t.kind = .comment) = (first == commentMark) := by
  obtain ⟨b, others, lead, heq, hlead, haccepts, rfl⟩ := denotes_iff.mp h
  cases heq
  have hannounced := Lead.ofByte?_eq_some_iff.mp hlead
  -- Marks and pairs are listed in tables; of the other leads the class of the first byte is known.
  cases lead with
  | mark kind =>
    have htable : ∀ entry ∈ Lead.marks, (Token.unit entry.2).isWord = isWordByte entry.1 ∧
        decide (entry.2 = .numLiteral) = isDigit entry.1 ∧
        [Kind.assign, .opEq].contains entry.2 = (entry.1 == equals) ∧
        decide (entry.2 = .comment) = (entry.1 == commentMark) := by decide
    exact htable _ hannounced
  | pair alone joined =>
    have htable : ∀ entry ∈ Lead.pairs, ∀ kind ∈ [entry.2.1, entry.2.2],
        (Token.unit kind).isWord = isWordByte entry.1 ∧
        decide (kind = .numLiteral) = isDigit entry.1 ∧
        [Kind.assign, .opEq].contains kind = (entry.1 == equals) ∧
        decide (kind = .comment) = (entry.1 == commentMark) := by decide
    refine htable _ hannounced _ ?_
    split <;> simp
  | comment =>
    cases (hannounced : first = commentMark)
    exact ⟨rfl, rfl, rfl, rfl⟩
  | word =>
    have hkinds : ∀ kind ∈ Kind.all, (kind.family? = some .keyword ∨ kind = .identifier) →
        (Token.unit kind).isWord = true ∧ kind ≠ .numLiteral ∧
        [Kind.assign, .opEq].contains kind = false ∧ kind ≠ .comment := by decide
    have hfirst : isWordByte first = true := hannounced
    have hequals : (first == equals) = false := beq_eq_false_of_class rfl hfirst
    have hmark : (first == commentMark) = false := beq_eq_false_of_class rfl hfirst
    obtain ⟨hword, hnumber, hassign, hcomment⟩ := hkinds _ (Kind.mem_all _)
      (kind_wordToken (Utf8.decode (first :: more)))
    rw [hfirst, isDigit_eq_false_of_isWordByte hfirst, hequals, hmark]
    exact ⟨hword, decide_eq_false hnumber, hassign, decide_eq_false hcomment⟩
  | number =>
    have hfirst : isDigit first = true := hannounced
    have hequals : (first == equals) = false := beq_eq_false_of_class rfl hfirst
    have hmark : (first == commentMark) = false := beq_eq_false_of_class rfl hfirst
    rw [hfirst, isWordByte_eq_false_of_isDigit hfirst, hequals, hmark]
    exact ⟨rfl, rfl, rfl, rfl⟩

private theorem isWordByte_eq {first : UInt8} {lead : Lead}
    (hlead : Lead.ofByte? first = some lead) : isWordByte first = decide (lead = .word) := by
  rw [Bool.eq_iff_iff, decide_eq_true_iff]
  constructor
  · intro h
    have hword : Lead.ofByte? first = some .word := Lead.ofByte?_eq_some_iff.mpr h
    exact Option.some.inj (hlead.symm.trans hword)
  · intro h
    rw [h] at hlead
    exact Lead.ofByte?_eq_some_iff.mp hlead

private theorem isDigit_eq {first : UInt8} {lead : Lead}
    (hlead : Lead.ofByte? first = some lead) : isDigit first = decide (lead = .number) := by
  rw [Bool.eq_iff_iff, decide_eq_true_iff]
  constructor
  · intro h
    have hnumber : Lead.ofByte? first = some .number := Lead.ofByte?_eq_some_iff.mpr h
    exact Option.some.inj (hlead.symm.trans hnumber)
  · intro h
    rw [h] at hlead
    exact Lead.ofByte?_eq_some_iff.mp hlead

/-- Whether a lead takes in one more byte, other than a dot, behind the bytes it has. -/
def Lead.TakesIn (more : List UInt8) (b : UInt8) : Lead → Prop
  | mark _ => False
  | pair _ _ => more = [] ∧ b = equals
  | comment => b ≠ newline
  | word => isWordByte b = true
  | number => isDigit b = true

private theorem forall_mem_snoc {p : UInt8 → Prop} {more : List UInt8} {b : UInt8}
    (hmore : ∀ c ∈ more, p c) : (∀ c ∈ more ++ [b], p c) ↔ p b := by
  constructor
  · intro h
    exact h b (by simp)
  · intro hb c hc
    rcases List.mem_append.mp hc with hc | hc
    · exact hmore c hc
    · rw [List.mem_singleton.mp hc]
      exact hb

private theorem accepts_number_snoc_iff {more : List UInt8} (h : Lead.number.Accepts more)
    {b : UInt8} (hdot : b ≠ dot) : Lead.number.Accepts (more ++ [b]) ↔ isDigit b = true := by
  induction more with
  | nil =>
    rw [List.nil_append, Lead.accepts_number_cons]
    simp [hdot, Lead.accepts_nil]
  | cons c more ih =>
    rw [List.cons_append, Lead.accepts_number_cons]
    rcases (Lead.accepts_number_cons c more).mp h with ⟨hc, hmore⟩ | ⟨rfl, hmore⟩
    · have hcdot : c ≠ dot := by
        intro heq
        rw [heq] at hc
        exact absurd hc (by decide)
      rw [ih hmore]
      simp [hc, hcdot]
    · rw [forall_mem_snoc hmore]
      have hdigit : isDigit dot = false := rfl
      simp [hdigit]

private theorem Lead.accepts_snoc_iff {lead : Lead} {more : List UInt8} (h : lead.Accepts more)
    {b : UInt8} (hdot : b ≠ dot) : lead.Accepts (more ++ [b]) ↔ lead.TakesIn more b := by
  cases lead with
  | mark kind => simp [Accepts, TakesIn]
  | pair alone joined =>
    rcases h with rfl | rfl
    · simp [Accepts, TakesIn]
    · simp [Accepts, TakesIn]
  | comment =>
    have hmore : newline ∉ more := h
    simp [Accepts, TakesIn, hmore, eq_comm]
  | word => exact forall_mem_snoc h
  | number => exact accepts_number_snoc_iff h hdot

private theorem Denotes.isLexeme_snoc_iff {bytes : List UInt8} {t : Token} (h : Denotes bytes t) :
    ∃ first more lead, bytes = first :: more ∧ Lead.ofByte? first = some lead ∧
      t = lead.token more.length bytes ∧ lead.Accepts more ∧
      ∀ b, b ≠ dot → (IsLexeme (bytes ++ [b]) ↔ lead.TakesIn more b) := by
  obtain ⟨first, more, lead, rfl, hlead, haccepts, htoken⟩ := denotes_iff.mp h
  refine ⟨first, more, lead, rfl, hlead, htoken, haccepts, ?_⟩
  intro b hdot
  rw [← Lead.accepts_snoc_iff haccepts hdot, List.cons_append, isLexeme_cons_iff_accepts hlead]

theorem Denotes.isLexeme_snoc_of_comment {bytes : List UInt8} {t : Token} (h : Denotes bytes t)
    (hkind : t.kind = .comment) (b : UInt8) : IsLexeme (bytes ++ [b]) ↔ b ≠ newline := by
  obtain ⟨first, more, lead, rfl, hlead, haccepts, _⟩ := denotes_iff.mp h
  have hclass := h.first_byte.2.2.2
  have hfirst : first = commentMark := by
    rw [hkind] at hclass
    exact eq_of_beq hclass.symm
  have hcomment : Lead.ofByte? first = some .comment := by rw [hfirst]; rfl
  cases hlead.symm.trans hcomment
  have hmore : newline ∉ more := haccepts
  rw [List.cons_append, isLexeme_cons_iff_accepts hlead]
  simp [Lead.Accepts, hmore, eq_comm]

theorem Denotes.not_isLexeme_snoc_blank {bytes : List UInt8} {t : Token} (h : Denotes bytes t)
    (hkind : t.kind ≠ .comment) {b : UInt8} (hb : isBlank b = true) :
    ¬ IsLexeme (bytes ++ [b]) := by
  have hblank : b ≠ dot ∧ b ≠ equals ∧ isWordByte b = false ∧ isDigit b = false := by
    simp only [isBlank, Bool.or_eq_true, beq_iff_eq] at hb
    rcases hb with (((rfl | rfl) | rfl) | rfl) | rfl <;> decide
  obtain ⟨hdot, hequals, hword, hdigit⟩ := hblank
  obtain ⟨first, more, lead, _, _, htoken, _, htakes⟩ := h.isLexeme_snoc_iff
  rw [htakes b hdot]
  cases lead with
  | mark kind => exact id
  | pair alone joined => exact fun h => hequals h.2
  | comment =>
    rw [htoken] at hkind
    exact absurd rfl hkind
  | word => simp [Lead.TakesIn, hword]
  | number => simp [Lead.TakesIn, hdigit]

theorem Token.WellFormed.continues_comment {t : Token} (ht : t.WellFormed)
    (hkind : t.kind = .comment) (b : UInt8) : t.Continues b ↔ b ≠ newline :=
  ht.denotes.isLexeme_snoc_of_comment hkind b

theorem Token.WellFormed.not_continues_blank {t : Token} (ht : t.WellFormed)
    (hkind : t.kind ≠ .comment) {b : UInt8} (hb : isBlank b = true) : ¬ t.Continues b :=
  ht.denotes.not_isLexeme_snoc_blank hkind hb

private def takesEquals (kind : Kind) : Bool := [Kind.opGt, .assign, .opNot, .opLt].contains kind

private theorem takesEquals_token {first : UInt8} {more : List UInt8} {lead : Lead}
    (hlead : Lead.ofByte? first = some lead) (haccepts : lead.Accepts more) :
    takesEquals (lead.token more.length (first :: more)).kind = true ↔
      more = [] ∧ ∃ alone joined, lead = .pair alone joined := by
  have hannounced := Lead.ofByte?_eq_some_iff.mp hlead
  cases lead with
  | mark kind =>
    have htable : ∀ entry ∈ Lead.marks, takesEquals entry.2 = false := by decide
    have hkind : takesEquals kind = false := htable _ hannounced
    simp [Lead.token, Token.unit, hkind]
  | pair alone joined =>
    have htable : ∀ entry ∈ Lead.pairs,
        takesEquals entry.2.1 = true ∧ takesEquals entry.2.2 = false := by decide
    obtain ⟨halone, hjoined⟩ := htable _ hannounced
    rcases haccepts with rfl | rfl
    · simpa [Lead.token, Token.unit] using halone
    · simpa [Lead.token, Token.unit] using hjoined
  | comment => simp [Lead.token, Token.payload, takesEquals]
  | word =>
    have hkinds : ∀ kind ∈ Kind.all, (kind.family? = some .keyword ∨ kind = .identifier) →
        takesEquals kind = false := by decide
    have hkind := hkinds _ (Kind.mem_all _) (kind_wordToken (Utf8.decode (first :: more)))
    simp [Lead.token, hkind]
  | number => simp [Lead.token, Token.payload, takesEquals]

/-- The first byte of a lexeme continues a token exactly if the two tokens fuse. -/
theorem Token.WellFormed.continues_iff_fuses {t u : Token} (ht : t.WellFormed)
    (hkind : t.kind ≠ .comment) {b : UInt8} {others : List UInt8}
    (hu : Denotes (b :: others) u) : t.Continues b ↔ t.fuses u = true := by
  obtain ⟨first, more, lead, hbytes, hlead, htoken, haccepts, htakes⟩ :=
    ht.denotes.isLexeme_snoc_iff
  rw [hbytes] at htoken
  have hdot : b ≠ dot := by
    intro heq
    obtain ⟨_, _, lead', hcons, hlead', _⟩ := denotes_iff.mp hu
    cases hcons
    rw [heq] at hlead'
    cases hlead'
  obtain ⟨hword, hnumber, _⟩ := (hbytes ▸ ht.denotes : Denotes (first :: more) t).first_byte
  obtain ⟨hword', hnumber', hequals', _⟩ := hu.first_byte
  have hpair := takesEquals_token hlead haccepts
  rw [← htoken] at hpair
  have hfuses : t.fuses u = (decide (lead = .word) && isWordByte b ||
      decide (lead = .number) && isDigit b || takesEquals t.kind && (b == equals)) := by
    rw [Token.fuses, hword, hnumber, hword', hnumber', hequals', isWordByte_eq hlead,
      isDigit_eq hlead, takesEquals]
  rw [Continues, htakes b hdot, hfuses]
  cases lead with
  | comment =>
    rw [htoken] at hkind
    exact absurd rfl hkind
  | _ => simp [Lead.TakesIn, hpair]

end ByteLexer

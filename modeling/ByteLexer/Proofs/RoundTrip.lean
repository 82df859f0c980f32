import ByteLexer.Proofs.Boundary

/-!
# Printed token lists

Tokens printed with gaps of blanks between them are scanned back exactly if the gaps separate them:
then each lexeme ends where its token does, and nothing is skipped.
-/

namespace ByteLexer

def isBlankChar (c : Char) : Bool :=
  c == ' ' || c == '\t' || c == '\n' || c == '\r' || c == '\x0c'

def IsGap (gap : String) : Prop := ∀ c ∈ gap.toList, isBlankChar c = true

instance (gap : String) : Decidable (IsGap gap) :=
  decidable_of_iff (gap.toList.all isBlankChar = true) List.all_eq_true

/-- The lexemes of tokens, each with the gap behind it. -/
def printItems : List (Token × String) → String
  | [] => ""
  | (t, gap) :: more => t.lexeme ++ gap ++ printItems more

/-- The gap ends the token: a comment ends with its line or with the text, and another token does
not fuse with one that stands right behind it. -/
def Token.EndsBefore (t : Token) (gap : String) (more : List (Token × String)) : Prop :=
  (t.kind = .comment → gap.toList.head? = some '\n' ∨ gap = "" ∧ more = []) ∧
  (t.kind ≠ .comment → gap = "" → ∀ next ∈ more.head?, t.fuses next.1 = false)

instance (t : Token) (gap : String) (more : List (Token × String)) :
    Decidable (t.EndsBefore gap more) := inferInstanceAs (Decidable (_ ∧ _))

def Separated : List (Token × String) → Prop
  | [] => True
  | (t, gap) :: more => t.EndsBefore gap more ∧ Separated more

instance decidableSeparated : (items : List (Token × String)) → Decidable (Separated items)
  | [] => isTrue trivial
  | (_, _) :: more =>
    have := decidableSeparated more
    inferInstanceAs (Decidable (_ ∧ _))

/-- The source is read as these tokens, and no byte of it is skipped. -/
def Scans (source : List UInt8) (ts : List Token) : Prop :=
  (events source).map Event.token? = ts.map some

private theorem map_token?_map_shift (n : Nat) (found : List Event) :
    (found.map (Event.shift n)).map Event.token? = found.map Event.token? := by
  rw [List.map_map]
  exact List.map_congr_left fun e _ => e.token?_shift n

@[simp] private theorem scans_nil : Scans [] [] := by
  rw [Scans, events_nil]
  rfl

private theorem scans_lead_cons {b : UInt8} {lead : Lead} (hlead : Lead.ofByte? b = some lead)
    {after : List UInt8} {ts : List Token} (h : Scans (after.drop (lead.reach after)) ts) :
    Scans (b :: after)
      (lead.token (lead.reach after) (b :: after.take (lead.reach after)) :: ts) := by
  rw [Scans, events_lead_cons hlead, List.map_cons, map_token?_map_shift, h]
  rfl

namespace Scans

private theorem leadingTokens_eq {found : List Event} {ts : List Token}
    (h : found.map Event.token? = ts.map some) : Event.leadingTokens found = ts := by
  induction found generalizing ts with
  | nil =>
    cases ts with
    | nil => rfl
    | cons t ts => cases h
  | cons e found ih =>
    cases ts with
    | nil => cases h
    | cons t ts =>
      obtain ⟨hfirst, hmore⟩ := List.cons.inj h
      cases e with
      | token start stop u =>
        cases hfirst
        exact congrArg (t :: ·) (ih hmore)
      | skipped offset byte => cases hfirst

theorem tokensOf_eq {source : List UInt8} {ts : List Token} (h : Scans source ts) :
    tokensOf source = ts := by
  rw [tokensOf_eq_leadingTokens]
  exact leadingTokens_eq h

theorem allTokens_eq {source : List UInt8} {ts : List Token} (h : Scans source ts) :
    allTokens source = ts := by
  have hid : (events source).filterMap Event.token? =
      ((events source).map Event.token?).filterMap id := by rw [List.filterMap_map]; rfl
  have hsome : (ts.map some).filterMap id = ts := by
    rw [List.filterMap_map]
    exact List.filterMap_some
  rw [allTokens_eq_filterMap, hid, h, hsome]

end Scans

private theorem encodeChar_blank {c : Char} (h : isBlankChar c = true) :
    ∃ b, String.utf8EncodeChar c = [b] ∧ isBlank b = true ∧ (b = newline ↔ c = '\n') := by
  simp only [isBlankChar, Bool.or_eq_true, beq_iff_eq] at h
  rcases h with (((rfl | rfl) | rfl) | rfl) | rfl
  · exact ⟨0x20, by decide, by decide, by decide⟩
  · exact ⟨0x09, by decide, by decide, by decide⟩
  · exact ⟨0x0A, by decide, by decide, by decide⟩
  · exact ⟨0x0D, by decide, by decide, by decide⟩
  · exact ⟨0x0C, by decide, by decide, by decide⟩

private theorem IsGap.isBlank_of_mem {gap : String} (h : IsGap gap) :
    ∀ b ∈ Utf8.encode gap, isBlank b = true := by
  intro b hb
  obtain ⟨c, hc, hbyte⟩ := List.mem_flatMap.mp hb
  obtain ⟨d, hencode, hblank, _⟩ := encodeChar_blank (h c hc)
  rw [hencode, List.mem_singleton] at hbyte
  rwa [hbyte]

private theorem IsGap.head?_encode_eq_newline {gap : String} (h : IsGap gap) {b : UInt8}
    (hb : (Utf8.encode gap).head? = some b) : b = newline ↔ gap.toList.head? = some '\n' := by
  rw [Utf8.encode] at hb
  rw [IsGap] at h
  generalize gap.toList = chars at h hb
  cases chars with
  | nil => cases hb
  | cons c chars =>
    obtain ⟨d, hencode, _, hnewline⟩ := encodeChar_blank (h c (by simp))
    rw [Utf8.encodeChars_cons, hencode] at hb
    cases hb
    simp [hnewline]

private theorem tokensOf_blanks_append {blanks : List UInt8} (h : ∀ b ∈ blanks, isBlank b = true)
    (rest : List UInt8) : tokensOf (blanks ++ rest) = tokensOf rest := by
  rw [tokensOf_eq_leadingTokens, tokensOf_eq_leadingTokens, events_blanks_append h,
    Event.leadingTokens_map_shift]

private theorem scans_blanks_append {blanks : List UInt8} (h : ∀ b ∈ blanks, isBlank b = true)
    {rest : List UInt8} {ts : List Token} : Scans (blanks ++ rest) ts ↔ Scans rest ts := by
  rw [Scans, events_blanks_append h, map_token?_map_shift, Scans]

private theorem lexeme_reach {t : Token} (ht : t.WellFormed) :
    ∃ first more lead, Utf8.encode t.lexeme = first :: more ∧
      Lead.ofByte? first = some lead ∧ lead.Accepts more ∧
      t = lead.token more.length (first :: more) ∧
      ∀ tail, lead.reach (more ++ tail) = more.length ↔
        ∀ b, tail.head? = some b → ¬ t.Continues b := by
  obtain ⟨first, more, lead, hbytes, hlead, haccepts, htoken⟩ := denotes_iff.mp ht.denotes
  refine ⟨first, more, lead, hbytes, hlead, haccepts, hbytes ▸ htoken, ?_⟩
  intro tail
  rw [Lead.reach_append_eq_length_iff haccepts]
  apply forall_congr'
  intro b
  rw [Token.continues_iff hbytes hlead]

private theorem scans_lexeme_append {t : Token} (ht : t.WellFormed) {tail : List UInt8}
    {ts : List Token} (hstop : ∀ b, tail.head? = some b → ¬ t.Continues b) (htail : Scans tail ts) :
    Scans (Utf8.encode t.lexeme ++ tail) (t :: ts) := by
  obtain ⟨first, more, lead, hbytes, hlead, _, htoken, hiff⟩ := lexeme_reach ht
  have hreach : lead.reach (more ++ tail) = more.length := (hiff tail).mpr hstop
  have htail' : Scans ((more ++ tail).drop (lead.reach (more ++ tail))) ts := by
    rwa [hreach, List.drop_left]
  have hscans := scans_lead_cons hlead htail'
  rw [hreach, List.take_left, ← htoken] at hscans
  rwa [hbytes]

/-- A lexeme that is read back as its token is not continued by what follows it. -/
theorem tokensOf_lexeme_append {t : Token} (ht : t.WellFormed) {tail : List UInt8}
    {ts : List Token} (h : tokensOf (Utf8.encode t.lexeme ++ tail) = t :: ts) :
    (∀ b, tail.head? = some b → ¬ t.Continues b) ∧ tokensOf tail = ts := by
  obtain ⟨first, more, lead, hbytes, hlead, haccepts, _, hiff⟩ := lexeme_reach ht
  rw [hbytes, List.cons_append, tokensOf_lead_cons hlead] at h
  obtain ⟨hfirst, hmore⟩ := List.cons.inj h
  have hge : more.length ≤ lead.reach (more ++ tail) :=
    Lead.length_le_reach haccepts (List.prefix_append _ _)
  have hle := lead.reach_le_length (more ++ tail)
  -- The text of the token read would hold the bytes it took beyond the lexeme.
  have hlexeme := (denotes_reach hlead (more ++ tail)).lexeme_eq
  rw [hfirst, List.take_append, List.take_of_length_le hge, ← List.cons_append, ← hbytes]
    at hlexeme
  have hextra := congrArg List.length (Utf8.eq_nil_of_decode_encode_append hlexeme.symm)
  rw [List.length_take, List.length_nil] at hextra
  rw [List.length_append] at hle
  have hreach : lead.reach (more ++ tail) = more.length := by omega
  rw [hreach, List.drop_left] at hmore
  exact ⟨(hiff tail).mp hreach, hmore⟩

private theorem encode_printItems_cons (t : Token) (gap : String) (more : List (Token × String)) :
    Utf8.encode (printItems ((t, gap) :: more)) =
      Utf8.encode t.lexeme ++ (Utf8.encode gap ++ Utf8.encode (printItems more)) := by
  rw [printItems, Utf8.encode_append, Utf8.encode_append, List.append_assoc]

private theorem Token.WellFormed.endsBefore_iff {t : Token} (ht : t.WellFormed) {gap : String}
    (hgap : IsGap gap) {more : List (Token × String)} (hmore : ∀ item ∈ more, item.1.WellFormed) :
    t.EndsBefore gap more ↔
      ∀ b, (Utf8.encode gap ++ Utf8.encode (printItems more)).head? = some b →
        ¬ t.Continues b := by
  rw [EndsBefore]
  -- Behind the lexeme stands a blank of the gap, or if there is none the next lexeme.
  cases hbytes : Utf8.encode gap with
  | cons b blanks =>
    have hblank : isBlank b = true := hgap.isBlank_of_mem b (by rw [hbytes]; simp)
    have hne : gap ≠ "" := by
      intro hempty
      rw [hempty] at hbytes
      cases hbytes
    have hnewline : b = newline ↔ gap.toList.head? = some '\n' :=
      hgap.head?_encode_eq_newline (by rw [hbytes]; rfl)
    by_cases hkind : t.kind = .comment
    · simp [hkind, hne, ht.continues_comment hkind, ← hnewline]
    · simp [hkind, hne, ht.not_continues_blank hkind hblank]
  | nil =>
    have hempty : gap = "" := by rw [← Utf8.decode_encode gap, hbytes, Utf8.decode_nil]
    cases more with
    | nil => simp [hempty, printItems]
    | cons item more =>
      obtain ⟨u, after⟩ := item
      have hu : u.WellFormed := hmore _ (List.mem_cons_self ..)
      obtain ⟨b, others, lead, hfirst, hlead, _⟩ := denotes_iff.mp hu.denotes
      have hdenotes : Denotes (b :: others) u := hfirst ▸ hu.denotes
      rw [encode_printItems_cons, hfirst]
      by_cases hkind : t.kind = .comment
      · have hnewline : b ≠ newline := by
          intro heq
          rw [heq] at hlead
          cases hlead
        simp [hkind, hempty, ht.continues_comment hkind, hnewline]
      · simp [hkind, hempty, ht.continues_iff_fuses hkind hdenotes]

theorem scans_printItems {items : List (Token × String)}
    (hitems : ∀ item ∈ items, item.1.WellFormed) (hgaps : ∀ item ∈ items, IsGap item.2)
    (h : Separated items) :
    Scans (Utf8.encode (printItems items)) (items.map Prod.fst) := by
  induction items with
  | nil => exact scans_nil
  | cons item more ih =>
    obtain ⟨t, gap⟩ := item
    obtain ⟨ht, hmore⟩ := List.forall_mem_cons.mp hitems
    obtain ⟨hgap, hgaps⟩ := List.forall_mem_cons.mp hgaps
    obtain ⟨hends, hseparated⟩ := h
    rw [encode_printItems_cons, List.map_cons]
    apply scans_lexeme_append ht ((ht.endsBefore_iff hgap hmore).mp hends)
    exact (scans_blanks_append hgap.isBlank_of_mem).mpr (ih hmore hgaps hseparated)

theorem separated_of_tokensOf {items : List (Token × String)}
    (hitems : ∀ item ∈ items, item.1.WellFormed) (hgaps : ∀ item ∈ items, IsGap item.2)
    (h : tokensOf (Utf8.encode (printItems items)) = items.map Prod.fst) : Separated items := by
  induction items with
  | nil => trivial
  | cons item more ih =>
    obtain ⟨t, gap⟩ := item
    obtain ⟨ht, hmore⟩ := List.forall_mem_cons.mp hitems
    obtain ⟨hgap, hgaps⟩ := List.forall_mem_cons.mp hgaps
    rw [encode_printItems_cons, List.map_cons] at h
    obtain ⟨hstop, htail⟩ := tokensOf_lexeme_append ht h
    rw [tokensOf_blanks_append hgap.isBlank_of_mem] at htail
    exact ⟨(ht.endsBefore_iff hgap hmore).mpr hstop, ih hmore hgaps htail⟩

/-- Well-formed tokens printed with gaps are scanned back exactly if the gaps separate them. -/
theorem tokensOf_printed_iff (front : String) (items : List (Token × String)) (hfront : IsGap front)
    (hitems : ∀ item ∈ items, item.1.WellFormed) (hgaps : ∀ item ∈ items, IsGap item.2) :
    tokensOf (Utf8.encode (front ++ printItems items)) = items.map Prod.fst ↔ Separated items := by
  rw [Utf8.encode_append, tokensOf_blanks_append hfront.isBlank_of_mem]
  constructor
  · exact separated_of_tokensOf hitems hgaps
  · intro h
    exact (scans_printItems hitems hgaps h).tokensOf_eq

/-- Of these tokens only the first two would fuse, and the comment needs the end of its line. -/
theorem tokensOf_printed_iff_sample :
    let items := [(Token.unit .opGt, " "), (.unit .assign, ""), (.payload .numLiteral "5.", ""),
      (.payload .identifier "x", "\r"), (.payload .comment (String.ofList ['?', 'é']), "\n"),
      (.unit .kwLet, "")]
    tokensOf (Utf8.encode ("\t" ++ printItems items)) = items.map Prod.fst := by
  intro items
  have hnumber : IsNumber (Utf8.encode "5.") :=
    ⟨[0x35], [0x2E], by decide, by decide, List.all_eq_true.mp (by decide),
      Or.inr ⟨[], by decide, by simp⟩⟩
  have hword : IsWord (Utf8.encode "x") := ⟨by decide, List.all_eq_true.mp (by decide)⟩
  have hitems : ∀ item ∈ items, item.1.WellFormed := by
    simp only [items, List.forall_mem_cons]
    exact ⟨.fixed _ (by decide), .fixed _ (by decide), .number _ hnumber,
      .identifier _ hword (by decide), .comment _ (by decide), .fixed _ (by decide), by simp⟩
  apply (tokensOf_printed_iff "\t" items (by decide) hitems (by decide)).mpr
  decide

end ByteLexer

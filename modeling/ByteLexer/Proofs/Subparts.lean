import Mathlib.Data.List.Basic
import ByteLexer.Proofs.Decoding
import ByteLexer.Scan.Call
import ByteLexer.Text.Subpart

/-!
# Decoding by subparts

The decoder reads bytes as the longest subparts say. A character that has begun goes on for as long
as the bytes begin the encoded form of some character; what completes it is its encoded form. So the
text of a span is determined without the decoder, it encodes to the span exactly where the span is
an encoded text, and spans come apart before every byte that may begin a character.
-/

namespace ByteLexer.Utf8

/-- That bytes complete a character that has begun, and which character it then is. -/
inductive Sequence.Completes : Sequence → List UInt8 → Char → Prop where
  | last {value low high : Nat} {byte : UInt8} (hlow : low ≤ byte.toNat)
    (hhigh : byte.toNat ≤ high) :
    Completes ⟨0, value, low, high⟩ [byte] (Char.ofNat (value * 64 + byte.toNat % 64))
  | inner {left value low high : Nat} {byte : UInt8} {more : List UInt8} {c : Char}
    (hlow : low ≤ byte.toNat) (hhigh : byte.toNat ≤ high)
    (h : Completes ⟨left, value * 64 + byte.toNat % 64, 0x80, 0xBF⟩ more c) :
    Completes ⟨left + 1, value, low, high⟩ (byte :: more) c

private theorem Sequence.Completes.of_zero {value low high : Nat} {more : List UInt8} {c : Char}
    (h : Completes ⟨0, value, low, high⟩ more c) :
    ∃ byte : UInt8, (low ≤ byte.toNat ∧ byte.toNat ≤ high) ∧ more = [byte] ∧
      c = Char.ofNat (value * 64 + byte.toNat % 64) := by
  cases h with
  | last hlow hhigh => exact ⟨_, ⟨hlow, hhigh⟩, rfl, rfl⟩

private theorem Sequence.Completes.of_succ {left value low high : Nat} {more : List UInt8}
    {c : Char} (h : Completes ⟨left + 1, value, low, high⟩ more c) :
    ∃ (byte : UInt8) (rest : List UInt8), (low ≤ byte.toNat ∧ byte.toNat ≤ high) ∧
      more = byte :: rest ∧
      Completes ⟨left, value * 64 + byte.toNat % 64, 0x80, 0xBF⟩ rest c := by
  cases h with
  | inner hlow hhigh hrest => exact ⟨_, _, ⟨hlow, hhigh⟩, rfl, hrest⟩

private theorem ofNat_eq {n : Nat} (byte : UInt8) (h : n = byte.toNat) : UInt8.ofNat n = byte := by
  rw [h, UInt8.ofNat_toNat]

private theorem encodeChar_two {n : Nat} {a b : UInt8}
    (hn : n = (a.toNat - 0xC0) * 64 + b.toNat % 64) (ha : 0xC2 ≤ a.toNat ∧ a.toNat < 0xE0)
    (hb : 0x80 ≤ b.toNat ∧ b.toNat ≤ 0xBF) : String.utf8EncodeChar (Char.ofNat n) = [a, b] := by
  have hvalue : (Char.ofNat n).val.toNat = n := toNat_charOfNat (by omega)
  simp only [String.utf8EncodeChar, hvalue]
  rw [if_neg (by omega), if_pos (by omega), ofNat_eq a (by omega), ofNat_eq b (by omega)]

private theorem encodeChar_three {n : Nat} {a b c : UInt8}
    (hn : n = ((a.toNat - 0xE0) * 64 + b.toNat % 64) * 64 + c.toNat % 64)
    (ha : 0xE0 ≤ a.toNat ∧ a.toNat < 0xF0)
    (hb : (if a.toNat = 0xE0 then 0xA0 else 0x80) ≤ b.toNat ∧
      b.toNat ≤ if a.toNat = 0xED then 0x9F else 0xBF)
    (hc : 0x80 ≤ c.toNat ∧ c.toNat ≤ 0xBF) :
    String.utf8EncodeChar (Char.ofNat n) = [a, b, c] := by
  obtain ⟨hlow, hhigh⟩ := hb
  have hb : 0x80 ≤ b.toNat ∧ b.toNat ≤ 0xBF := by split at hlow <;> split at hhigh <;> omega
  have hlong : 0x800 ≤ n := by split at hlow <;> omega
  have hvalue : (Char.ofNat n).val.toNat = n := toNat_charOfNat (by split at hhigh <;> omega)
  simp only [String.utf8EncodeChar, hvalue]
  rw [if_neg (by omega), if_neg (by omega), if_pos (by omega), ofNat_eq a (by omega),
    ofNat_eq b (by omega), ofNat_eq c (by omega)]

private theorem encodeChar_four {n : Nat} {a b c d : UInt8}
    (hn : n = (((a.toNat - 0xF0) * 64 + b.toNat % 64) * 64 + c.toNat % 64) * 64 + d.toNat % 64)
    (ha : 0xF0 ≤ a.toNat ∧ a.toNat ≤ 0xF4)
    (hb : (if a.toNat = 0xF0 then 0x90 else 0x80) ≤ b.toNat ∧
      b.toNat ≤ if a.toNat = 0xF4 then 0x8F else 0xBF)
    (hc : 0x80 ≤ c.toNat ∧ c.toNat ≤ 0xBF) (hd : 0x80 ≤ d.toNat ∧ d.toNat ≤ 0xBF) :
    String.utf8EncodeChar (Char.ofNat n) = [a, b, c, d] := by
  obtain ⟨hlow, hhigh⟩ := hb
  have hb : 0x80 ≤ b.toNat ∧ b.toNat ≤ 0xBF := by split at hlow <;> split at hhigh <;> omega
  have hlong : 0x10000 ≤ n := by split at hlow <;> omega
  have hvalue : (Char.ofNat n).val.toNat = n := toNat_charOfNat (by split at hhigh <;> omega)
  simp only [String.utf8EncodeChar, hvalue]
  rw [if_neg (by omega), if_neg (by omega), if_neg (by omega), ofNat_eq a (by omega),
    ofNat_eq b (by omega), ofNat_eq c (by omega), ofNat_eq d (by omega)]

private theorem exists_byte {n : Nat} (h : n ≤ 0xBF) : ∃ byte : UInt8, byte.toNat = n := by
  refine ⟨UInt8.ofNat n, ?_⟩
  rw [UInt8.toNat_ofNat']
  omega

private theorem opening_eq_sequence {byte : UInt8} {s : Sequence} (h : opening byte = .sequence s) :
    (0xC2 ≤ byte.toNat ∧ byte.toNat < 0xE0) ∧ s = ⟨0, byte.toNat - 0xC0, 0x80, 0xBF⟩ ∨
    (0xE0 ≤ byte.toNat ∧ byte.toNat < 0xF0) ∧ s = ⟨1, byte.toNat - 0xE0,
      if byte.toNat = 0xE0 then 0xA0 else 0x80, if byte.toNat = 0xED then 0x9F else 0xBF⟩ ∨
    (0xF0 ≤ byte.toNat ∧ byte.toNat ≤ 0xF4) ∧ s = ⟨2, byte.toNat - 0xF0,
      if byte.toNat = 0xF0 then 0x90 else 0x80, if byte.toNat = 0xF4 then 0x8F else 0xBF⟩ := by
  simp only [opening] at h
  generalize byte.toNat = b at h
  grind

private theorem encodeChar_of_opening {first : UInt8} {c : Char} (h : opening first = .char c) :
    String.utf8EncodeChar c = [first] := by
  have hascii : isAscii first = true := by
    by_contra hnot
    have hlegal := opening_legal hnot
    rw [h] at hlegal
    exact hlegal
  rw [opening_of_ascii hascii] at h
  cases h
  exact encodeChar_of_ascii hascii

private theorem encodeChar_of_completes {first : UInt8} {s : Sequence} {more : List UInt8}
    {c : Char} (hopening : opening first = .sequence s) (h : s.Completes more c) :
    String.utf8EncodeChar c = first :: more := by
  rcases opening_eq_sequence hopening with ⟨hfirst, rfl⟩ | ⟨hfirst, rfl⟩ | ⟨hfirst, rfl⟩
  · obtain ⟨second, hsecond, rfl, rfl⟩ := h.of_zero
    exact encodeChar_two rfl hfirst hsecond
  · obtain ⟨second, _, hsecond, rfl, hrest⟩ := h.of_succ
    obtain ⟨third, hthird, rfl, rfl⟩ := hrest.of_zero
    exact encodeChar_three rfl hfirst hsecond hthird
  · obtain ⟨second, _, hsecond, rfl, hrest⟩ := h.of_succ
    obtain ⟨third, _, hthird, rfl, hlast⟩ := hrest.of_succ
    obtain ⟨fourth, hfourth, rfl, rfl⟩ := hlast.of_zero
    exact encodeChar_four rfl hfirst hsecond hthird hfourth

private theorem Sequence.exists_completes (left value low high : Nat) (hle : low ≤ high)
    (hhigh : high ≤ 0xBF) : ∃ more c, Completes ⟨left, value, low, high⟩ more c := by
  induction left generalizing value low high with
  | zero =>
    obtain ⟨byte, rfl⟩ := exists_byte (Nat.le_trans hle hhigh)
    exact ⟨[byte], _, .last (Nat.le_refl _) hle⟩
  | succ left ih =>
    obtain ⟨byte, rfl⟩ := exists_byte (Nat.le_trans hle hhigh)
    obtain ⟨more, c, hmore⟩ :=
      ih (value * 64 + byte.toNat % 64) 0x80 0xBF (by decide) (by decide)
    exact ⟨byte :: more, c, .inner (Nat.le_refl _) hle hmore⟩

/-- A character has begun with `part`: the decoder then holds `s`, and `part` with what completes
`s` is the encoded form of a character. -/
structure Begun (part : List UInt8) (s : Sequence) : Prop where
  ne_nil : part ≠ []
  low_le : s.low ≤ s.high
  high_le : s.high ≤ 0xBF
  decode : ∀ more, decodeChars (part ++ more) = decodeFrom (some s) more
  encode : ∀ more c, s.Completes more c → String.utf8EncodeChar c = part ++ more

private theorem begun_of_opening {first : UInt8} {s : Sequence} (h : opening first = .sequence s) :
    Begun [first] s := by
  have hrange : s.low ≤ s.high ∧ s.high ≤ 0xBF := by
    rcases opening_eq_sequence h with ⟨_, rfl⟩ | ⟨_, rfl⟩ | ⟨_, rfl⟩ <;> grind
  refine ⟨by simp, hrange.1, hrange.2, ?_, fun more c => encodeChar_of_completes h⟩
  intro more
  rw [List.singleton_append, decodeChars_eq, decodeFrom_none_cons, h]

theorem Begun.step {part : List UInt8} {left value low high : Nat} {byte : UInt8}
    (h : Begun part ⟨left + 1, value, low, high⟩) (hin : low ≤ byte.toNat ∧ byte.toNat ≤ high) :
    Begun (part ++ [byte]) ⟨left, value * 64 + byte.toNat % 64, 0x80, 0xBF⟩ := by
  refine ⟨by simp, by simp, Nat.le_refl _, ?_, ?_⟩
  · intro more
    rw [List.append_assoc, h.decode, List.singleton_append, decodeFrom_some_cons more hin]
  · intro more c hmore
    rw [List.append_assoc]
    exact h.encode _ c (.inner hin.1 hin.2 hmore)

private theorem Begun.isSubpart {part : List UInt8} {s : Sequence} (h : Begun part s) :
    IsSubpart part := by
  obtain ⟨more, c, hmore⟩ :=
    Sequence.exists_completes s.left s.value s.low s.high h.low_le h.high_le
  exact Or.inr ⟨h.ne_nil, c, more, (h.encode more c hmore).symm⟩

/-- A front of the bytes is the longest subpart there and is read as U+FFFD. -/
def BreaksOff (bytes : List UInt8) : Prop :=
  ∃ part rest, bytes = part ++ rest ∧ LongestFront IsSubpart (part ++ rest) part ∧
    decodeChars (part ++ rest) = replacement :: decodeChars rest

private theorem eq_nil_of_encodeChar {c d : Char} {front rest : List UInt8}
    (hdecode : decodeChars (front ++ rest) = d :: decodeChars rest)
    (h : front ++ rest = String.utf8EncodeChar c) : rest = [] := by
  have hchar := decodeFrom_encodeChar c []
  rw [List.append_nil, ← h, ← decodeChars_eq, hdecode, decodeFrom_none_nil] at hchar
  exact (decodeChars_eq_nil_iff rest).mp (List.cons.inj hchar).2

/-- A subpart breaks off before `rest` if the decoder ends it before any bytes that begin alike. -/
private theorem breaksOff_of_decode {part rest : List UInt8} (hpart : IsSubpart part)
    (hdecode : ∀ more, more.head? = rest.head? →
      decodeChars (part ++ more) = replacement :: decodeChars more) :
    BreaksOff (part ++ rest) := by
  refine ⟨part, rest, rfl, ⟨hpart, List.prefix_append part rest, ?_⟩, hdecode rest rfl⟩
  intro other hother hpre
  by_contra hlonger
  rw [Nat.not_le] at hlonger
  obtain ⟨extra, rfl⟩ : part <+: other :=
    List.prefix_of_prefix_length_le (List.prefix_append part rest) hpre (Nat.le_of_lt hlonger)
  rw [List.prefix_append_right_inj] at hpre
  cases extra with
  | nil => simp at hlonger
  | cons byte extra =>
    rcases hother with hone | ⟨_, c, tail, hchar⟩
    · have hpos := List.length_pos_iff.mpr hpart.ne_nil
      simp only [List.length_append, List.length_cons] at hone
      omega
    · -- The decoder would read more than one character from the encoded form of `c`.
      obtain ⟨_, rfl⟩ := hpre
      rw [List.append_assoc] at hchar
      have hnil := eq_nil_of_encodeChar (hdecode (byte :: extra ++ tail) rfl) hchar
      simp at hnil

private theorem Begun.breaksOff {part bytes : List UInt8} {s : Sequence} (h : Begun part s)
    (hnone : ∀ c, ¬ String.utf8EncodeChar c <+: part ++ bytes) : BreaksOff (part ++ bytes) := by
  -- While bytes fit, they go over to the part that has begun; the whole stays as it is.
  induction bytes generalizing part s with
  | nil =>
    apply breaksOff_of_decode h.isSubpart
    intro more hmore
    rw [List.head?_eq_none_iff.mp hmore, h.decode]
    rfl
  | cons byte bytes ih =>
    obtain ⟨left, value, low, high⟩ := s
    by_cases hin : low ≤ byte.toNat ∧ byte.toNat ≤ high
    · cases left with
      | zero =>
        -- The byte completes a character, which then stands at the front.
        have hchar := h.encode _ _ (.last hin.1 hin.2)
        exact absurd ⟨bytes, by rw [hchar, List.append_assoc]; rfl⟩ (hnone _)
      | succ left =>
        rw [← List.singleton_append, ← List.append_assoc] at hnone ⊢
        exact ih (h.step hin) hnone
    · apply breaksOff_of_decode h.isSubpart
      intro more hmore
      obtain ⟨after, rfl⟩ := List.head?_eq_some_iff.mp hmore
      rw [h.decode, decodeFrom_some_cons_of_not after hin, decodeChars_eq]

private theorem breaksOff_of_none {bytes : List UInt8} (hne : bytes ≠ [])
    (hnone : ∀ c, ¬ String.utf8EncodeChar c <+: bytes) : BreaksOff bytes := by
  obtain ⟨first, rest, rfl⟩ := List.exists_cons_of_ne_nil hne
  rw [← List.singleton_append] at hnone ⊢
  cases hopening : opening first with
  | char c => exact absurd ⟨rest, by rw [encodeChar_of_opening hopening]⟩ (hnone c)
  | sequence s => exact (begun_of_opening hopening).breaksOff hnone
  | invalid =>
    apply breaksOff_of_decode (Or.inl rfl)
    intro more _
    rw [List.singleton_append, decodeChars_eq, decodeFrom_none_cons, hopening]
    rfl

private theorem decodeChars_of_readsAs {bytes : List UInt8} {text : List Char}
    (h : ReadsAs bytes text) : decodeChars bytes = text := by
  induction h with
  | nil => rfl
  | char c rest text _ ih =>
    rw [decodeChars_eq, decodeFrom_encodeChar, ← decodeChars_eq, ih]
  | illFormed part rest text hnone hpart _ ih =>
    have hne : part ++ rest ≠ [] := List.append_ne_nil_of_left_ne_nil hpart.mem.ne_nil rest
    obtain ⟨front, tail, hsplit, hfront, hdecode⟩ := breaksOff_of_none hne hnone
    rw [hsplit] at hpart
    obtain rfl := hpart.unique hfront
    obtain rfl := List.append_cancel_left hsplit
    rw [hdecode, ih]

theorem readsAs_decodeChars (bytes : List UInt8) : ReadsAs bytes (decodeChars bytes) := by
  induction hlength : bytes.length using Nat.strongRecOn generalizing bytes with
  | ind n ih =>
    subst hlength
    by_cases hne : bytes = []
    · rw [hne]
      exact .nil
    by_cases hchar : ∃ c, String.utf8EncodeChar c <+: bytes
    · obtain ⟨c, rest, rfl⟩ := hchar
      have hless : rest.length < (String.utf8EncodeChar c ++ rest).length := by
        simp [c.utf8Size_pos]
      rw [decodeChars_eq, decodeFrom_encodeChar, ← decodeChars_eq]
      exact .char c rest _ (ih _ hless rest rfl)
    · rw [not_exists] at hchar
      obtain ⟨part, rest, rfl, hpart, hdecode⟩ := breaksOff_of_none hne hchar
      have hless : rest.length < (part ++ rest).length := by
        simpa [List.length_pos_iff] using hpart.mem.ne_nil
      rw [hdecode]
      exact .illFormed part rest _ hchar hpart (ih _ hless rest rfl)

/-- The decoder reads bytes by their longest subparts. -/
theorem readsAs_iff {bytes : List UInt8} {text : List Char} :
    ReadsAs bytes text ↔ decodeChars bytes = text := by
  constructor
  · exact decodeChars_of_readsAs
  · rintro rfl
    exact readsAs_decodeChars bytes

private theorem readsAs_spanText_iff (bytes : List UInt8) (start stop : Nat) (text : String) :
    ReadsAs (bytes.extract start stop) text.toList ↔ text = spanText bytes start stop := by
  rw [readsAs_iff, ← toList_decode, String.toList_inj]
  exact eq_comm

private theorem perform_slice {s : Scanner} {stop : Nat} (hstop : s.cursor.position + 1 = stop)
    (start : Nat) :
    s.perform (.slice start) = (.text (spanText s.cursor.source start stop), s) := by
  rw [Scanner.perform, Cursor.slice, Cursor.sliceBytes, if_neg (by omega), hstop, List.drop_take]
  rfl

private theorem encode_decode_eq_iff (bytes : List UInt8) :
    encode (decode bytes) = bytes ↔ ∃ text, bytes = encode text := by
  constructor
  · intro h
    exact ⟨decode bytes, h.symm⟩
  · rintro ⟨text, rfl⟩
    rw [decode_encode]

private theorem spanText_append {bytes : List UInt8} {i j k : Nat} (hij : i ≤ j) (hjk : j ≤ k)
    (h : j = k ∨ ∃ byte, bytes[j]? = some byte ∧ isContinuation byte = false) :
    spanText bytes i k = spanText bytes i j ++ spanText bytes j k := by
  have hfirst : ∀ byte, (bytes.extract j k).head? = some byte → isContinuation byte = false := by
    intro byte hbyte
    rcases h with rfl | ⟨next, hnext, hbreak⟩
    · simp at hbyte
    · rw [List.extract_eq_take_drop, List.head?_take, List.head?_drop, hnext] at hbyte
      split at hbyte
      · cases hbyte
      · cases hbyte
        exact hbreak
  apply String.toList_inj.mp
  rw [String.toList_append, spanText, spanText, spanText, toList_decode, toList_decode,
    toList_decode, ← decodeChars_append hfirst, extract_append_extract bytes hij hjk]

/-- What a scanner answers for a slice is the text of a span: the one text that the span is read as
by longest subparts. It encodes to the span exactly if the span is an encoded text. A span comes
apart before a byte that may begin a character, and at its end. The ASCII characters of the text are
the ASCII bytes of the span, in order. -/
theorem decode_extract (bytes : List UInt8) {i j k : Nat} (hij : i ≤ j) (hjk : j ≤ k) :
    (∀ text : String, ReadsAs (bytes.extract i k) text.toList ↔ text = spanText bytes i k) ∧
    (∀ s : Scanner, s.cursor.source = bytes → s.cursor.position + 1 = k →
      s.perform (.slice i) = (.text (spanText bytes i k), s)) ∧
    (encode (spanText bytes i k) = bytes.extract i k ↔ ∃ text, bytes.extract i k = encode text) ∧
    (j = k ∨ (∃ byte, bytes[j]? = some byte ∧ isContinuation byte = false) →
      spanText bytes i k = spanText bytes i j ++ spanText bytes j k) ∧
    (spanText bytes i k).toList.filter (·.toNat < 0x80) =
      ((bytes.extract i k).filter isAscii).map fun byte => Char.ofNat byte.toNat := by
  refine ⟨readsAs_spanText_iff bytes i k, ?_, encode_decode_eq_iff _, spanText_append hij hjk, ?_⟩
  · rintro s rfl hstop
    exact perform_slice hstop i
  · rw [spanText, toList_decode]
    exact filter_decodeChars _

/-- A character that lacks its last two bytes is one U+FFFD, and the next one is read whole. -/
theorem decode_extract_truncated :
    let bytes : List UInt8 := [0xF0, 0x9F, 0xC3, 0xA9]
    let text := String.ofList [replacement, 'é']
    ReadsAs bytes text.toList ∧
      (((Scanner.ofBytes bytes).move (·.advanceBy 3)).perform (.slice 0)).1 = .text text ∧
      (∀ other, bytes ≠ encode other) ∧
      isContinuation 0xC3 = false ∧ text = spanText bytes 0 2 ++ spanText bytes 2 4 := by
  intro bytes text
  have hbreak : isContinuation 0xC3 = false := by decide
  have htext : text = spanText bytes 0 4 := by decide
  obtain ⟨hreads, hslice, hencode, happend, _⟩ :=
    decode_extract bytes (show 0 ≤ 2 by decide) (show 2 ≤ 4 by decide)
  rw [← htext] at hslice hencode happend
  refine ⟨(hreads text).mpr htext, ?_, ?_, hbreak, happend (Or.inr ⟨0xC3, rfl, hbreak⟩)⟩
  · exact congrArg Prod.fst (hslice ((Scanner.ofBytes bytes).move (·.advanceBy 3)) rfl rfl)
  · intro other hother
    exact absurd (hencode.mpr ⟨other, hother⟩) (by decide)

end ByteLexer.Utf8

import Mathlib.Algebra.Group.Nat.Defs
import ByteLexer.Text.Utf8

/-!
# Laws of decoding

The decoder is first brought into recursive form. An encoded text followed by any bytes decodes to
the text followed by what the bytes decode to; ASCII bytes are decoded one by one and no other
bytes yield ASCII characters.
-/

namespace ByteLexer.Utf8

/-- The characters of a byte list for a decoder that may stand inside a character. -/
def decodeFrom (begun : Option Sequence) (bytes : List UInt8) : List Char :=
  (bytes.foldl Decoder.step ⟨[], begun⟩).finish

theorem decodeChars_eq (bytes : List UInt8) : decodeChars bytes = decodeFrom none bytes := rfl

private theorem step_read (read : List Char) (begun : Option Sequence) (byte : UInt8) :
    Decoder.step ⟨read, begun⟩ byte =
      ⟨(Decoder.step ⟨[], begun⟩ byte).read ++ read, (Decoder.step ⟨[], begun⟩ byte).begun⟩ := by
  have hstart : ∀ more : List Char, Decoder.start (more ++ read) byte =
      ⟨(Decoder.start more byte).read ++ read, (Decoder.start more byte).begun⟩ := by
    intro more
    unfold Decoder.start
    cases opening byte <;> rfl
  cases begun with
  | none => exact hstart []
  | some s =>
    simp only [Decoder.step]
    split
    · cases s.left <;> rfl
    · exact hstart [replacement]

private theorem finish_foldl (bytes : List UInt8) (read : List Char) (begun : Option Sequence) :
    (bytes.foldl Decoder.step ⟨read, begun⟩).finish = read.reverse ++ decodeFrom begun bytes := by
  induction bytes generalizing read begun with
  | nil => cases begun <;> simp [decodeFrom, Decoder.finish]
  | cons byte bytes ih =>
    have hcons : decodeFrom begun (byte :: bytes) =
        (bytes.foldl Decoder.step (Decoder.step ⟨[], begun⟩ byte)).finish := rfl
    rw [hcons, List.foldl_cons, step_read]
    generalize Decoder.step ⟨[], begun⟩ byte = d
    calc (bytes.foldl Decoder.step ⟨d.read ++ read, d.begun⟩).finish
        = (d.read ++ read).reverse ++ decodeFrom d.begun bytes := ih _ _
      _ = read.reverse ++ (d.read.reverse ++ decodeFrom d.begun bytes) := by simp
      _ = read.reverse ++ (bytes.foldl Decoder.step d).finish := by rw [← ih]

@[simp] theorem decodeFrom_none_nil : decodeFrom none [] = [] := rfl

@[simp] theorem decodeFrom_some_nil (s : Sequence) : decodeFrom (some s) [] = [replacement] := rfl

theorem decodeFrom_none_cons (byte : UInt8) (bytes : List UInt8) :
    decodeFrom none (byte :: bytes) =
      match opening byte with
      | .char c => c :: decodeFrom none bytes
      | .sequence s => decodeFrom (some s) bytes
      | .invalid => replacement :: decodeFrom none bytes := by
  rw [decodeFrom, List.foldl_cons, Decoder.step, Decoder.start]
  cases opening byte <;> simp [finish_foldl]

theorem decodeFrom_some_cons {s : Sequence} {byte : UInt8} (bytes : List UInt8)
    (h : s.low ≤ byte.toNat ∧ byte.toNat ≤ s.high) : decodeFrom (some s) (byte :: bytes) =
      match s.left with
      | 0 => Char.ofNat (s.value * 64 + byte.toNat % 64) :: decodeFrom none bytes
      | left + 1 =>
        decodeFrom (some ⟨left, s.value * 64 + byte.toNat % 64, 0x80, 0xBF⟩) bytes := by
  rw [decodeFrom, List.foldl_cons, Decoder.step]
  simp only [h, and_self, if_true]
  cases s.left <;> simp [finish_foldl]

theorem decodeFrom_some_cons_of_not {s : Sequence} {byte : UInt8} (bytes : List UInt8)
    (h : ¬(s.low ≤ byte.toNat ∧ byte.toNat ≤ s.high)) :
    decodeFrom (some s) (byte :: bytes) = replacement :: decodeFrom none (byte :: bytes) := by
  rw [decodeFrom, List.foldl_cons, Decoder.step]
  simp only [h, if_false]
  rw [decodeFrom, List.foldl_cons, Decoder.step, Decoder.start, Decoder.start]
  cases opening byte <;> simp [finish_foldl]

private theorem toNat_ofNat_byte {n : Nat} (h : n < 0x100) : (UInt8.ofNat n).toNat = n := by
  simp only [UInt8.toNat_ofNat']
  omega

private theorem opening_one {n : Nat} (h : n < 0x80) :
    opening (UInt8.ofNat n) = .char (Char.ofNat n) := by
  simp only [opening, toNat_ofNat_byte (show n < 0x100 by omega), h, if_true]

private theorem opening_two {n : Nat} (hlow : 0xC2 ≤ n) (hhigh : n < 0xE0) :
    opening (UInt8.ofNat n) = .sequence ⟨0, n - 0xC0, 0x80, 0xBF⟩ := by
  simp only [opening, toNat_ofNat_byte (show n < 0x100 by omega)]
  rw [if_neg (by omega), if_neg (by omega), if_pos hhigh]

private theorem opening_three {n : Nat} (hlow : 0xE0 ≤ n) (hhigh : n < 0xF0) :
    opening (UInt8.ofNat n) = .sequence
      ⟨1, n - 0xE0, if n = 0xE0 then 0xA0 else 0x80, if n = 0xED then 0x9F else 0xBF⟩ := by
  simp only [opening, toNat_ofNat_byte (show n < 0x100 by omega)]
  rw [if_neg (by omega), if_neg (by omega), if_neg (by omega)]
  by_cases h0 : n = 0xE0
  · simp [h0]
  · by_cases hD : n = 0xED
    · simp [hD]
    · simp [h0, hD, hhigh]

private theorem opening_four {n : Nat} (hlow : 0xF0 ≤ n) (hhigh : n ≤ 0xF4) :
    opening (UInt8.ofNat n) = .sequence
      ⟨2, n - 0xF0, if n = 0xF0 then 0x90 else 0x80, if n = 0xF4 then 0x8F else 0xBF⟩ := by
  simp only [opening, toNat_ofNat_byte (show n < 0x100 by omega)]
  rw [if_neg (by omega), if_neg (by omega), if_neg (by omega), if_neg (by omega),
    if_neg (by omega), if_neg (by omega)]
  by_cases h0 : n = 0xF0
  · simp [h0]
  · by_cases h4 : n = 0xF4
    · simp [h4]
    · rw [if_neg h0, if_pos (by omega)]
      simp [h0, h4]

private theorem decodeFrom_last {value low high n : Nat} (bytes : List UInt8)
    (hn : n < 0x40) (hlow : low ≤ n + 0x80) (hhigh : n + 0x80 ≤ high) :
    decodeFrom (some ⟨0, value, low, high⟩) (UInt8.ofNat (n + 0x80) :: bytes) =
      Char.ofNat (value * 64 + n) :: decodeFrom none bytes := by
  have hbyte := toNat_ofNat_byte (show n + 0x80 < 0x100 by omega)
  rw [decodeFrom_some_cons bytes (by rw [hbyte]; exact ⟨hlow, hhigh⟩)]
  simp only [hbyte]
  rw [show (n + 0x80) % 64 = n by omega]

private theorem decodeFrom_inner {left value low high n : Nat} (bytes : List UInt8)
    (hn : n < 0x40) (hlow : low ≤ n + 0x80) (hhigh : n + 0x80 ≤ high) :
    decodeFrom (some ⟨left + 1, value, low, high⟩) (UInt8.ofNat (n + 0x80) :: bytes) =
      decodeFrom (some ⟨left, value * 64 + n, 0x80, 0xBF⟩) bytes := by
  have hbyte := toNat_ofNat_byte (show n + 0x80 < 0x100 by omega)
  rw [decodeFrom_some_cons bytes (by rw [hbyte]; exact ⟨hlow, hhigh⟩)]
  simp only [hbyte]
  rw [show (n + 0x80) % 64 = n by omega]

theorem decodeFrom_encodeChar (c : Char) (bytes : List UInt8) :
    decodeFrom none (String.utf8EncodeChar c ++ bytes) = c :: decodeFrom none bytes := by
  have hscalar : c.toNat < 0xD800 ∨ 0xDFFF < c.toNat ∧ c.toNat < 0x110000 := c.valid
  have hback : Char.ofNat c.toNat = c := Char.ofNat_toNat c
  have hv : c.val.toNat = c.toNat := rfl
  generalize hn : c.toNat = n at *
  -- One case for each length of the encoded form.
  by_cases h1 : n ≤ 0x7F
  · rw [String.utf8EncodeChar]
    simp only [hv, h1, if_true]
    rw [List.singleton_append, decodeFrom_none_cons, opening_one (by omega)]
    simp only [hback]
  by_cases h2 : n ≤ 0x7FF
  · rw [String.utf8EncodeChar]
    simp only [hv, h1, h2, if_true, if_false]
    rw [List.cons_append, List.singleton_append, decodeFrom_none_cons,
      opening_two (by omega) (by omega)]
    simp only []
    rw [decodeFrom_last _ (by omega) (by omega) (by omega),
      show (n / 64 % 32 + 0xC0 - 0xC0) * 64 + n % 64 = n by omega, hback]
  by_cases h3 : n ≤ 0xFFFF
  · rw [String.utf8EncodeChar]
    simp only [hv, h1, h2, h3, if_true, if_false]
    rw [List.cons_append, List.cons_append, List.singleton_append, decodeFrom_none_cons,
      opening_three (by omega) (by omega)]
    simp only []
    rw [decodeFrom_inner _ (by omega) (by split <;> omega) (by split <;> omega),
      decodeFrom_last _ (by omega) (by omega) (by omega),
      show ((n / 4096 % 16 + 0xE0 - 0xE0) * 64 + n / 64 % 64) * 64 + n % 64 = n by omega, hback]
  · rw [String.utf8EncodeChar]
    simp only [hv, h1, h2, h3, if_false]
    rw [List.cons_append, List.cons_append, List.cons_append, List.singleton_append,
      decodeFrom_none_cons, opening_four (by omega) (by omega)]
    simp only []
    rw [decodeFrom_inner _ (by omega) (by split <;> omega) (by split <;> omega),
      decodeFrom_inner _ (by omega) (by omega) (by omega),
      decodeFrom_last _ (by omega) (by omega) (by omega),
      show (((n / 262144 % 8 + 0xF0 - 0xF0) * 64 + n / 4096 % 64) * 64 + n / 64 % 64) * 64
        + n % 64 = n by omega, hback]

/-- Decoding undoes encoding, whatever follows. -/
theorem decodeChars_encodeChars_append (text : List Char) (bytes : List UInt8) :
    decodeChars (encodeChars text ++ bytes) = text ++ decodeChars bytes := by
  induction text with
  | nil => rfl
  | cons c text ih =>
    rw [encodeChars_cons, List.append_assoc, decodeChars_eq, decodeFrom_encodeChar,
      ← decodeChars_eq, ih, List.cons_append]

theorem decodeChars_encodeChars (text : List Char) : decodeChars (encodeChars text) = text := by
  have h := decodeChars_encodeChars_append text []
  rwa [List.append_nil, show decodeChars [] = [] from rfl, List.append_nil] at h

@[simp] theorem decode_encode (text : String) : decode (encode text) = text := by
  rw [decode, encode, decodeChars_encodeChars, String.ofList_toList]

def isAscii (byte : UInt8) : Bool := byte.toNat < 0x80

/-- What a character that has begun may still become: no ASCII character and no surrogate. The
products are the least value it can reach and a bound above the greatest one. -/
structure Sequence.Legal (s : Sequence) : Prop where
  low_ge : 0x80 ≤ s.low
  high_le : s.high ≤ 0xBF
  least_ge : 0x80 ≤ (s.value * 64 + (s.low - 0x80)) * 64 ^ s.left
  scalar : (s.value * 64 + (s.high - 0x80) + 1) * 64 ^ s.left ≤ 0xD800 ∨
    0xE000 ≤ (s.value * 64 + (s.low - 0x80)) * 64 ^ s.left ∧
      (s.value * 64 + (s.high - 0x80) + 1) * 64 ^ s.left ≤ 0x110000

theorem opening_of_ascii {byte : UInt8} (h : isAscii byte = true) :
    opening byte = .char (Char.ofNat byte.toNat) := by
  have hlt : byte.toNat < 0x80 := by simpa [isAscii] using h
  simp only [opening, hlt, if_true]

def Opening.Legal : Opening → Prop
  | char _ => False
  | sequence s => s.Legal
  | invalid => True

private theorem Opening.legal_ite {p : Prop} [Decidable p] {a b : Opening} (ha : p → a.Legal)
    (hb : ¬ p → b.Legal) : (if p then a else b).Legal := by
  split
  · exact ha ‹_›
  · exact hb ‹_›

theorem opening_legal {byte : UInt8} (h : ¬ isAscii byte = true) :
    (opening byte).Legal := by
  have hge : ¬ byte.toNat < 0x80 := by simpa [isAscii] using h
  simp only [opening]
  generalize byte.toNat = n at hge
  rw [if_neg hge]
  repeat' (apply Opening.legal_ite <;> intro _)
  all_goals first
    | exact trivial
    | (refine Sequence.Legal.mk ?_ ?_ ?_ ?_ <;> simp only [] <;> omega)

theorem toNat_charOfNat {n : Nat} (h : n < 0xD800 ∨ 0xDFFF < n ∧ n < 0x110000) :
    (Char.ofNat n).toNat = n := by
  rw [Char.ofNat, dif_pos h]
  rfl

private theorem Sequence.Legal.inner {left value low high n : Nat}
    (h : Legal ⟨left + 1, value, low, high⟩) (hlow : low ≤ n) (hhigh : n ≤ high) :
    Legal ⟨left, value * 64 + n % 64, 0x80, 0xBF⟩ := by
  obtain ⟨hge, hle, hleast, hscalar⟩ := h
  simp only [Nat.pow_succ'] at hge hle hleast hscalar
  have hn : n % 64 = n - 0x80 := by omega
  -- The byte gives six bits to the value and takes six from what is left, so both bounds stay.
  have hfrom : (value * 64 + (low - 0x80)) * (64 * 64 ^ left) ≤
      ((value * 64 + n % 64) * 64 + (0x80 - 0x80)) * 64 ^ left := by
    rw [← Nat.mul_assoc]
    exact Nat.mul_le_mul_right _ (by omega)
  have hto : ((value * 64 + n % 64) * 64 + (0xBF - 0x80) + 1) * 64 ^ left ≤
      (value * 64 + (high - 0x80) + 1) * (64 * 64 ^ left) := by
    rw [← Nat.mul_assoc]
    exact Nat.mul_le_mul_right _ (by omega)
  constructor <;> simp only [] <;> omega

private theorem Sequence.Legal.last {value low high n : Nat} (h : Legal ⟨0, value, low, high⟩)
    (hlow : low ≤ n) (hhigh : n ≤ high) :
    (Char.ofNat (value * 64 + n % 64)).toNat = value * 64 + n % 64 ∧
      0x80 ≤ value * 64 + n % 64 := by
  obtain ⟨hge, hle, hleast, hscalar⟩ := h
  simp only [Nat.pow_zero, Nat.mul_one] at hge hle hleast hscalar
  exact ⟨toNat_charOfNat (by omega), by omega⟩

private theorem not_ascii_replacement : ¬ replacement.toNat < 0x80 := by decide

private theorem filter_decodeFrom_none_cons {byte : UInt8} {bytes : List UInt8}
    (hrest : ∀ begun : Option Sequence, (∀ s, begun = some s → s.Legal) →
      (decodeFrom begun bytes).filter (·.toNat < 0x80) =
        (bytes.filter isAscii).map fun byte => Char.ofNat byte.toNat) :
    (decodeFrom none (byte :: bytes)).filter (·.toNat < 0x80) =
      ((byte :: bytes).filter isAscii).map fun byte => Char.ofNat byte.toNat := by
  rw [decodeFrom_none_cons]
  by_cases hascii : isAscii byte = true
  · have hvalue : (Char.ofNat byte.toNat).toNat < 0x80 := by
      have hlt : byte.toNat < 0x80 := by simpa [isAscii] using hascii
      rw [toNat_charOfNat (by omega)]
      exact hlt
    simp only [opening_of_ascii hascii, List.filter_cons, hvalue, hascii, decide_true, if_true,
      List.map_cons, hrest none (by simp)]
  · have hlegal := opening_legal hascii
    cases hopening : opening byte with
    | char c =>
      rw [hopening] at hlegal
      exact hlegal.elim
    | sequence s =>
      have hs : s.Legal := by rwa [hopening] at hlegal
      simp only [List.filter_cons, hascii]
      exact hrest (some s) (by simpa using hs)
    | invalid =>
      simp only [List.filter_cons, hascii, not_ascii_replacement, decide_false]
      exact hrest none (by simp)

/-- ASCII characters come from ASCII bytes and from nothing else, in order. -/
private theorem filter_decodeFrom (bytes : List UInt8) (begun : Option Sequence)
    (hbegun : ∀ s, begun = some s → s.Legal) : (decodeFrom begun bytes).filter (·.toNat < 0x80) =
      (bytes.filter isAscii).map fun byte => Char.ofNat byte.toNat := by
  induction bytes generalizing begun with
  | nil =>
    cases begun with
    | none => rfl
    | some s => simp [not_ascii_replacement]
  | cons byte bytes ih =>
    cases begun with
    | none => exact filter_decodeFrom_none_cons ih
    | some s =>
      obtain ⟨left, value, low, high⟩ := s
      have hs : Sequence.Legal ⟨left, value, low, high⟩ := hbegun _ rfl
      by_cases hin : low ≤ byte.toNat ∧ byte.toNat ≤ high
      · have hnot : ¬ isAscii byte = true := by
          have hge : 0x80 ≤ low := hs.low_ge
          simp only [isAscii, decide_eq_true_eq]
          omega
        rw [decodeFrom_some_cons bytes hin]
        cases left with
        | zero =>
          have hlast := hs.last hin.1 hin.2
          simp only [List.filter_cons, hnot, hlast.1, Nat.not_lt.mpr hlast.2, decide_false]
          exact ih none (by simp)
        | succ left =>
          simp only [List.filter_cons, hnot]
          exact ih _ (by simpa using hs.inner hin.1 hin.2)
      · -- The character breaks off, and the byte is read as one that begins.
        rw [decodeFrom_some_cons_of_not bytes hin, List.filter_cons]
        simp only [not_ascii_replacement, decide_false]
        exact filter_decodeFrom_none_cons ih

theorem filter_decodeChars (bytes : List UInt8) :
    (decodeChars bytes).filter (·.toNat < 0x80) =
      (bytes.filter isAscii).map fun byte => Char.ofNat byte.toNat :=
  filter_decodeFrom bytes none (by simp)

theorem mem_decodeChars_iff_of_ascii {byte : UInt8} (h : isAscii byte = true)
    (bytes : List UInt8) : Char.ofNat byte.toNat ∈ decodeChars bytes ↔ byte ∈ bytes := by
  have hlt : byte.toNat < 0x80 := by simpa [isAscii] using h
  have hvalue : (Char.ofNat byte.toNat).toNat = byte.toNat := toNat_charOfNat (by omega)
  have hfilter : Char.ofNat byte.toNat ∈ decodeChars bytes ↔
      Char.ofNat byte.toNat ∈ (decodeChars bytes).filter (·.toNat < 0x80) := by
    simp [List.mem_filter, hvalue, hlt]
  rw [hfilter, filter_decodeChars, List.mem_map]
  constructor
  · intro hmap
    obtain ⟨other, hmem, heq⟩ := hmap
    have hother := List.mem_filter.mp hmem
    have hsmall : other.toNat < 0x80 := by simpa [isAscii] using hother.2
    have hsame : other.toNat = byte.toNat := by
      rw [← hvalue, ← heq]
      exact (toNat_charOfNat (by omega)).symm
    rw [← UInt8.toNat_inj.mp hsame]
    exact hother.1
  · intro hmem
    exact ⟨byte, List.mem_filter.mpr ⟨hmem, h⟩, rfl⟩

theorem decodeChars_cons_of_ascii {byte : UInt8} (h : isAscii byte = true) (bytes : List UInt8) :
    decodeChars (byte :: bytes) = Char.ofNat byte.toNat :: decodeChars bytes := by
  rw [decodeChars_eq, decodeFrom_none_cons, opening_of_ascii h, decodeChars_eq]

theorem encodeChar_of_ascii {byte : UInt8} (h : isAscii byte = true) :
    String.utf8EncodeChar (Char.ofNat byte.toNat) = [byte] := by
  have hlt : byte.toNat < 0x80 := by simpa [isAscii] using h
  have hvalue : (Char.ofNat byte.toNat).val.toNat = byte.toNat := toNat_charOfNat (by omega)
  rw [String.utf8EncodeChar]
  simp only [hvalue]
  rw [if_pos (by omega), UInt8.ofNat_toNat]

private theorem encodeChars_decodeChars_of_ascii {bytes : List UInt8}
    (h : ∀ byte ∈ bytes, isAscii byte = true) : encodeChars (decodeChars bytes) = bytes := by
  induction bytes with
  | nil => rfl
  | cons byte bytes ih =>
    have hbyte : isAscii byte = true := h byte (by simp)
    rw [decodeChars_cons_of_ascii hbyte, encodeChars_cons, encodeChar_of_ascii hbyte,
      ih fun other hother => h other (by simp [hother])]
    rfl

theorem encode_decode_of_ascii {bytes : List UInt8} (h : ∀ byte ∈ bytes, isAscii byte = true) :
    encode (decode bytes) = bytes := by
  rw [encode, toList_decode, encodeChars_decodeChars_of_ascii h]

def asciiByte (c : Char) : UInt8 := UInt8.ofNat c.toNat

theorem toNat_asciiByte {c : Char} (h : c.toNat < 0x80) : (asciiByte c).toNat = c.toNat :=
  toNat_ofNat_byte (by omega)

private theorem decodeChars_of_ascii {bytes : List UInt8}
    (h : ∀ byte ∈ bytes, isAscii byte = true) :
    decodeChars bytes = bytes.map fun byte => Char.ofNat byte.toNat := by
  induction bytes with
  | nil => rfl
  | cons byte bytes ih =>
    obtain ⟨hbyte, hbytes⟩ := List.forall_mem_cons.mp h
    rw [decodeChars_cons_of_ascii hbyte, ih hbytes, List.map_cons]

theorem encodeChars_of_ascii {text : List Char} (h : ∀ c ∈ text, c.toNat < 0x80) :
    encodeChars text = text.map asciiByte := by
  induction text with
  | nil => rfl
  | cons c text ih =>
    obtain ⟨hc, htext⟩ := List.forall_mem_cons.mp h
    have hbyte : isAscii (asciiByte c) = true := by simpa [isAscii, toNat_asciiByte hc] using hc
    have hchar : Char.ofNat (asciiByte c).toNat = c := by
      rw [toNat_asciiByte hc, Char.ofNat_toNat]
    have hencode := encodeChar_of_ascii hbyte
    rw [hchar] at hencode
    rw [encodeChars_cons, hencode, ih htext]
    rfl

theorem isAscii_encodeChars_iff (text : List Char) :
    (∀ byte ∈ encodeChars text, isAscii byte = true) ↔ ∀ c ∈ text, c.toNat < 0x80 := by
  constructor
  · intro h c hc
    rw [← decodeChars_encodeChars text, decodeChars_of_ascii h] at hc
    obtain ⟨byte, hbyte, rfl⟩ := List.mem_map.mp hc
    have hlt : byte.toNat < 0x80 := by simpa [isAscii] using h byte hbyte
    rwa [toNat_charOfNat (by omega)]
  · intro h byte hbyte
    rw [encodeChars_of_ascii h] at hbyte
    obtain ⟨c, hc, rfl⟩ := List.mem_map.mp hbyte
    simpa [isAscii, toNat_asciiByte (h c hc)] using h c hc

def isContinuation (byte : UInt8) : Bool := 0x80 ≤ byte.toNat && byte.toNat ≤ 0xBF

private theorem isContinuation_of_ascii {byte : UInt8} (h : isAscii byte = true) :
    isContinuation byte = false := by
  have hlt : byte.toNat < 0x80 := by simpa [isAscii] using h
  simp only [isContinuation, Bool.and_eq_false_iff, decide_eq_false_iff_not]
  omega

def Decoder.Legal (d : Decoder) : Prop := ∀ s, d.begun = some s → s.Legal

private theorem legal_start (read : List Char) (byte : UInt8) :
    (Decoder.start read byte).Legal := by
  intro s hs
  by_cases hascii : isAscii byte = true
  · rw [Decoder.start, opening_of_ascii hascii] at hs
    cases hs
  · have hlegal := opening_legal hascii
    rw [Decoder.start] at hs
    cases hopening : opening byte with
    | char c =>
      rw [hopening] at hlegal
      exact hlegal.elim
    | sequence begun =>
      rw [hopening] at hlegal hs
      obtain rfl := Option.some.inj hs
      exact hlegal
    | invalid =>
      rw [hopening] at hs
      cases hs

private theorem Decoder.Legal.step {d : Decoder} (h : d.Legal) (byte : UInt8) :
    (d.step byte).Legal := by
  obtain ⟨read, begun⟩ := d
  cases begun with
  | none => exact legal_start read byte
  | some s =>
    obtain ⟨left, value, low, high⟩ := s
    have hs : Sequence.Legal ⟨left, value, low, high⟩ := h _ rfl
    by_cases hin : low ≤ byte.toNat ∧ byte.toNat ≤ high
    · cases left with
      | zero => simp [Decoder.step, hin, Decoder.Legal]
      | succ left => simpa [Decoder.step, hin, Decoder.Legal] using hs.inner hin.1 hin.2
    · simpa [Decoder.step, hin] using legal_start (replacement :: read) byte

private theorem Decoder.Legal.foldl {d : Decoder} (h : d.Legal) (bytes : List UInt8) :
    (bytes.foldl Decoder.step d).Legal := by
  induction bytes generalizing d with
  | nil => exact h
  | cons byte bytes ih => exact ih (h.step byte)

private theorem finish_foldl_of_legal {d : Decoder} (hlegal : d.Legal) {rest : List UInt8}
    (h : ∀ byte, rest.head? = some byte → isContinuation byte = false) :
    (rest.foldl Decoder.step d).finish = d.finish ++ decodeChars rest := by
  obtain ⟨read, begun⟩ := d
  rw [finish_foldl, decodeChars_eq]
  cases begun with
  | none => rfl
  | some s =>
    have hbroken : decodeFrom (some s) rest = replacement :: decodeFrom none rest := by
      cases rest with
      | nil => rfl
      | cons byte rest =>
        refine decodeFrom_some_cons_of_not rest fun hin => ?_
        have hs : s.Legal := hlegal s rfl
        have hlow := hs.low_ge
        have hhigh := hs.high_le
        have hnot := h byte rfl
        simp only [isContinuation, Bool.and_eq_false_iff, decide_eq_false_iff_not] at hnot
        omega
    rw [hbroken]
    simp [Decoder.finish]

/-- Bytes come apart before a byte that continues no character. -/
theorem decodeChars_append {bytes rest : List UInt8}
    (h : ∀ byte, rest.head? = some byte → isContinuation byte = false) :
    decodeChars (bytes ++ rest) = decodeChars bytes ++ decodeChars rest := by
  have hempty : Decoder.empty.Legal := nofun
  rw [decodeChars, List.foldl_append]
  exact finish_foldl_of_legal (hempty.foldl bytes) h

/-- An ASCII byte adds its character, also behind a character that it breaks off. -/
theorem decode_snoc_of_ascii {byte : UInt8} (h : isAscii byte = true) (bytes : List UInt8) :
    decode (bytes ++ [byte]) = decode bytes ++ String.singleton (Char.ofNat byte.toNat) := by
  have happend : decodeChars (bytes ++ [byte]) = decodeChars bytes ++ decodeChars [byte] := by
    refine decodeChars_append fun first hfirst => ?_
    obtain rfl := Option.some.inj hfirst
    exact isContinuation_of_ascii h
  apply String.toList_inj.mp
  rw [toList_decode, happend, decodeChars_cons_of_ascii h]
  simp [decodeChars_eq]

private theorem decodeFrom_some_ne_nil (bytes : List UInt8) (s : Sequence) :
    decodeFrom (some s) bytes ≠ [] := by
  induction bytes generalizing s with
  | nil => simp
  | cons byte bytes ih =>
    by_cases hin : s.low ≤ byte.toNat ∧ byte.toNat ≤ s.high
    · rw [decodeFrom_some_cons bytes hin]
      cases s.left with
      | zero => simp
      | succ left => exact ih _
    · rw [decodeFrom_some_cons_of_not bytes hin]
      simp

@[simp] theorem decodeChars_eq_nil_iff (bytes : List UInt8) :
    decodeChars bytes = [] ↔ bytes = [] := by
  constructor
  · intro h
    cases bytes with
    | nil => rfl
    | cons byte bytes =>
      rw [decodeChars_eq, decodeFrom_none_cons] at h
      cases hopening : opening byte with
      | char c => simp [hopening] at h
      | sequence s =>
        simp only [hopening] at h
        exact absurd h (decodeFrom_some_ne_nil bytes s)
      | invalid => simp [hopening] at h
  · intro h
    rw [h]
    rfl

theorem eq_nil_of_decode_encode_append {text : String} {bytes : List UInt8}
    (h : decode (encode text ++ bytes) = text) : bytes = [] := by
  have hchars : text.toList ++ decodeChars bytes = text.toList := by
    rw [← decodeChars_encodeChars_append, ← toList_decode]
    exact congrArg String.toList h
  exact (decodeChars_eq_nil_iff bytes).mp (List.append_right_eq_self.mp hchars)

private theorem encodeChar_eq_of_mem {c : Char} {byte : UInt8} (h : isAscii byte = true)
    (hmem : byte ∈ String.utf8EncodeChar c) :
    c = Char.ofNat byte.toNat ∧ String.utf8EncodeChar c = [byte] := by
  have hmem' : byte ∈ encodeChars [c] := by simpa using hmem
  have hc := (mem_decodeChars_iff_of_ascii h _).mpr hmem'
  rw [decodeChars_encodeChars, List.mem_singleton] at hc
  exact ⟨hc.symm, hc ▸ encodeChar_of_ascii h⟩

/-- An ASCII byte of an encoded text is a character of the text. -/
theorem exists_chars_of_ascii {text : List Char} {front rest : List UInt8} {byte : UInt8}
    (h : isAscii byte = true) (htext : encodeChars text = front ++ byte :: rest) :
    ∃ before after, text = before ++ Char.ofNat byte.toNat :: after ∧
      encodeChars before = front ∧ encodeChars after = rest := by
  induction text generalizing front with
  | nil => simp at htext
  | cons c text ih =>
    -- The byte lies behind the first character, or is one of its bytes.
    rcases List.append_eq_append_iff.mp htext with ⟨inner, hfront, hinner⟩ | ⟨inner, hchar, hrest⟩
    · obtain ⟨before, after, rfl, hbefore, hafter⟩ := ih hinner
      exact ⟨c :: before, after, rfl, by rw [encodeChars_cons, hbefore, hfront], hafter⟩
    · cases inner with
      | nil =>
        have htail : encodeChars text = [] ++ byte :: rest := hrest.symm
        obtain ⟨before, after, rfl, hbefore, hafter⟩ := ih htail
        refine ⟨c :: before, after, rfl, ?_, hafter⟩
        rw [encodeChars_cons, hbefore, hchar, List.append_nil, List.append_nil]
      | cons b inner =>
        have hfirst : b = byte := (List.cons.inj hrest).1.symm
        obtain ⟨rfl, hbyte⟩ := encodeChar_eq_of_mem h (by rw [hchar, hfirst]; simp)
        rw [hbyte] at hchar
        rcases List.append_eq_singleton_iff.mp hchar.symm with ⟨rfl, hinner⟩ | ⟨_, hnil⟩
        · cases hinner
          exact ⟨[], text, rfl, rfl, (List.cons.inj hrest).2.symm⟩
        · cases hnil

/-- What follows one encoded text within another is encoded, too. -/
theorem exists_chars_of_append {text piece : List Char} {rest : List UInt8}
    (h : encodeChars text = encodeChars piece ++ rest) :
    ∃ after, text = piece ++ after ∧ encodeChars after = rest := by
  have htext : text = piece ++ decodeChars rest := by
    rw [← decodeChars_encodeChars_append, ← h, decodeChars_encodeChars]
  refine ⟨decodeChars rest, htext, ?_⟩
  rw [htext, encodeChars_append] at h
  exact List.append_cancel_left h

end ByteLexer.Utf8

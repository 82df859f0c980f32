import ByteLexer.Text.Span

/-! # Reading ill-formed bytes

What bytes are read as, said without a decoder: a character where the encoded form of one stands,
and elsewhere one U+FFFD for each longest part that is a single byte or begins the encoded form of
some character. -/
namespace ByteLexer.Utf8

/-- A single byte, or bytes with which the encoded form of some character begins. -/
def IsSubpart (bytes : List UInt8) : Prop :=
  bytes.length = 1 ∨ bytes ≠ [] ∧ ∃ c, bytes <+: String.utf8EncodeChar c

inductive ReadsAs : List UInt8 → List Char → Prop where
  | nil : ReadsAs [] []
  | char (c : Char) (rest : List UInt8) (text : List Char) (h : ReadsAs rest text) :
    ReadsAs (String.utf8EncodeChar c ++ rest) (c :: text)
  | illFormed (part rest : List UInt8) (text : List Char)
    (hnone : ∀ c, ¬ String.utf8EncodeChar c <+: part ++ rest)
    (hpart : LongestFront IsSubpart (part ++ rest) part) (h : ReadsAs rest text) :
    ReadsAs (part ++ rest) (replacement :: text)

theorem IsSubpart.ne_nil {bytes : List UInt8} (h : IsSubpart bytes) : bytes ≠ [] := by
  rcases h with hone | ⟨hne, _⟩
  · exact List.ne_nil_of_length_pos (hone ▸ Nat.one_pos)
  · exact hne

end ByteLexer.Utf8

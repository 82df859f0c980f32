import ByteLexer.Text.Utf8

/-! # Parts of byte lists

`spanText` is the text of a part. `LongestFront` says which part at the front is the longest one
that belongs to a language. -/
namespace ByteLexer

def Utf8.spanText (bytes : List UInt8) (start stop : Nat) : String :=
  decode (bytes.extract start stop)

theorem extract_add (bytes : List UInt8) (start n : Nat) :
    bytes.extract start (start + n) = (bytes.drop start).take n := by
  rw [List.extract_eq_take_drop, Nat.add_sub_cancel_left]

theorem extract_append_extract (bytes : List UInt8) {i j k : Nat} (hij : i ≤ j) (hjk : j ≤ k) :
    bytes.extract i j ++ bytes.extract j k = bytes.extract i k := by
  obtain ⟨m, rfl⟩ := Nat.exists_eq_add_of_le hij
  obtain ⟨n, rfl⟩ := Nat.exists_eq_add_of_le hjk
  rw [extract_add, extract_add, Nat.add_assoc, extract_add, List.take_add, List.drop_drop]

/-- Of the parts at the front of `bytes` that belong to a language, `front` is the longest. -/
structure LongestFront (language : List UInt8 → Prop) (bytes front : List UInt8) : Prop where
  mem : language front
  isPrefix : front <+: bytes
  length_le : ∀ other, language other → other <+: bytes → other.length ≤ front.length

theorem LongestFront.unique {language : List UInt8 → Prop} {bytes front other : List UInt8}
    (h : LongestFront language bytes front) (hother : LongestFront language bytes other) :
    front = other := by
  have hle := h.length_le other hother.mem hother.isPrefix
  have hge := hother.length_le front h.mem h.isPrefix
  exact (List.prefix_of_prefix_length_le h.isPrefix hother.isPrefix hge).eq_of_length
    (Nat.le_antisymm hge hle)

end ByteLexer

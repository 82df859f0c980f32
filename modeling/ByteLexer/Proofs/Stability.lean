import ByteLexer.Proofs.Ending

/-!
# Sources that grow

Bytes put behind a source leave its events as they are, apart from a last token that reaches the
end: it begins where it did and does not get shorter.
-/

namespace ByteLexer

/-- An event that bytes behind its source cannot change: one with another behind it, one that ends
before the source does, or a skipped byte. -/
def Settled (source : List UInt8) (i : Nat) (e : Event) : Prop :=
  i + 1 < (events source).length ∨ e.stop < source.length ∨ e.token? = none

private theorem Closed.getElem?_append {source : List UInt8} (h : Closed source) {i : Nat}
    {e : Event} (he : (events source)[i]? = some e) (tail : List UInt8) :
    (events (source ++ tail))[i]? = some e := by
  rw [h.events_append, List.getElem?_append_left (List.getElem?_eq_some_iff.mp he).1, he]

private theorem EndsInToken.getElem?_append {source front : List UInt8} {b : UInt8}
    {more : List UInt8} {lead : Lead} (h : EndsInToken source front b more lead) {i : Nat}
    (hi : i < (events front).length) (tail : List UInt8) :
    (events (source ++ tail))[i]? = (events source)[i]? := by
  rw [h.events_append, h.events_eq, List.getElem?_append_left hi, List.getElem?_append_left hi]

private theorem EndsInToken.getElem?_last {source front : List UInt8} {b : UInt8}
    {more : List UInt8} {lead : Lead} (h : EndsInToken source front b more lead)
    (tail : List UInt8) : ∃ stop t,
      (events (source ++ tail))[(events front).length]? = some (.token front.length stop t) ∧
        source.length ≤ stop := by
  obtain ⟨t, later, hlonger⟩ := h.exists_events_append tail
  have hreach := Lead.length_le_reach h.accepts (List.prefix_append more tail)
  have hlength := h.length_eq
  refine ⟨front.length + (lead.reach (more ++ tail) + 1), t, ?_, by omega⟩
  rw [hlonger, List.getElem?_append_right (Nat.le_refl _), Nat.sub_self]
  rfl

/-- More bytes behind a source keep its settled events in their places. A last token that reaches
the end of the source keeps its place and start, and its span only grows. -/
theorem events_append_stable (source tail : List UInt8) (i : Nat) (e : Event)
    (he : (events source)[i]? = some e) :
    (Settled source i e → (events (source ++ tail))[i]? = some e) ∧
    (∀ start t, i + 1 = (events source).length → e = .token start source.length t →
      ∃ stop u, (events (source ++ tail))[i]? = some (.token start stop u) ∧
        source.length ≤ stop) := by
  rcases closed_or_endsInToken source with hclosed | ⟨front, b, more, lead, h⟩
  · have hkept := hclosed.getElem?_append he tail
    refine ⟨fun _ => hkept, ?_⟩
    intro start t _ htoken
    exact ⟨source.length, t, htoken ▸ hkept, Nat.le_refl _⟩
  · have hcount : (events source).length = (events front).length + 1 := by
      rw [h.events_eq, List.length_append, List.length_singleton]
    have hi : i < (events source).length := (List.getElem?_eq_some_iff.mp he).1
    -- Only the last event can be the token that goes on; those before it are the events of `front`.
    by_cases hlast : i = (events front).length
    · rw [hlast, h.events_eq, List.getElem?_concat_length] at he
      cases he
      refine ⟨?_, ?_⟩
      · intro hsettled
        rcases hsettled with hmore | hstop | htoken
        · omega
        · exact absurd hstop (Nat.lt_irrefl _)
        · cases htoken
      · intro start t _ htoken
        cases htoken
        rw [hlast]
        exact h.getElem?_last tail
    · refine ⟨?_, ?_⟩
      · intro _
        rw [h.getElem?_append (by omega), he]
      · intro start t hend
        omega

/-- A second equals sign leaves the word as it is and lengthens the token behind it. -/
theorem events_append_stable_equals :
    let source : List UInt8 := [0x78, 0x20, 0x3D]
    let first := Event.token 0 1 (.payload .identifier "x")
    let last := Event.token 2 3 (.unit .assign)
    (events source)[0]? = some first ∧ Settled source 0 first ∧
      (events (source ++ [0x3D]))[0]? = some first ∧ (events source)[1]? = some last ∧
      ∃ stop u, (events (source ++ [0x3D]))[1]? = some (.token 2 stop u) ∧ 3 ≤ stop := by
  intro source first last
  have hevents : events source = [first, last] := by decide +kernel
  have hfirst : (events source)[0]? = some first := by rw [hevents]; rfl
  have hlast : (events source)[1]? = some last := by rw [hevents]; rfl
  have hsettled : Settled source 0 first := Or.inr (Or.inl (by decide))
  have hlength : (events source).length = 2 := by rw [hevents]; rfl
  refine ⟨hfirst, hsettled, ?_, hlast, ?_⟩
  · exact (events_append_stable source [0x3D] 0 first hfirst).1 hsettled
  · exact (events_append_stable source [0x3D] 1 last hlast).2 2 (.unit .assign) hlength.symm rfl

end ByteLexer

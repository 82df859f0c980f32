import ByteLexer.Proofs.Boundary

/-!
# How a source ends

A source is closed if no token reaches its end: what is put behind it is then scanned as a source of
its own. Otherwise it ends inside its last token, and only that one may change.
-/

namespace ByteLexer

theorem events_lead_append {b : UInt8} {lead : Lead} (hlead : Lead.ofByte? b = some lead)
    {more tail : List UInt8} (hreach : lead.reach (more ++ tail) = more.length) :
    events (b :: more ++ tail) =
      .token 0 (more.length + 1) (lead.token more.length (b :: more)) ::
        (events tail).map (Event.shift (more.length + 1)) := by
  rw [List.cons_append, events_lead_cons hlead, hreach, List.take_left, List.drop_left]

structure Closed (source : List UInt8) : Prop where
  last_ne : ∀ start t, (events source).getLast? ≠ some (.token start source.length t)
  events_append : ∀ tail, events (source ++ tail) =
    events source ++ (events tail).map (Event.shift source.length)

/-- Behind `front` the last token of the source begins with `b` and takes in all that is left. -/
structure EndsInToken (source front : List UInt8) (b : UInt8) (more : List UInt8) (lead : Lead) :
    Prop where
  source_eq : source = front ++ b :: more
  lead_eq : Lead.ofByte? b = some lead
  accepts : lead.Accepts more
  events_append : ∀ tail, events (source ++ tail) =
    events front ++ (events (b :: more ++ tail)).map (Event.shift front.length)

/-- The bytes `front` are scanned to `found` before all that agrees with `rest` as far as both
go. -/
private def ScansBefore (front rest : List UInt8) (found : List Event) : Prop :=
  ∀ tail, tail <+: rest ∨ rest <+: tail →
    events (front ++ tail) = found ++ (events tail).map (Event.shift front.length)

private theorem Closed.prepend {rest front : List UInt8} {found : List Event} (h : Closed rest)
    (hfront : ScansBefore front rest found)
    (hfound : ∀ start t, found.getLast? ≠ some (.token start (front ++ rest).length t)) :
    Closed (front ++ rest) := by
  have hrest := hfront rest (Or.inl List.prefix_rfl)
  refine ⟨?_, ?_⟩
  · intro start t hlast
    rw [hrest, List.getLast?_append, List.getLast?_map] at hlast
    cases hend : (events rest).getLast? with
    | none =>
      rw [hend, Option.map_none, Option.none_or] at hlast
      exact hfound start t hlast
    | some e =>
      rw [hend, Option.map_some, Option.some_or, Option.some.injEq] at hlast
      cases e with
      | token start' stop u =>
        obtain ⟨_, hstop, _⟩ := Event.token.inj hlast
        rw [List.length_append, Nat.add_comm, Nat.add_left_cancel_iff] at hstop
        exact h.last_ne start' u (hstop ▸ hend)
      | skipped offset byte => cases hlast
  · intro tail
    rw [List.append_assoc, hfront _ (Or.inr (List.prefix_append rest tail)), h.events_append,
      hrest, List.map_append, Event.map_shift_map_shift, List.length_append, List.append_assoc,
      Nat.add_comm]

private theorem EndsInToken.prepend {rest front inner : List UInt8} {found : List Event} {b : UInt8}
    {more : List UInt8} {lead : Lead} (h : EndsInToken rest inner b more lead)
    (hfront : ScansBefore front rest found) :
    EndsInToken (front ++ rest) (front ++ inner) b more lead := by
  refine ⟨?_, h.lead_eq, h.accepts, ?_⟩
  · rw [h.source_eq, List.append_assoc]
  · intro tail
    rw [List.append_assoc, hfront _ (Or.inr (List.prefix_append rest tail)), h.events_append,
      hfront inner (Or.inl ⟨b :: more, h.source_eq.symm⟩), List.map_append,
      Event.map_shift_map_shift, List.length_append, List.append_assoc, Nat.add_comm]

private theorem scansBefore_lead {b : UInt8} {lead : Lead} (hlead : Lead.ofByte? b = some lead)
    {after : List UInt8} (hrest : after.drop (lead.reach after) ≠ []) :
    ScansBefore (b :: after.take (lead.reach after)) (after.drop (lead.reach after))
      [.token 0 (lead.reach after + 1)
        (lead.token (lead.reach after) (b :: after.take (lead.reach after)))] := by
  intro tail hagrees
  have hreach : lead.reach (after.take (lead.reach after) ++ tail) = lead.reach after := by
    apply Lead.reach_take_append
    intro c hc
    rcases hagrees with ⟨more, hmore⟩ | ⟨more, hmore⟩
    · rw [← hmore, List.head?_append, hc, Option.some_or]
    · obtain ⟨d, others, hcons⟩ := List.exists_cons_of_ne_nil hrest
      rw [← hmore, hcons] at hc
      rw [hcons]
      exact hc
  rw [events_lead_append hlead (hreach.trans (lead.length_take_reach after).symm),
    List.length_cons, lead.length_take_reach]
  rfl

private theorem prepend_closed_or_endsInToken {front rest : List UInt8} {found : List Event}
    (hrest : Closed rest ∨ ∃ inner b more lead, EndsInToken rest inner b more lead)
    (hfront : ScansBefore front rest found)
    (hfound : ∀ start t, found.getLast? ≠ some (.token start (front ++ rest).length t)) :
    Closed (front ++ rest) ∨
      ∃ inner b more lead, EndsInToken (front ++ rest) inner b more lead := by
  rcases hrest with hclosed | ⟨inner, b, more, lead, hends⟩
  · exact Or.inl (hclosed.prepend hfront hfound)
  · exact Or.inr ⟨front ++ inner, b, more, lead, hends.prepend hfront⟩

theorem closed_or_endsInToken (source : List UInt8) :
    Closed source ∨ ∃ front b more lead, EndsInToken source front b more lead := by
  induction source using source_induction with
  | nil =>
    refine Or.inl ⟨by simp, ?_⟩
    intro tail
    rw [List.nil_append, events_nil, List.nil_append, List.length_nil, Event.map_shift_zero]
  | blank b after hblank ih =>
    have hfront : ScansBefore [b] after [] := fun tail _ => events_blank_cons hblank tail
    exact prepend_closed_or_endsInToken ih hfront (by simp)
  | skipped b after hlead hblank ih =>
    have hfront : ScansBefore [b] after [.skipped 0 b] :=
      fun tail _ => events_skipped_cons hlead hblank tail
    exact prepend_closed_or_endsInToken ih hfront (by simp)
  | token b after lead hlead ih =>
    have hsplit := List.take_append_drop (lead.reach after) after
    by_cases hrest : after.drop (lead.reach after) = []
    · -- Nothing is left behind the token, so it is the last one and may go on.
      have haccepts := lead.accepts_take_reach after
      rw [hrest, List.append_nil] at hsplit
      rw [hsplit] at haccepts
      refine Or.inr ⟨[], b, after, lead, rfl, hlead, haccepts, ?_⟩
      intro tail
      rw [events_nil, List.nil_append, List.length_nil, Event.map_shift_zero]
    · -- What is left stopped the token, and stops it whatever stands behind.
      have hlong := prepend_closed_or_endsInToken ih (scansBefore_lead hlead hrest) ?_
      · rwa [List.cons_append, hsplit] at hlong
      · intro start t hlast
        have hpos := List.length_pos_iff.mpr hrest
        rw [List.length_drop] at hpos
        rw [List.cons_append, hsplit, List.length_cons] at hlast
        obtain ⟨_, hstop, _⟩ := Event.token.inj (Option.some.inj hlast)
        omega

namespace EndsInToken

variable {source front : List UInt8} {b : UInt8} {more : List UInt8} {lead : Lead}

/-- With more bytes the last token begins where it did and ends where its lead stops. -/
theorem exists_events_append (h : EndsInToken source front b more lead) (tail : List UInt8) :
    ∃ t later, events (source ++ tail) = events front ++
      .token front.length (front.length + (lead.reach (more ++ tail) + 1)) t :: later := by
  rw [h.events_append, List.cons_append, events_lead_cons h.lead_eq, List.map_cons, Event.shift,
    Nat.zero_add, Nat.add_comm _ front.length]
  exact ⟨_, _, rfl⟩

theorem events_eq (h : EndsInToken source front b more lead) : events source = events front ++
    [.token front.length source.length (lead.token more.length (b :: more))] := by
  have hreach : lead.reach (more ++ []) = more.length := by
    rw [List.append_nil, Lead.accepts_iff_reach.mp h.accepts]
  have hempty := h.events_append []
  rw [events_lead_append h.lead_eq hreach, List.append_nil, events_nil] at hempty
  rw [hempty, h.source_eq, List.length_append, List.length_cons, Nat.add_comm front.length]
  simp [Event.shift]

private theorem getLast?_eq (h : EndsInToken source front b more lead) : (events source).getLast? =
    some (.token front.length source.length (lead.token more.length (b :: more))) := by
  rw [h.events_eq, List.getLast?_concat]

private theorem drop_eq (h : EndsInToken source front b more lead) :
    source.drop front.length = b :: more := by
  rw [h.source_eq, List.drop_left]

theorem length_eq (h : EndsInToken source front b more lead) :
    source.length = front.length + (more.length + 1) := by
  rw [h.source_eq, List.length_append, List.length_cons]

/-- The bytes behind are scanned as a source of their own if the token does not take in the first of
them, and only then. -/
theorem events_append_iff (h : EndsInToken source front b more lead) (tail : List UInt8) :
    events (source ++ tail) = events source ++ (events tail).map (Event.shift source.length) ↔
      ∀ c, tail.head? = some c → ¬ lead.Accepts (more ++ [c]) := by
  rw [← Lead.reach_append_eq_length_iff h.accepts]
  constructor
  · -- If the events agree, the token stops where it did, so its lead reaches no further.
    intro heq
    obtain ⟨t, later, hlonger⟩ := h.exists_events_append tail
    rw [hlonger, h.events_eq, List.append_assoc] at heq
    obtain ⟨hfirst, _⟩ := List.cons.inj (List.append_cancel_left heq)
    obtain ⟨_, hstop, _⟩ := Event.token.inj hfirst
    have hlength := h.length_eq
    omega
  · intro hreach
    rw [h.events_append, events_lead_append h.lead_eq hreach, h.events_eq, List.map_cons,
      Event.map_shift_map_shift, h.length_eq, List.append_assoc, Event.shift, Nat.zero_add,
      Nat.add_comm front.length]
    rfl

end EndsInToken

theorem denotes_last {source : List UInt8} {start : Nat} {t : Token}
    (hlast : (events source).getLast? = some (.token start source.length t)) :
    Denotes (source.drop start) t := by
  rcases closed_or_endsInToken source with hclosed | ⟨front, b, more, lead, h⟩
  · exact absurd hlast (hclosed.last_ne start t)
  · rw [h.getLast?_eq] at hlast
    cases hlast
    rw [h.drop_eq]
    exact denotes_iff.mpr ⟨b, more, lead, rfl, h.lead_eq, h.accepts, rfl⟩

/-- What stands behind a source is scanned as a source of its own exactly if no token that reaches
the end of the source goes on there. -/
theorem events_append_iff (source tail : List UInt8) :
    events (source ++ tail) = events source ++ (events tail).map (Event.shift source.length) ↔
      ∀ start t, (events source).getLast? = some (.token start source.length t) →
        ∀ c, tail.head? = some c → ¬ IsLexeme (source.drop start ++ [c]) := by
  rcases closed_or_endsInToken source with hclosed | ⟨front, b, more, lead, h⟩
  · constructor
    · intro _ start t hlast
      exact absurd hlast (hclosed.last_ne start t)
    · intro _
      exact hclosed.events_append tail
  · have hlexeme : ∀ c,
        IsLexeme (source.drop front.length ++ [c]) ↔ lead.Accepts (more ++ [c]) := by
      intro c
      rw [h.drop_eq, List.cons_append, isLexeme_cons_iff_accepts h.lead_eq]
    rw [h.events_append_iff, h.getLast?_eq]
    constructor
    · intro hstops start t hlast c hc
      cases hlast
      rw [hlexeme]
      exact hstops c hc
    · intro hstops c hc
      rw [← hlexeme]
      exact hstops _ _ rfl c hc

end ByteLexer

import ByteLexer.Proofs.Run

/-!
# Events of a source

A call looks only at the bytes from its cursor on, so the events from there are those of the rest
as a source of its own, moved by the position. This gives the events of a source by its first byte,
and with them its tokens.
-/

namespace ByteLexer

/-- The second cursor stands on the same bytes as the first one, `n` bytes further on. -/
structure Cursor.Shifted (n : Nat) (c d : Cursor) : Prop where
  rest : d.rest = c.rest
  position : d.position = c.position + n

namespace Cursor.Shifted

variable {n : Nat} {c d : Cursor}

theorem advanceBy (h : Shifted n c d) (k : Nat) : Shifted n (c.advanceBy k) (d.advanceBy k) := by
  refine ⟨?_, ?_⟩
  · rw [rest_advanceBy, rest_advanceBy, h.rest]
  · rw [position_advanceBy, position_advanceBy, h.position]
    omega

private theorem blanks (h : Shifted n c d) : d.blanks = c.blanks := by
  rw [Cursor.blanks, Cursor.blanks, h.rest]

private theorem unread (h : Shifted n c d) : d.unread = c.unread := by
  rw [Cursor.unread, Cursor.unread, h.rest]

theorem skipBlanks (h : Shifted n c d) : Shifted n c.skipBlanks d.skipBlanks := by
  have hlength : (d.rest.takeWhile isBlank).length = (c.rest.takeWhile isBlank).length := by
    rw [h.rest]
  rw [Cursor.skipBlanks, Cursor.skipBlanks, hlength]
  exact h.advanceBy _

end Cursor.Shifted

theorem Cursor.shifted_ofBytes (c : Cursor) : Cursor.Shifted c.position (.ofBytes c.rest) c :=
  ⟨rfl, (Nat.zero_add _).symm⟩

theorem Event.map_shift_map_shift (m n : Nat) (found : List Event) :
    (found.map (shift m)).map (shift n) = found.map (shift (m + n)) := by
  rw [List.map_map]
  exact List.map_congr_left fun e _ => e.shift_shift m n

theorem Event.map_shift_zero (found : List Event) : found.map (shift 0) = found := by
  have hzero : shift 0 = id := by
    funext e
    cases e <;> rfl
  rw [hzero, List.map_id]

namespace Scanner

theorem nextToken_shifted {n : Nat} {s s' : Scanner} (h : Cursor.Shifted n s.cursor s'.cursor) :
    s'.nextToken.1 = s.nextToken.1 ∧
      Cursor.Shifted n s.nextToken.2.cursor s'.nextToken.2.cursor := by
  cases hunread : s.cursor.unread with
  | nil =>
    rw [nextToken_of_ended hunread, nextToken_of_ended (h.unread.trans hunread), h.blanks]
    exact ⟨rfl, h.advanceBy _⟩
  | cons b after =>
    have hunread' : s'.cursor.unread = b :: after := h.unread.trans hunread
    cases hlead : Lead.ofByte? b with
    | none =>
      rw [nextToken_of_skipped hunread hlead, nextToken_of_skipped hunread' hlead, h.blanks]
      exact ⟨rfl, h.advanceBy _⟩
    | some lead =>
      rw [nextToken_of_lead hunread hlead, nextToken_of_lead hunread' hlead, h.blanks]
      exact ⟨rfl, h.advanceBy _⟩

private theorem event?_shifted {n : Nat} {s s' : Scanner}
    (h : Cursor.Shifted n s.cursor s'.cursor) :
    s'.step.1.event? = s.step.1.event?.map (Event.shift n) := by
  obtain ⟨htoken, hafter⟩ := nextToken_shifted h
  have hhere := h.skipBlanks
  have hcurrent : s'.cursor.skipBlanks.current = s.cursor.skipBlanks.current :=
    congrArg List.head? hhere.rest
  simp only [Step.event?, step, Step.here, report, htoken, hafter.position, hhere.position,
    hcurrent]
  cases s.nextToken.1 with
  | some t => rfl
  | none => cases s.cursor.skipBlanks.current <;> rfl

private theorem filterMap_event?_shifted {n : Nat} {s s' : Scanner}
    (h : Cursor.Shifted n s.cursor s'.cursor) :
    s'.run.1.filterMap Step.event? = (s.run.1.filterMap Step.event?).map (Event.shift n) := by
  by_cases hrest : s.cursor.rest = []
  · rw [run_of_rest_eq_nil hrest, run_of_rest_eq_nil (h.rest.trans hrest)]
    rfl
  · have hmore : s'.step.2.run.1.filterMap Step.event? =
        (s.step.2.run.1.filterMap Step.event?).map (Event.shift n) :=
      filterMap_event?_shifted (nextToken_shifted h).2
    rw [run_of_rest_ne_nil hrest, run_of_rest_ne_nil (by rwa [h.rest]), List.filterMap_cons,
      List.filterMap_cons, event?_shifted h, hmore]
    cases s.step.1.event? <;> rfl
termination_by s.cursor.rest.length
decreasing_by exact length_step_lt hrest

/-- The events from a cursor on are those of the rest, moved by the position. -/
theorem filterMap_event?_run (s : Scanner) :
    s.run.1.filterMap Step.event? = (events s.cursor.rest).map (Event.shift s.cursor.position) :=
  filterMap_event?_shifted (s := ofBytes s.cursor.rest) s.cursor.shifted_ofBytes

end Scanner

theorem drop_add_length_append (front rest : List UInt8) (n : Nat) :
    (front ++ rest).drop (n + front.length) = rest.drop n := by
  rw [Nat.add_comm, List.drop_length_add_append]

theorem take_add_length_append (front rest : List UInt8) (n : Nat) :
    (front ++ rest).take (n + front.length) = front ++ rest.take n := by
  rw [Nat.add_comm, List.take_length_add_append]

@[simp] theorem events_nil : events [] = [] := by
  rw [events, Scanner.run_of_rest_eq_nil rfl]
  rfl

private theorem events_of_ne_nil {source : List UInt8} (h : source ≠ []) :
    events source = (Scanner.ofBytes source).step.1.event?.toList ++
      (events (Scanner.ofBytes source).step.2.cursor.rest).map
        (Event.shift (Scanner.ofBytes source).step.2.cursor.position) := by
  have hrest : (Scanner.ofBytes source).cursor.rest ≠ [] := h
  rw [events, Scanner.run_of_rest_ne_nil hrest, List.filterMap_cons, Scanner.filterMap_event?_run]
  cases (Scanner.ofBytes source).step.1.event? <;> rfl

private theorem events_of_blanks {source : List UInt8} (h : source.dropWhile isBlank = []) :
    events source = [] := by
  by_cases hsource : source = []
  · rw [hsource, events_nil]
  · have hcall := Scanner.nextToken_of_ended (s := .ofBytes source) h
    have hevent : (Scanner.ofBytes source).step.1.event? = none := by
      have hcurrent : (Scanner.ofBytes source).step.1.here.current = none :=
        (congrArg List.head? (Cursor.rest_skipBlanks (.ofBytes source))).trans
          (congrArg List.head? h)
      rw [Scanner.Step.event?, hcurrent, Scanner.step, hcall]
      rfl
    have hrest : (Scanner.ofBytes source).step.2.cursor.rest = [] :=
      Scanner.rest_nextToken_of_ended (s := .ofBytes source) h
    rw [events_of_ne_nil hsource, hevent, hrest, events_nil]
    rfl

private theorem ne_nil_of_dropWhile {source after : List UInt8} {b : UInt8}
    (h : source.dropWhile isBlank = b :: after) : source ≠ [] := by
  intro hnil
  rw [hnil] at h
  cases h

private theorem events_of_lead {source after : List UInt8} {b : UInt8} {lead : Lead}
    (h : source.dropWhile isBlank = b :: after) (hlead : Lead.ofByte? b = some lead) :
    let start := (source.takeWhile isBlank).length
    let stop := start + (lead.reach after + 1)
    events source =
      .token start stop (lead.token (lead.reach after) (b :: after.take (lead.reach after))) ::
        (events (after.drop (lead.reach after))).map (Event.shift stop) := by
  intro start stop
  have hsource : source ≠ [] := ne_nil_of_dropWhile h
  have hcall := Scanner.nextToken_of_lead (s := .ofBytes source) h hlead
  have hevent : (Scanner.ofBytes source).step.1.event? = some (.token start stop
      (lead.token (lead.reach after) (b :: after.take (lead.reach after)))) := by
    rw [Scanner.Step.event?, Scanner.step, hcall]
    simp only [Option.some.injEq, Event.token.injEq, and_true]
    exact ⟨Nat.zero_add _, Nat.zero_add _⟩
  have hrest : (Scanner.ofBytes source).step.2.cursor.rest = after.drop (lead.reach after) :=
    Scanner.rest_nextToken_of_lead (s := .ofBytes source) h hlead
  have hposition : (Scanner.ofBytes source).step.2.cursor.position = stop := by
    rw [Scanner.step, hcall]
    exact Nat.zero_add _
  rw [events_of_ne_nil hsource, hevent, hrest, hposition]
  rfl

private theorem events_of_skipped {source after : List UInt8} {b : UInt8}
    (h : source.dropWhile isBlank = b :: after) (hlead : Lead.ofByte? b = none) :
    let start := (source.takeWhile isBlank).length
    events source = .skipped start b :: (events after).map (Event.shift (start + 1)) := by
  intro start
  have hsource : source ≠ [] := ne_nil_of_dropWhile h
  have hcall := Scanner.nextToken_of_skipped (s := .ofBytes source) h hlead
  have hevent : (Scanner.ofBytes source).step.1.event? = some (.skipped start b) := by
    have hcurrent : (Scanner.ofBytes source).step.1.here.current = some b :=
      (congrArg List.head? (Cursor.rest_skipBlanks (.ofBytes source))).trans
        (congrArg List.head? h)
    have htoken : (Scanner.ofBytes source).step.1.token = none := congrArg Prod.fst hcall
    rw [Scanner.Step.event?, hcurrent, htoken]
    simp only [Option.map_some, Option.some.injEq, Event.skipped.injEq, and_true]
    exact Nat.zero_add _
  have hrest : (Scanner.ofBytes source).step.2.cursor.rest = after :=
    Scanner.rest_nextToken_of_skipped (s := .ofBytes source) h hlead
  have hposition : (Scanner.ofBytes source).step.2.cursor.position = start + 1 := by
    rw [Scanner.step, hcall]
    exact Nat.zero_add _
  rw [events_of_ne_nil hsource, hevent, hrest, hposition]
  rfl

theorem events_blank_cons {b : UInt8} (h : isBlank b = true) (after : List UInt8) :
    events (b :: after) = (events after).map (Event.shift 1) := by
  have htake : (b :: after).takeWhile isBlank = b :: after.takeWhile isBlank :=
    List.takeWhile_cons_of_pos h
  have hdrop : (b :: after).dropWhile isBlank = after.dropWhile isBlank :=
    List.dropWhile_cons_of_pos h
  cases hunread : after.dropWhile isBlank with
  | nil =>
    rw [events_of_blanks hunread, events_of_blanks (hdrop.trans hunread)]
    rfl
  | cons c more =>
    cases hlead : Lead.ofByte? c with
    | none =>
      rw [events_of_skipped hunread hlead, events_of_skipped (hdrop.trans hunread) hlead, htake,
        List.map_cons, Event.map_shift_map_shift]
      rfl
    | some lead =>
      rw [events_of_lead hunread hlead, events_of_lead (hdrop.trans hunread) hlead, htake,
        List.map_cons, Event.map_shift_map_shift, List.length_cons, Nat.add_right_comm]
      rfl

theorem events_lead_cons {b : UInt8} {lead : Lead} (hlead : Lead.ofByte? b = some lead)
    (after : List UInt8) : events (b :: after) =
      .token 0 (lead.reach after + 1)
          (lead.token (lead.reach after) (b :: after.take (lead.reach after))) ::
        (events (after.drop (lead.reach after))).map (Event.shift (lead.reach after + 1)) := by
  have hblank : ¬ isBlank b = true := by
    intro h
    rw [Lead.ofByte?_of_isBlank h] at hlead
    cases hlead
  have hunread : (b :: after).dropWhile isBlank = b :: after := List.dropWhile_cons_of_neg hblank
  rw [events_of_lead hunread hlead, List.takeWhile_cons_of_neg hblank, List.length_nil,
    Nat.zero_add]

theorem events_skipped_cons {b : UInt8} (hlead : Lead.ofByte? b = none)
    (hblank : isBlank b = false) (after : List UInt8) :
    events (b :: after) = .skipped 0 b :: (events after).map (Event.shift 1) := by
  have hnot : ¬ isBlank b = true := by simp [hblank]
  have hunread : (b :: after).dropWhile isBlank = b :: after := List.dropWhile_cons_of_neg hnot
  rw [events_of_skipped hunread hlead, List.takeWhile_cons_of_neg hnot, List.length_nil]

theorem events_blanks_append {blanks : List UInt8} (h : ∀ b ∈ blanks, isBlank b = true)
    (rest : List UInt8) :
    events (blanks ++ rest) = (events rest).map (Event.shift blanks.length) := by
  induction blanks with
  | nil => rw [List.nil_append, List.length_nil, Event.map_shift_zero]
  | cons b blanks ih =>
    obtain ⟨hb, hblanks⟩ := List.forall_mem_cons.mp h
    rw [List.cons_append, events_blank_cons hb, ih hblanks, Event.map_shift_map_shift,
      List.length_cons]

/-- A source is empty, or begins with a blank, with a token, or with a byte that begins none. -/
theorem source_induction {P : List UInt8 → Prop} (nil : P [])
    (blank : ∀ b after, isBlank b = true → P after → P (b :: after))
    (skipped : ∀ b after, Lead.ofByte? b = none → isBlank b = false → P after → P (b :: after))
    (token : ∀ b after lead, Lead.ofByte? b = some lead → P (after.drop (lead.reach after)) →
      P (b :: after)) (source : List UInt8) : P source := by
  match source with
  | [] => exact nil
  | b :: after =>
    cases hlead : Lead.ofByte? b with
    | some lead =>
      exact token b after lead hlead
        (source_induction nil blank skipped token (after.drop (lead.reach after)))
    | none =>
      cases hblank : isBlank b with
      | true => exact blank b after hblank (source_induction nil blank skipped token after)
      | false => exact skipped b after hlead hblank (source_induction nil blank skipped token after)
termination_by source.length
decreasing_by all_goals simp only [List.length_cons, List.length_drop]; omega

def Event.leadingTokens : List Event → List Token
  | .token _ _ t :: more => t :: leadingTokens more
  | _ => []

/-- All tokens of a source, also those behind bytes that begin none. -/
def allTokens (source : List UInt8) : List Token :=
  (Scanner.ofBytes source).run.1.filterMap Scanner.Step.token

@[simp] theorem Event.leadingTokens_map_shift (n : Nat) (found : List Event) :
    leadingTokens (found.map (shift n)) = leadingTokens found := by
  induction found with
  | nil => rfl
  | cons e found ih =>
    cases e with
    | token start stop t => exact congrArg (t :: ·) ih
    | skipped offset byte => rfl

@[simp] theorem Event.filterMap_token?_map_shift (n : Nat) (found : List Event) :
    (found.map (shift n)).filterMap token? = found.filterMap token? := by
  rw [List.filterMap_map]
  exact congrArg (List.filterMap · found) (funext fun e => e.token?_shift n)

namespace Scanner

theorem tokens_of_none {s : Scanner} (h : s.nextToken.1 = none) :
    s.tokens = ([], s.nextToken.2) := by
  rw [tokens]
  split
  · rename_i s' hcall
    rw [hcall]
  · rename_i t s' hcall
    rw [hcall] at h
    cases h

theorem tokens_of_some {s : Scanner} {t : Token} (h : s.nextToken.1 = some t) :
    s.tokens = (t :: s.nextToken.2.tokens.1, s.nextToken.2.tokens.2) := by
  rw [tokens]
  split
  · rename_i s' hcall
    rw [hcall] at h
    cases h
  · rename_i u s' hcall
    rw [hcall] at h
    cases h
    rw [hcall]

private theorem event?_of_some {s : Scanner} {t : Token} (h : s.nextToken.1 = some t) :
    ∃ start stop, s.step.1.event? = some (.token start stop t) := by
  have htoken : s.step.1.token = some t := h
  rw [Step.event?, htoken]
  exact ⟨_, _, rfl⟩

theorem tokens_eq_leadingTokens {n : Nat} {s s' : Scanner}
    (h : Cursor.Shifted n s.cursor s'.cursor) :
    s'.tokens.1 = Event.leadingTokens (s.run.1.filterMap Step.event?) := by
  have hsame := (nextToken_shifted h).1
  by_cases hrest : s.cursor.rest = []
  · rw [run_of_rest_eq_nil hrest]
    rw [tokens_of_none (hsame.trans (nextToken_of_rest_eq_nil hrest))]
    rfl
  · rw [run_of_rest_ne_nil hrest, List.filterMap_cons]
    cases htoken : s.nextToken.1 with
    | some t =>
      have hmore : s'.nextToken.2.tokens.1 =
          Event.leadingTokens (s.step.2.run.1.filterMap Step.event?) :=
        tokens_eq_leadingTokens (nextToken_shifted h).2
      obtain ⟨start, stop, hevent⟩ := event?_of_some htoken
      rw [tokens_of_some (hsame.trans htoken), hmore, hevent]
      rfl
    | none =>
      have hevent : s.step.1.event? =
          s.step.1.here.current.map (.skipped s.step.1.here.position) := by
        have hnone : s.step.1.token = none := htoken
        rw [Step.event?, hnone]
      rw [tokens_of_none (hsame.trans htoken), hevent]
      cases hcurrent : s.step.1.here.current with
      | some b => rfl
      | none =>
        have hunread : s.cursor.unread = [] :=
          s.cursor.rest_skipBlanks.symm.trans (List.head?_eq_none_iff.mp hcurrent)
        have hend : s.step.2.cursor.rest = [] := rest_nextToken_of_ended hunread
        rw [run_of_rest_eq_nil hend]
        rfl
termination_by s.cursor.rest.length
decreasing_by exact length_step_lt hrest

end Scanner

theorem tokensOf_eq_leadingTokens (source : List UInt8) :
    tokensOf source = Event.leadingTokens (events source) :=
  Scanner.tokens_eq_leadingTokens (n := 0) ⟨rfl, rfl⟩

theorem allTokens_eq_filterMap (source : List UInt8) :
    allTokens source = (events source).filterMap Event.token? := by
  have hevent : ∀ step : Scanner.Step, step.token = step.event?.bind Event.token? := by
    intro step
    rw [Scanner.Step.event?]
    cases step.token with
    | some t => rfl
    | none => cases step.here.current <;> rfl
  rw [allTokens, events, List.filterMap_filterMap]
  exact congrArg (List.filterMap · _) (funext hevent)

@[simp] theorem tokensOf_nil : tokensOf [] = [] := by
  rw [tokensOf_eq_leadingTokens, events_nil]
  rfl

theorem tokensOf_lead_cons {b : UInt8} {lead : Lead} (hlead : Lead.ofByte? b = some lead)
    (after : List UInt8) : tokensOf (b :: after) =
      lead.token (lead.reach after) (b :: after.take (lead.reach after)) ::
        tokensOf (after.drop (lead.reach after)) := by
  rw [tokensOf_eq_leadingTokens, tokensOf_eq_leadingTokens, events_lead_cons hlead,
    Event.leadingTokens, Event.leadingTokens_map_shift]

end ByteLexer

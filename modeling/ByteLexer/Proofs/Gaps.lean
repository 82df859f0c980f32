import ByteLexer.Proofs.Ending

/-!
# Gaps between sources

Two sources with blanks between them are scanned each on its own, unless the first one ends in a
comment and the gap does not begin with the end of its line. So a source may be scanned line by
line, and one gap is as good as another.
-/

namespace ByteLexer

def EndsInComment (source : List UInt8) : Prop :=
  ∃ start t, (events source).getLast? = some (.token start source.length t) ∧ t.kind = .comment

/-- Blanks that end whatever the source ends in. -/
structure GapBehind (source gap : List UInt8) : Prop where
  ne_nil : gap ≠ []
  blank : ∀ b ∈ gap, isBlank b = true
  ends : gap.head? = some newline ∨ ¬ EndsInComment source

/-- The events of lines below one another, the first of them at `offset`. -/
def lineEvents (offset : Nat) : List (List UInt8) → List Event
  | [] => []
  | line :: lines =>
    (events line).map (Event.shift offset) ++ lineEvents (offset + line.length + 1) lines

private theorem not_isLexeme_snoc_iff {source gap : List UInt8} (hne : gap ≠ [])
    (hgap : ∀ b ∈ gap, isBlank b = true) (rest : List UInt8) :
    (∀ start t, (events source).getLast? = some (.token start source.length t) →
      ∀ c, (gap ++ rest).head? = some c → ¬ IsLexeme (source.drop start ++ [c])) ↔
    (gap.head? = some newline ∨ ¬ EndsInComment source) := by
  obtain ⟨b, blanks, rfl⟩ := List.exists_cons_of_ne_nil hne
  have hb : isBlank b = true := hgap b (by simp)
  constructor
  · intro hstops
    by_contra hnot
    obtain ⟨hnewline, hcomment⟩ := not_or.mp hnot
    obtain ⟨start, t, hlast, hkind⟩ := not_not.mp hcomment
    apply hstops start t hlast b rfl
    rw [(denotes_last hlast).isLexeme_snoc_of_comment hkind]
    intro heq
    exact hnewline (by rw [heq]; rfl)
  · intro hends start t hlast c hc
    cases hc
    by_cases hkind : t.kind = .comment
    · rw [(denotes_last hlast).isLexeme_snoc_of_comment hkind]
      rcases hends with hnewline | hcomment
      · exact not_not.mpr (Option.some.inj hnewline)
      · exact absurd ⟨start, t, hlast, hkind⟩ hcomment
    · exact (denotes_last hlast).not_isLexeme_snoc_blank hkind hb

private theorem events_append_blanks_iff {gap : List UInt8} (hne : gap ≠ [])
    (hgap : ∀ b ∈ gap, isBlank b = true) (source rest : List UInt8) :
    events (source ++ gap ++ rest) =
        events source ++ (events rest).map (Event.shift (source.length + gap.length)) ↔
      gap.head? = some newline ∨ ¬ EndsInComment source := by
  rw [← not_isLexeme_snoc_iff hne hgap rest, ← events_append_iff, events_blanks_append hgap,
    Event.map_shift_map_shift, List.append_assoc, Nat.add_comm gap.length]

private theorem events_append_gapBehind {source gap : List UInt8} (h : GapBehind source gap)
    (rest : List UInt8) : events (source ++ gap ++ rest) =
      events source ++ (events rest).map (Event.shift (source.length + gap.length)) :=
  (events_append_blanks_iff h.ne_nil h.blank source rest).mpr h.ends

theorem map_found_map_shift (n : Nat) (found : List Event) :
    (found.map (Event.shift n)).map Event.found = found.map Event.found := by
  rw [List.map_map]
  exact List.map_congr_left fun e _ => e.found_shift n

private theorem gapBehind_newline (source : List UInt8) : GapBehind source [newline] :=
  ⟨by simp, by simp [isBlank, newline], Or.inl rfl⟩

private theorem lineEvents_map_shift (n offset : Nat) (lines : List (List UInt8)) :
    (lineEvents offset lines).map (Event.shift n) = lineEvents (offset + n) lines := by
  induction lines generalizing offset with
  | nil => rfl
  | cons line lines ih =>
    rw [lineEvents, List.map_append, Event.map_shift_map_shift, ih, lineEvents,
      show offset + line.length + 1 + n = offset + n + line.length + 1 by omega]

theorem events_intercalate (lines : List (List UInt8)) :
    events ([newline].intercalate lines) = lineEvents 0 lines := by
  induction lines with
  | nil => exact events_nil
  | cons line lines ih =>
    rw [lineEvents, Event.map_shift_zero, Nat.zero_add]
    cases lines with
    | nil => simp [lineEvents]
    | cons next lines =>
      -- A newline ends even a comment, so the line needs no condition.
      rw [List.intercalate_cons_cons, events_append_gapBehind (gapBehind_newline line), ih,
        lineEvents_map_shift, Nat.zero_add]
      rfl

/-- Two sources with blanks between them have the events of both, unless the first one ends in a
comment that the blanks do not end. Which blanks they are does not matter for what is found, and a
source has the events of its lines. -/
theorem events_append_gap :
    (∀ source gap rest : List UInt8, gap ≠ [] → (∀ b ∈ gap, isBlank b = true) →
      (events (source ++ gap ++ rest) =
          events source ++ (events rest).map (Event.shift (source.length + gap.length)) ↔
        gap.head? = some newline ∨ ¬ EndsInComment source)) ∧
    (∀ source gap other rest : List UInt8, GapBehind source gap → GapBehind source other →
      (events (source ++ gap ++ rest)).map Event.found =
        (events (source ++ other ++ rest)).map Event.found) ∧
    ∀ source : List UInt8, events source = lineEvents 0 (source.splitOn newline) := by
  refine ⟨?_, ?_, ?_⟩
  · intro source gap rest hne hgap
    exact events_append_blanks_iff hne hgap source rest
  · intro source gap other rest hgap hother
    rw [events_append_gapBehind hgap, events_append_gapBehind hother, List.map_append,
      List.map_append, map_found_map_shift, map_found_map_shift]
  · intro source
    rw [← events_intercalate, List.intercalate_splitOn]

/-- A number that ends in its dot is not continued behind a blank, whichever blank it is. -/
theorem events_append_gap_number :
    let source : List UInt8 := [0x35, 0x2E]
    let found := [Event.token 0 2 (.payload .numLiteral "5."),
      .token 3 4 (.payload .numLiteral "5")]
    GapBehind source [0x20] ∧ GapBehind source [newline] ∧
      events (source ++ [0x20] ++ [0x35]) = found ∧
      (events (source ++ [0x20] ++ [0x35])).map Event.found =
        (events (source ++ [newline] ++ [0x35])).map Event.found := by
  intro source found
  have hsource : events source = [.token 0 2 (.payload .numLiteral "5.")] := by decide +kernel
  have hrest : events [0x35] = [.token 0 1 (.payload .numLiteral "5")] := by decide +kernel
  have hnumber : ¬ EndsInComment source := by
    intro hcomment
    obtain ⟨start, t, hlast, hkind⟩ := hcomment
    rw [hsource] at hlast
    cases hlast
    cases hkind
  have hblank : GapBehind source [0x20] := ⟨by simp, by simp [isBlank], Or.inr hnumber⟩
  refine ⟨hblank, gapBehind_newline source, ?_, ?_⟩
  · rw [(events_append_gap.1 source [0x20] [0x35] hblank.ne_nil hblank.blank).mpr hblank.ends,
      hsource, hrest]
    rfl
  · exact events_append_gap.2.1 source [0x20] [newline] [0x35] hblank (gapBehind_newline source)

end ByteLexer

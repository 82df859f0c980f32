import ByteLexer.Proofs.Run

/-!
# A run partitions its source

The chunks that the calls of a run consume are the source, cut into pieces that are not empty. Each
is a run of blanks with the span of a token, with a byte that begins no lexeme, or, in the last
call, with nothing.
-/

namespace ByteLexer.Scanner

namespace Step

def GivesSpan (step : Step) : Prop :=
  ∃ t, step.token = some t ∧ step.span ≠ [] ∧ t.lexeme = Utf8.decode step.span ∧
    (t.kind ≠ .comment → Utf8.encode t.lexeme = step.span) ∧ step.notices = []

/-- The step skipped one byte that begins no lexeme, and left a notice of it. -/
def SkipsByte (step : Step) : Prop :=
  ∃ b, step.token = none ∧ step.span = [b] ∧ isBlank b = false ∧
    (∀ more, ¬ IsLexeme (b :: more)) ∧
    step.notices = [.skipped b.toNat step.here.position]

def FindsNothing (step : Step) : Prop :=
  step.token = none ∧ step.span = [] ∧ step.notices = []

theorem Finds.cases {step : Step} (h : step.Finds) :
    step.GivesSpan ∨ step.SkipsByte ∨ step.FindsNothing := by
  cases h with
  | token t htoken hdenotes hnotices =>
    exact Or.inl ⟨t, htoken, hdenotes.ne_nil, hdenotes.lexeme_eq,
      hdenotes.encode_lexeme, hnotices⟩
  | skipped b htoken hspan hlead hblank hnotices =>
    refine Or.inr (Or.inl ⟨b, htoken, hspan, hblank, ?_, hnotices⟩)
    intro more
    exact not_isLexeme_of_ofByte?_eq_none hlead List.prefix_rfl
  | ended htoken hspan hnotices => exact Or.inr (Or.inr ⟨htoken, hspan, hnotices⟩)

end Step

/-- A scanner that has read the chunks of the steps behind it and nothing else. -/
structure Consumed (source : List UInt8) (done : List Step) (s : Scanner) : Prop where
  source_eq : s.cursor.source = source
  journal : s.journal = []
  chunks : (done.map Step.chunk).flatten ++ s.cursor.rest = source

theorem consumed_ofBytes (source : List UInt8) : Consumed source [] (ofBytes source) :=
  ⟨rfl, rfl, rfl⟩

theorem Consumed.step {source : List UInt8} {done : List Step} {s : Scanner}
    (h : Consumed source done s) : Consumed source (done ++ [s.step.1]) s.step.2 := by
  refine ⟨s.reads_nextToken.source_eq.trans h.source_eq, rfl, ?_⟩
  rw [List.map_append, List.flatten_append, List.append_assoc]
  calc (done.map Step.chunk).flatten ++ (s.step.1.chunk ++ [] ++ s.step.2.cursor.rest)
      = (done.map Step.chunk).flatten ++ s.cursor.rest := by
        rw [List.append_nil, ← rest_eq_chunk_append]
    _ = source := h.chunks

theorem Consumed.position {source : List UInt8} {done : List Step} {s : Scanner}
    (h : Consumed source done s) (hrest : s.cursor.rest ≠ []) :
    s.cursor.position = (done.map Step.chunk).flatten.length := by
  have hdrop : s.cursor.rest.length = source.length - s.cursor.position := by
    rw [s.cursor.rest_eq, h.source_eq, List.length_drop]
  have hlength : (done.map Step.chunk).flatten.length + s.cursor.rest.length = source.length := by
    rw [← List.length_append, h.chunks]
  have hpos := List.length_pos_iff.mpr hrest
  omega

theorem flatten_chunks_run (source : List UInt8) :
    ((ofBytes source).run.1.map Step.chunk).flatten = source := by
  obtain ⟨hend, hrest⟩ := run_end (fun _ _ _ h => Consumed.step h) (consumed_ofBytes source)
  have hchunks := hend.chunks
  rwa [hrest, List.append_nil, List.nil_append] at hchunks

/-- Every step of a run is made where its scanner has read the steps before it. -/
theorem exists_consumed_of_mem_run {source : List UInt8} {step : Step}
    (h : step ∈ (ofBytes source).run.1) :
    ∃ done s, Consumed source done s ∧ s.cursor.rest ≠ [] ∧ step = s.step.1 := by
  obtain ⟨earlier, later, hsplit⟩ := List.append_of_mem h
  obtain ⟨s, hs, hrest, hstep, _⟩ :=
    run_split (fun _ _ _ h => Consumed.step h) (consumed_ofBytes source) hsplit
  exact ⟨_, s, hs, hrest, hstep⟩

/-- The chunks of a run are its source in order, and none is empty. Each is blanks and then the span
of a token, a byte that begins no lexeme, or, in the last call only, nothing. -/
theorem run_partition (source : List UInt8) :
    ((ofBytes source).run.1.map Step.chunk).flatten = source ∧
    (ofBytes source).run.2.cursor.current = none ∧
    ∀ (earlier : List Step) (step : Step) (later : List Step),
      (ofBytes source).run.1 = earlier ++ step :: later →
      step.before.source = source ∧ step.after.source = source ∧
      step.before.position = (earlier.map Step.chunk).flatten.length ∧
      step.before.current ≠ none ∧ step.chunk ≠ [] ∧
      step.chunk = step.gap ++ step.span ∧ (∀ b ∈ step.gap, isBlank b = true) ∧
      (step.GivesSpan ∨ step.SkipsByte ∨ step.FindsNothing ∧ later = []) := by
  have hkeeps : ∀ done s, s.cursor.rest ≠ [] → Consumed source done s →
      Consumed source (done ++ [s.step.1]) s.step.2 := fun _ _ _ h => h.step
  refine ⟨?_, ?_, ?_⟩
  · obtain ⟨hend, hrest⟩ := run_end hkeeps (consumed_ofBytes source)
    have hchunks := hend.chunks
    rwa [hrest, List.append_nil, List.nil_append] at hchunks
  · obtain ⟨_, hrest⟩ := run_end hkeeps (consumed_ofBytes source)
    rw [Cursor.current, hrest]
    rfl
  · intro earlier step later hsplit
    obtain ⟨s, hs, hrest, rfl, rfl⟩ := run_split hkeeps (consumed_ofBytes source) hsplit
    have hchunk := s.chunk_step
    have hgap := s.gap_step
    refine ⟨hs.source_eq, hs.step.source_eq, hs.position hrest, ?_, ?_, hchunk, ?_, ?_⟩
    · intro hcurrent
      exact hrest (List.head?_eq_none_iff.mp hcurrent)
    · -- Each step shortens the rest.
      intro hnil
      have hless := length_step_lt hrest
      rw [rest_eq_chunk_append s, hnil] at hless
      exact Nat.lt_irrefl _ hless
    · intro b hb
      rw [hgap] at hb
      exact Cursor.isBlank_of_mem_blanks hb
    · rcases (finds_step hs.journal).cases with hgives | hskips | hnothing
      · exact Or.inl hgives
      · exact Or.inr (Or.inl hskips)
      · have hlast := rest_step_of_span_eq_nil hnothing.2.1
        exact Or.inr (Or.inr ⟨hnothing, congrArg Prod.fst (run_of_rest_eq_nil hlast)⟩)

/-- Behind a comment with an ill-formed byte the second step passes the end of the line and skips a
byte. -/
theorem run_partition_skip :
    let s := ofBytes [0x20, 0x3F, 0xFF, 0x0A, 0x24, 0x3D]
    let second := s.step.2.step.1
    s.run.1 = [s.step.1] ++ second :: s.step.2.step.2.run.1 ∧
      second.before.position = s.step.1.chunk.length ∧ s.step.1.chunk.length = 3 ∧
      second.chunk = second.gap ++ second.span ∧ second.chunk = [0x0A, 0x24] ∧
      second.SkipsByte := by
  intro s second
  have hsplit : s.run.1 = [s.step.1] ++ second :: s.step.2.step.2.run.1 := by
    rw [run_of_rest_ne_nil (s := s) (by decide),
      run_of_rest_ne_nil (s := s.step.2) (by decide)]
    rfl
  obtain ⟨_, _, hbefore, _, _, hchunk, _, hfinds⟩ :=
    (run_partition [0x20, 0x3F, 0xFF, 0x0A, 0x24, 0x3D]).2.2 _ second _ hsplit
  have hposition : second.before.position = s.step.1.chunk.length := by
    rw [hbefore, List.map_singleton, List.flatten_singleton]
  refine ⟨hsplit, hposition, by decide, hchunk, by decide, ?_⟩
  rcases hfinds with ⟨t, htoken, _⟩ | hskips | ⟨⟨_, hspan, _⟩, _⟩
  · cases (by decide : second.token = none).symm.trans htoken
  · exact hskips
  · exact absurd hspan (by decide)

end ByteLexer.Scanner

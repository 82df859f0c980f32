import ByteLexer.Proofs.LongestMatch
import ByteLexer.Scan.Event

/-!
# Runs over a whole source

A step consumes the bytes between its two cursors: blanks, then the span of what it found. What
every step keeps holds at each step of a run and at its end.
-/

namespace ByteLexer

/-- The bytes of the source from one cursor up to another one. -/
def Cursor.upTo (c d : Cursor) : List UInt8 :=
  (c.source.drop c.position).take (d.position - c.position)

private theorem Cursor.upTo_advanceBy (c : Cursor) (n : Nat) :
    c.upTo (c.advanceBy n) = c.rest.take n := by
  rw [upTo, position_advanceBy, Nat.add_sub_cancel_left, ← rest_eq]

namespace Scanner

namespace Step

def chunk (step : Step) : List UInt8 := step.before.upTo step.after

def gap (step : Step) : List UInt8 := step.before.upTo step.here

def span (step : Step) : List UInt8 := step.here.upTo step.after

end Step

theorem run_of_rest_eq_nil {s : Scanner} (h : s.cursor.rest = []) : s.run = ([], s) := by
  rw [run, dif_pos h]

theorem run_of_rest_ne_nil {s : Scanner} (h : s.cursor.rest ≠ []) :
    s.run = (s.step.1 :: s.step.2.run.1, s.step.2.run.2) := by
  rw [run, dif_neg h]

theorem length_step_lt {s : Scanner} (h : s.cursor.rest ≠ []) :
    s.step.2.cursor.rest.length < s.cursor.rest.length := length_nextToken_lt h

/-- What a step keeps holds at the end of a run. -/
theorem run_end {Inv : List Step → Scanner → Prop}
    (hstep : ∀ done s, s.cursor.rest ≠ [] → Inv done s → Inv (done ++ [s.step.1]) s.step.2)
    {done : List Step} {s : Scanner} (h : Inv done s) :
    Inv (done ++ s.run.1) s.run.2 ∧ s.run.2.cursor.rest = [] := by
  by_cases hrest : s.cursor.rest = []
  · rw [run_of_rest_eq_nil hrest, List.append_nil]
    exact ⟨h, hrest⟩
  · have hend := run_end hstep (hstep done s hrest h)
    rw [run_of_rest_ne_nil hrest]
    rwa [List.append_assoc, List.singleton_append] at hend
termination_by s.cursor.rest.length
decreasing_by exact length_step_lt hrest

theorem rest_run (s : Scanner) : s.run.2.cursor.rest = [] :=
  (@run_end (fun _ _ => True) (fun _ _ _ _ => trivial) [] s trivial).2

/-- What a step keeps holds where any step of a run begins. -/
theorem run_split {Inv : List Step → Scanner → Prop}
    (hstep : ∀ done s, s.cursor.rest ≠ [] → Inv done s → Inv (done ++ [s.step.1]) s.step.2)
    {done earlier later : List Step} {step : Step} {s : Scanner} (h : Inv done s)
    (hsplit : s.run.1 = earlier ++ step :: later) :
    ∃ s', Inv (done ++ earlier) s' ∧ s'.cursor.rest ≠ [] ∧ step = s'.step.1 ∧
      later = s'.step.2.run.1 := by
  induction earlier generalizing done s with
  | nil =>
    have hrest : s.cursor.rest ≠ [] := by
      intro hnil
      rw [run_of_rest_eq_nil hnil] at hsplit
      cases hsplit
    rw [run_of_rest_ne_nil hrest] at hsplit
    obtain ⟨hfirst, hmore⟩ := List.cons.inj hsplit
    exact ⟨s, by rwa [List.append_nil], hrest, hfirst.symm, hmore.symm⟩
  | cons first earlier ih =>
    have hrest : s.cursor.rest ≠ [] := by
      intro hnil
      rw [run_of_rest_eq_nil hnil] at hsplit
      cases hsplit
    rw [run_of_rest_ne_nil hrest] at hsplit
    obtain ⟨rfl, hmore⟩ := List.cons.inj hsplit
    obtain ⟨s', hinv, hrest', heq⟩ := ih (hstep done s hrest h) hmore
    exact ⟨s', by rwa [List.append_assoc, List.singleton_append] at hinv, hrest', heq⟩

private theorem step_bytes {s : Scanner} {n : Nat}
    (hafter : s.step.1.after = s.cursor.advanceBy (s.cursor.blanks.length + n)) :
    s.step.1.gap = s.cursor.blanks ∧ s.step.1.span = s.cursor.unread.take n ∧
      s.step.1.chunk = s.cursor.blanks ++ s.cursor.unread.take n ∧
      s.step.2.cursor.rest = s.cursor.unread.drop n := by
  have hrest : s.cursor.rest = s.cursor.blanks ++ s.cursor.unread :=
    s.cursor.blanks_append_unread.symm
  have hhere : s.step.1.here = s.cursor.advanceBy s.cursor.blanks.length := rfl
  refine ⟨?_, ?_, ?_, ?_⟩
  · have hgap : s.step.1.gap = s.cursor.upTo s.step.1.here := rfl
    rw [hgap, hhere, Cursor.upTo_advanceBy, hrest, List.take_left]
  · rw [Step.span, hafter, ← Cursor.advanceBy_advanceBy, hhere,
      Cursor.upTo_advanceBy, Cursor.rest_advanceBy, hrest, List.drop_left]
  · have hchunk : s.step.1.chunk = s.cursor.upTo s.step.1.after := rfl
    rw [hchunk, hafter, Cursor.upTo_advanceBy, hrest, List.take_length_add_append]
  · have hcursor : s.step.2.cursor = s.step.1.after := rfl
    rw [hcursor, hafter, Cursor.rest_advanceBy, hrest, List.drop_length_add_append]

private theorem step_advance (s : Scanner) : ∃ n, 0 < n ∧
    s.step.1.after = s.cursor.advanceBy (s.cursor.blanks.length + n) := by
  have hreads := s.reads_nextToken
  have hafter : s.step.1.after = s.nextToken.2.cursor := rfl
  rw [hafter]
  generalize s.nextToken.1 = found, s.nextToken.2 = after at hreads
  cases hreads with
  | token lexeme t _ hdenotes =>
    exact ⟨lexeme.length, List.length_pos_iff.mpr hdenotes.ne_nil, rfl⟩
  | skipped b more _ _ => exact ⟨1, Nat.one_pos, rfl⟩
  | ended _ => exact ⟨1, Nat.one_pos, rfl⟩

theorem gap_step (s : Scanner) : s.step.1.gap = s.cursor.blanks := by
  obtain ⟨n, _, hafter⟩ := s.step_advance
  exact (step_bytes hafter).1

theorem chunk_step (s : Scanner) : s.step.1.chunk = s.step.1.gap ++ s.step.1.span := by
  obtain ⟨n, _, hafter⟩ := s.step_advance
  obtain ⟨hgap, hspan, hchunk, _⟩ := step_bytes hafter
  rw [hgap, hspan, hchunk]

theorem rest_eq_chunk_append (s : Scanner) :
    s.cursor.rest = s.step.1.chunk ++ s.step.2.cursor.rest := by
  obtain ⟨n, _, hafter⟩ := s.step_advance
  obtain ⟨_, _, hchunk, hrest⟩ := step_bytes hafter
  rw [hchunk, hrest, List.append_assoc, List.take_append_drop, Cursor.blanks_append_unread]

theorem unread_eq_span_append (s : Scanner) :
    s.cursor.unread = s.step.1.span ++ s.step.2.cursor.rest := by
  obtain ⟨n, _, hafter⟩ := s.step_advance
  obtain ⟨_, hspan, _, hrest⟩ := step_bytes hafter
  rw [hspan, hrest, List.take_append_drop]

theorem unread_eq_drop (s : Scanner) :
    s.cursor.unread = s.cursor.source.drop s.step.1.here.position :=
  s.cursor.rest_skipBlanks.symm.trans s.cursor.skipBlanks.rest_eq

theorem source_eq_append_span (s : Scanner) :
    s.cursor.source =
      s.cursor.source.take s.step.1.here.position ++ (s.step.1.span ++ s.step.2.cursor.rest) := by
  rw [← unread_eq_span_append, unread_eq_drop, List.take_append_drop]

/-- The span of a token is the longest lexeme behind the blanks. -/
theorem span_of_token {s : Scanner} {t : Token} (h : s.step.1.token = some t) :
    LongestLexeme s.cursor.unread s.step.1.span ∧ Denotes s.step.1.span t ∧
      s.step.1.after.position = s.step.1.here.position + s.step.1.span.length := by
  have hreads := s.reads_nextToken
  rw [show s.nextToken.1 = some t from h] at hreads
  obtain ⟨lexeme, hlongest, hdenotes, hcall⟩ := hreads.of_some
  have hafter : s.step.1.after = s.cursor.advanceBy (s.cursor.blanks.length + lexeme.length) :=
    congrArg Scanner.cursor hcall
  obtain ⟨_, hspan, _, _⟩ := step_bytes hafter
  rw [← List.prefix_iff_eq_take.mp hlongest.2.1] at hspan
  rw [hspan]
  refine ⟨hlongest, hdenotes, ?_⟩
  rw [hafter, Cursor.position_advanceBy, ← Nat.add_assoc]
  rfl

theorem rest_step_of_span_eq_nil {s : Scanner} (hspan : s.step.1.span = []) :
    s.step.2.cursor.rest = [] := by
  obtain ⟨n, hpos, hafter⟩ := s.step_advance
  obtain ⟨_, htake, _, hrest⟩ := step_bytes hafter
  rw [hspan] at htake
  have hunread : s.cursor.unread = [] := by
    rcases List.take_eq_nil_iff.mp htake.symm with hzero | hnil
    · omega
    · exact hnil
  rw [hrest, hunread, List.drop_nil]

/-- What a step finds: a token that its span denotes, one byte that begins no lexeme, or nothing. -/
inductive Step.Finds (step : Step) : Prop where
  | token (t : Token) (htoken : step.token = some t) (hdenotes : Denotes step.span t)
      (hnotices : step.notices = [])
  | skipped (b : UInt8) (htoken : step.token = none) (hspan : step.span = [b])
      (hlead : Lead.ofByte? b = none) (hblank : isBlank b = false)
      (hnotices : step.notices = [.skipped b.toNat step.here.position])
  | ended (htoken : step.token = none) (hspan : step.span = []) (hnotices : step.notices = [])

theorem finds_step {s : Scanner} (hjournal : s.journal = []) : s.step.1.Finds := by
  have hreads := s.reads_nextToken
  have htoken : s.step.1.token = s.nextToken.1 := rfl
  have hnotices : s.step.1.notices = s.nextToken.2.journal.reverse := rfl
  have hafter : s.step.1.after = s.nextToken.2.cursor := rfl
  generalize s.nextToken.1 = found, s.nextToken.2 = after at *
  cases hreads with
  | token lexeme t hlongest hdenotes =>
    obtain ⟨_, hspan, _, _⟩ := step_bytes hafter
    rw [← List.prefix_iff_eq_take.mp hlongest.2.1] at hspan
    refine .token t htoken (hspan ▸ hdenotes) ?_
    rw [hnotices]
    exact congrArg List.reverse hjournal
  | skipped b more hunread hlead =>
    obtain ⟨_, hspan, _, _⟩ := step_bytes hafter
    rw [hunread] at hspan
    refine .skipped b htoken hspan hlead (Cursor.not_isBlank_of_unread hunread) ?_
    rw [hnotices]
    simp only [note, move, hjournal]
    rfl
  | ended hunread =>
    obtain ⟨_, hspan, _, _⟩ := step_bytes hafter
    rw [hunread] at hspan
    refine .ended htoken hspan ?_
    rw [hnotices]
    exact congrArg List.reverse hjournal

end Scanner
end ByteLexer

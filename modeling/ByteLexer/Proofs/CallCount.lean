import ByteLexer.Proofs.Comments
import ByteLexer.Proofs.Journal

/-!
# How many calls a source takes

Up to the end of a source there is one call for each token and one for each skipped byte. Blanks at
the end that are in no comment take one call more, which steps past the end. Every later call steps
on by one and finds nothing.
-/

namespace ByteLexer

def encloses (part : Nat × Nat) (place : Nat) : Bool := part.1 ≤ place && place < part.2

/-- The last byte of the source is a blank, and no comment encloses its place. -/
def endsInBlank (source : List UInt8) : Bool :=
  source.getLast?.any isBlank && !(comments source).any (encloses · (source.length - 1))

private theorem encloses_shiftPlace (n : Nat) (part : Nat × Nat) (place : Nat) :
    encloses (shiftPlace n part) (place + n) = encloses part place := by
  simp [encloses, shiftPlace]

@[simp] private theorem endsInBlank_nil : endsInBlank [] = false := rfl

private theorem endsInBlank_append (front : List UInt8) (early : List (Nat × Nat))
    {rest : List UInt8} (hrest : rest ≠ []) (hearly : ∀ part ∈ early, part.2 ≤ front.length)
    (hcomments : comments (front ++ rest) =
      early ++ (comments rest).map (shiftPlace front.length)) :
    endsInBlank (front ++ rest) = endsInBlank rest := by
  have hlast : (front ++ rest).length - 1 = rest.length - 1 + front.length := by
    have hpos := List.length_pos_iff.mpr hrest
    rw [List.length_append]
    omega
  have hbefore : early.any (encloses · (rest.length - 1 + front.length)) = false := by
    simp only [List.any_eq_false, encloses, Bool.and_eq_true, decide_eq_true_eq]
    intro part hpart
    have hstop := hearly part hpart
    omega
  have hshift : (encloses · (rest.length - 1 + front.length)) ∘ shiftPlace front.length =
      (encloses · (rest.length - 1)) := funext fun part => encloses_shiftPlace _ part _
  rw [endsInBlank, endsInBlank, List.getLast?_append_of_ne_nil _ hrest, hlast, hcomments,
    List.any_append, hbefore, Bool.false_or, List.any_map, hshift]

private theorem endsInBlank_blanks {blanks : List UInt8} (hne : blanks ≠ [])
    (h : ∀ b ∈ blanks, isBlank b = true) : endsInBlank blanks = true := by
  have hcomments : comments blanks = [] := by
    have hevents := events_blanks_append h []
    rw [List.append_nil, events_nil, List.map_nil] at hevents
    rw [comments, hevents, List.filterMap_nil]
  simp [endsInBlank, hcomments, List.getLast?_eq_some_getLast hne, h]

private theorem endsInBlank_blanks_append {blanks rest : List UInt8}
    (h : ∀ b ∈ blanks, isBlank b = true) (hrest : rest ≠ []) :
    endsInBlank (blanks ++ rest) = endsInBlank rest := by
  apply endsInBlank_append blanks [] hrest (by simp)
  rw [comments, events_blanks_append h, filterMap_comment?_map_shift, comments, List.nil_append]

private theorem endsInBlank_skipped_cons {b : UInt8} (hlead : Lead.ofByte? b = none)
    (hblank : isBlank b = false) (after : List UInt8) :
    endsInBlank (b :: after) = endsInBlank after := by
  cases after with
  | nil => simp [endsInBlank, hblank]
  | cons c after =>
    apply endsInBlank_append [b] [] (by simp) (by simp)
    rw [List.nil_append]
    exact comments_skipped_cons hlead hblank (c :: after)

private theorem not_isBlank_getLast {b c : UInt8} {lead : Lead} (hlead : Lead.ofByte? b = some lead)
    (hcomment : lead ≠ .comment) {more : List UInt8} (haccepts : lead.Accepts more)
    (hlast : (b :: more).getLast? = some c) : isBlank c = false := by
  by_contra hblank
  rw [Bool.not_eq_false] at hblank
  rcases List.eq_nil_or_concat more with rfl | ⟨front, d, rfl⟩
  · cases hlast
    cases hlead.symm.trans (Lead.ofByte?_of_isBlank hblank)
  · rw [List.concat_eq_append] at *
    rw [← List.cons_append, List.getLast?_concat, Option.some.injEq] at hlast
    have hfront : lead.Accepts front := haccepts.of_isPrefix (List.prefix_append _ _)
    have hdenotes : Denotes (b :: front) (lead.token front.length (b :: front)) :=
      denotes_iff.mpr ⟨b, front, lead, rfl, hlead, hfront, rfl⟩
    apply hdenotes.not_isLexeme_snoc_blank ?_ (hlast ▸ hblank)
    · rw [List.cons_append]
      exact (isLexeme_cons_iff_accepts hlead).mpr haccepts
    · have hkind := Lead.kind_token_eq_comment_iff hlead front
      rw [Lead.accepts_iff_reach.mp hfront, List.take_length] at hkind
      exact mt hkind.mp hcomment

private theorem endsInBlank_lead_cons {b : UInt8} {lead : Lead} (hlead : Lead.ofByte? b = some lead)
    (after : List UInt8) :
    endsInBlank (b :: after) = endsInBlank (after.drop (lead.reach after)) := by
  have hcomments := comments_lead_cons hlead after
  have hsplit := List.take_append_drop (lead.reach after) after
  by_cases hrest : after.drop (lead.reach after) = []
  · -- The token is all of the source: a comment encloses its last byte, no other ends in a blank.
    rw [hrest, List.append_nil] at hsplit
    have haccepts : lead.Accepts after := hsplit ▸ lead.accepts_take_reach after
    rw [hrest, endsInBlank_nil]
    by_cases hcomment : lead = .comment
    · rw [hrest, Lead.accepts_iff_reach.mp haccepts, if_pos hcomment] at hcomments
      simp [endsInBlank, hcomments, encloses]
    · have hlast := List.getLast?_eq_some_getLast (List.cons_ne_nil b after)
      simp [endsInBlank, hlast, not_isBlank_getLast hlead hcomment haccepts hlast]
  · have hfront : b :: after =
        (b :: after.take (lead.reach after)) ++ after.drop (lead.reach after) := by
      rw [List.cons_append, hsplit]
    rw [hfront] at hcomments
    rw [hfront]
    apply endsInBlank_append _ _ hrest ?_ (by rwa [List.length_cons, lead.length_take_reach])
    intro part hpart
    rw [List.length_cons, lead.length_take_reach]
    split at hpart
    · rw [List.mem_singleton.mp hpart]
    · cases hpart

private theorem length_events (source : List UInt8) :
    (events source).length = (allTokens source).length + (skips source).length := by
  rw [allTokens_eq_filterMap, skips]
  induction events source with
  | nil => rfl
  | cons e found ih =>
    cases e with
    | token start stop t =>
      simp only [List.filterMap_cons, Event.token?, Event.skip?, List.length_cons, ih]
      omega
    | skipped offset byte =>
      simp only [List.filterMap_cons, Event.token?, Event.skip?, List.length_cons, ih]
      omega

namespace Scanner

theorem run_eq_stepAt (s : Scanner) :
    s.run.1 = (List.range s.run.1.length).map s.stepAt ∧
      s.run.2 = s.afterSteps s.run.1.length := by
  by_cases hrest : s.cursor.rest = []
  · rw [run_of_rest_eq_nil hrest]
    exact ⟨rfl, rfl⟩
  · obtain ⟨hcalls, hend⟩ := run_eq_stepAt s.step.2
    rw [run_of_rest_ne_nil hrest]
    refine ⟨?_, hend⟩
    rw [List.length_cons, List.range_succ_eq_map, List.map_cons, List.map_map]
    exact congrArg (s.step.1 :: ·) hcalls
termination_by s.cursor.rest.length
decreasing_by exact length_step_lt hrest

private theorem step_of_rest_eq_nil {s : Scanner} (h : s.cursor.rest = []) :
    s.step.1.token = none ∧ s.step.1.notices = s.journal.reverse ∧
      s.step.2.cursor = s.cursor.advance := by
  have hblanks : s.cursor.blanks = [] := by rw [Cursor.blanks, h, List.takeWhile_nil]
  have hunread : s.cursor.unread = [] := by rw [Cursor.unread, h, List.dropWhile_nil]
  have hcall := nextToken_of_ended hunread
  rw [hblanks] at hcall
  exact ⟨congrArg Prod.fst hcall, congrArg (·.2.journal.reverse) hcall,
    congrArg (·.2.cursor) hcall⟩

private theorem cursor_afterSteps_of_rest_eq_nil {s : Scanner} (h : s.cursor.rest = []) (k : Nat) :
    (s.afterSteps k).cursor = s.cursor.advanceBy k := by
  induction k generalizing s with
  | zero => rfl
  | succ k ih =>
    obtain ⟨_, _, hstep⟩ := step_of_rest_eq_nil h
    have hend : s.step.2.cursor.rest = [] := by
      rw [hstep, Cursor.advance, Cursor.rest_advanceBy, h, List.drop_nil]
    rw [afterSteps, ih hend, hstep, Cursor.advance, Cursor.advanceBy_advanceBy, Nat.add_comm]

/-- The end of the source is reached by the calls of a run, and not before the last of them. -/
theorem rest_afterSteps_eq_nil_iff (s : Scanner) (k : Nat) :
    (s.afterSteps k).cursor.rest = [] ↔ s.run.1.length ≤ k := by
  induction k generalizing s with
  | zero =>
    by_cases hrest : s.cursor.rest = []
    · simp [afterSteps, hrest, run_of_rest_eq_nil hrest]
    · simp [afterSteps, hrest, run_of_rest_ne_nil hrest]
  | succ k ih =>
    by_cases hrest : s.cursor.rest = []
    · rw [cursor_afterSteps_of_rest_eq_nil hrest, run_of_rest_eq_nil hrest]
      simp [hrest]
    · rw [afterSteps, ih, run_of_rest_ne_nil hrest, List.length_cons, Nat.add_le_add_iff_right]

private theorem length_run_le (s : Scanner) : s.run.1.length ≤ s.cursor.rest.length := by
  by_cases hrest : s.cursor.rest = []
  · simp [run_of_rest_eq_nil hrest]
  · have hmore := length_run_le s.step.2
    have hless := length_step_lt hrest
    rw [run_of_rest_ne_nil hrest, List.length_cons]
    omega
termination_by s.cursor.rest.length
decreasing_by exact length_step_lt hrest

private theorem exists_passed {s : Scanner} (hunread : s.cursor.unread ≠ []) :
    ∃ n ≤ s.cursor.unread.length,
      s.step.2.cursor = s.cursor.advanceBy (s.cursor.blanks.length + n) ∧
      (events s.cursor.unread).length = (events (s.cursor.unread.drop n)).length + 1 ∧
      endsInBlank s.cursor.unread = endsInBlank (s.cursor.unread.drop n) := by
  obtain ⟨b, after, hcons⟩ := List.exists_cons_of_ne_nil hunread
  cases hlead : Lead.ofByte? b with
  | none =>
    have hblank := Cursor.not_isBlank_of_unread hcons
    have hcall := nextToken_of_skipped hcons hlead
    refine ⟨1, List.length_pos_iff.mpr hunread, congrArg (·.2.cursor) hcall, ?_, ?_⟩
    · simp [hcons, events_skipped_cons hlead hblank]
    · rw [hcons]
      exact endsInBlank_skipped_cons hlead hblank after
  | some lead =>
    have hcall := nextToken_of_lead hcons hlead
    refine ⟨lead.reach after + 1, ?_, congrArg (·.2.cursor) hcall, ?_, ?_⟩
    · rw [hcons, List.length_cons]
      exact Nat.succ_le_succ (lead.reach_le_length after)
    · simp [hcons, events_lead_cons hlead]
    · rw [hcons, List.drop_succ_cons]
      exact endsInBlank_lead_cons hlead after

/-- A run makes a call for each event, and one more past blanks at the end; only that one leaves the
source. -/
theorem run_account (s : Scanner) :
    s.run.1.length = (events s.cursor.rest).length + (endsInBlank s.cursor.rest).toNat ∧
      s.run.2.cursor.position =
        s.cursor.position + s.cursor.rest.length + (endsInBlank s.cursor.rest).toNat := by
  by_cases hrest : s.cursor.rest = []
  · simp [run_of_rest_eq_nil hrest, hrest]
  · have hblanks : ∀ b ∈ s.cursor.blanks, isBlank b = true :=
      fun b hb => Cursor.isBlank_of_mem_blanks hb
    have hsplit := s.cursor.blanks_append_unread
    have hlength := congrArg List.length hsplit
    have hevents := congrArg List.length (events_blanks_append hblanks s.cursor.unread)
    rw [List.length_append] at hlength
    rw [hsplit, List.length_map] at hevents
    rw [run_of_rest_ne_nil hrest, List.length_cons, hevents]
    by_cases hunread : s.cursor.unread = []
    · -- Only blanks are left, so this is the last call.
      have hlast : endsInBlank s.cursor.rest = true := by
        rw [hunread, List.append_nil] at hsplit
        exact endsInBlank_blanks hrest (hsplit ▸ hblanks)
      have hcursor : s.step.2.cursor = s.cursor.advanceBy (s.cursor.blanks.length + 1) :=
        congrArg (·.2.cursor) (nextToken_of_ended hunread)
      have hend : s.step.2.cursor.rest = [] := rest_nextToken_of_ended hunread
      rw [hunread, List.length_nil] at hlength
      rw [run_of_rest_eq_nil hend, hlast, hunread, events_nil, hcursor, Cursor.position_advanceBy,
        ← hlength]
      exact ⟨rfl, rfl⟩
    · obtain ⟨n, hn, hcursor, hfound, hlast⟩ := exists_passed hunread
      obtain ⟨hcalls, hposition⟩ := run_account s.step.2
      have hwhole := endsInBlank_blanks_append hblanks hunread
      rw [hsplit] at hwhole
      rw [hcursor, Cursor.rest_advanceBy_blanks, ← hlast] at hcalls hposition
      rw [Cursor.position_advanceBy, List.length_drop] at hposition
      rw [hwhole, hcalls, hposition, hfound]
      constructor <;> omega
termination_by s.cursor.rest.length
decreasing_by exact length_step_lt hrest

/-- Reading a source to its end takes one call for each token, one for each byte that begins none,
and one more if it ends in a blank outside comments; never more calls than it has bytes. The calls
end right behind the source, or one place further on if there was that last call. All later calls
find nothing, leave no notice and step on by one. -/
theorem calls_until_end (source : List UInt8) :
    let s : Scanner := ofBytes source
    let late := (endsInBlank source).toNat
    let calls := (allTokens source).length + (skips source).length + late
    s.run.1 = (List.range calls).map s.stepAt ∧
    (∀ k, (s.afterSteps k).cursor.current = none ↔ calls ≤ k) ∧
    calls ≤ source.length ∧
    ∀ k, (s.afterSteps (calls + k)).cursor.position = source.length + late + k ∧
      (s.stepAt (calls + k)).token = none ∧ (s.stepAt (calls + k)).notices = [] := by
  intro s late calls
  obtain ⟨hlength, hposition⟩ := s.run_account
  obtain ⟨hcalls, hend⟩ := s.run_eq_stepAt
  have hcount : s.run.1.length = calls := by
    rw [hlength]
    exact congrArg (· + late) (length_events source)
  rw [hcount] at hcalls hend
  have hafter : ∀ k, (s.afterSteps (calls + k)).cursor = s.run.2.cursor.advanceBy k := by
    intro k
    rw [afterSteps_add, ← hend]
    exact cursor_afterSteps_of_rest_eq_nil s.rest_run k
  refine ⟨hcalls, ?_, hcount ▸ s.length_run_le, ?_⟩
  · intro k
    rw [← hcount, ← rest_afterSteps_eq_nil_iff]
    exact List.head?_eq_none_iff
  · intro k
    have hrest : (s.afterSteps (calls + k)).cursor.rest = [] := by
      rw [hafter, Cursor.rest_advanceBy, s.rest_run, List.drop_nil]
    obtain ⟨hnone, hnotices, _⟩ := step_of_rest_eq_nil hrest
    obtain ⟨done, hdone⟩ := exists_consumed_afterSteps source (calls + k)
    refine ⟨?_, hnone, ?_⟩
    · have hstart : s.cursor.position + s.cursor.rest.length = source.length := Nat.zero_add _
      rw [hafter, Cursor.position_advanceBy, hposition, hstart]
      rfl
    · exact hnotices.trans (congrArg List.reverse hdone.journal)

example : ((ofBytes [0x61, 0x20]).run.1.length, (ofBytes [0x3F, 0x20]).run.1.length) = (2, 1) := by
  decide +kernel

end Scanner
end ByteLexer

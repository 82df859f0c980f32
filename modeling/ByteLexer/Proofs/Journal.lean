import Mathlib.Order.Monotone.Basic
import ByteLexer.Proofs.Partition
import ByteLexer.Proofs.Segments

/-!
# What the calls leave in the journal

Calls pass the source from place to place, each from where the one before it stopped. So every byte
is passed by one call, and the bytes that are named in notices are those that no token and no run of
blanks accounts for.
-/

namespace ByteLexer

private theorem Notice.message_skipped (b : UInt8) (offset : Nat) :
    (Notice.skipped b.toNat offset).message =
      "skipping byte 0x" ++ Hex.digits 2 b.toNat ++ " at offset " ++ toString offset := by
  have hmessage : (Notice.skipped b.toNat offset).message =
      "skipping byte " ++ Hex.signed 4 b.toNat ++ " at offset " ++ toString offset := rfl
  have hnonneg : ¬ (b.toNat : Int) < 0 := by omega
  rw [hmessage, Hex.signed, if_neg hnonneg, Int.natAbs_natCast, ← String.append_assoc]
  rfl

namespace Scanner

/-- What a call does with the source once it passed blanks, by places. -/
inductive Step.Passes (source : List UInt8) (step : Step) : Prop where
  | token (t : Token) (htoken : step.token = some t) (hnotices : step.notices = [])
      (hafter : step.here.position < step.after.position)
  | skipped (b : UInt8) (htoken : step.token = none)
      (hbyte : source[step.here.position]? = some b) (hblank : isBlank b = false)
      (hnotices : step.notices = [.skipped b.toNat step.here.position])
      (hafter : step.after.position = step.here.position + 1)
  | ended (htoken : step.token = none) (hend : source.length ≤ step.here.position)
      (hnotices : step.notices = []) (hafter : step.after.position = step.here.position + 1)

theorem passes_step {s : Scanner} (hjournal : s.journal = []) :
    s.step.1.Passes s.cursor.source := by
  have hdrop := s.unread_eq_drop
  have hreads := s.reads_nextToken
  have htoken : s.step.1.token = s.nextToken.1 := rfl
  have hnotices : s.step.1.notices = s.nextToken.2.journal.reverse := rfl
  have hafter : s.step.1.after = s.nextToken.2.cursor := rfl
  have hhere : s.step.1.here.position = s.cursor.position + s.cursor.blanks.length := rfl
  generalize s.nextToken.1 = found, s.nextToken.2 = after at *
  cases hreads with
  | token lexeme t hlongest hdenotes =>
    have hpos := List.length_pos_iff.mpr hdenotes.ne_nil
    refine .token t htoken (hnotices.trans (congrArg List.reverse hjournal)) ?_
    rw [hafter, hhere, move, Cursor.position_advanceBy]
    omega
  | skipped b more hunread hlead =>
    have hbyte : s.cursor.source[s.step.1.here.position]? = some b := by
      rw [← List.head?_drop, ← hdrop, hunread, List.head?_cons]
    refine .skipped b htoken hbyte (Cursor.not_isBlank_of_unread hunread) ?_ ?_
    · rw [hnotices, move, note, hjournal]
      rfl
    · rw [hafter, hhere, move, Cursor.position_advanceBy]
      rfl
  | ended hunread =>
    refine .ended htoken ?_ (hnotices.trans (congrArg List.reverse hjournal)) ?_
    · rwa [hunread, eq_comm, List.drop_eq_nil_iff] at hdrop
    · rw [hafter, hhere, move, Cursor.position_advanceBy]
      rfl

private theorem Step.before_le_here (step : Step) : step.before.position ≤ step.here.position :=
  Nat.le_add_right _ _

namespace Step.Passes

variable {source : List UInt8} {step : Step}

private theorem here_lt_after (h : step.Passes source) :
    step.here.position < step.after.position := by
  cases h <;> omega

private theorem of_mem_notices (h : step.Passes source) {n : Notice} (hn : n ∈ step.notices) :
    ∃ b, step.token = none ∧ source[step.here.position]? = some b ∧ isBlank b = false ∧
      n = .skipped b.toNat step.here.position := by
  cases h with
  | token t htoken hnotices hafter => cases hnotices ▸ hn
  | skipped b htoken hbyte hblank hnotices hafter =>
    exact ⟨b, htoken, hbyte, hblank, List.mem_singleton.mp (hnotices ▸ hn)⟩
  | ended htoken hend hnotices hafter => cases hnotices ▸ hn

private theorem of_none (h : step.Passes source) (hnone : step.token = none) :
    step.after.position = step.here.position + 1 ∧
      (step.notices = [] ↔ source.length ≤ step.here.position) := by
  cases h with
  | token t htoken hnotices hafter => cases hnone.symm.trans htoken
  | skipped b htoken hbyte hblank hnotices hafter =>
    have hlt := (List.getElem?_eq_some_iff.mp hbyte).1
    refine ⟨hafter, fun hnil => ?_, fun hle => absurd hlt (Nat.not_lt.mpr hle)⟩
    cases hnotices.symm.trans hnil
  | ended htoken hend hnotices hafter => exact ⟨hafter, fun _ => hend, fun _ => hnotices⟩

private theorem length_notices (h : step.Passes source) :
    step.notices.length ≤ 1 ∧
      (step.notices.length = 1 ↔ step.token = none ∧ step.here.position < source.length) := by
  cases h with
  | token t htoken hnotices hafter => simp [htoken, hnotices]
  | skipped b htoken hbyte hblank hnotices hafter =>
    have hlt := (List.getElem?_eq_some_iff.mp hbyte).1
    simp [htoken, hnotices, hlt]
  | ended htoken hend hnotices hafter => simp [htoken, hnotices, hend]

end Step.Passes

private theorem not_isBlank_of_here {s : Scanner} {b : UInt8}
    (h : s.cursor.source[s.step.1.here.position]? = some b) : isBlank b = false := by
  rw [← List.head?_drop, ← unread_eq_drop] at h
  obtain ⟨after, hunread⟩ := List.head?_eq_some_iff.mp h
  exact Cursor.not_isBlank_of_unread hunread

private theorem isBlank_of_lt_here {s : Scanner} {i : Nat}
    (hbefore : s.cursor.position ≤ i) (hhere : i < s.step.1.here.position) :
    ∃ b, s.cursor.source[i]? = some b ∧ isBlank b = true := by
  obtain ⟨j, rfl⟩ := Nat.exists_eq_add_of_le hbefore
  have hj : j < s.cursor.blanks.length := Nat.lt_of_add_lt_add_left hhere
  refine ⟨s.cursor.blanks[j], ?_, Cursor.isBlank_of_mem_blanks (List.getElem_mem hj)⟩
  rw [← List.getElem?_drop, ← Cursor.rest_eq, ← s.cursor.blanks_append_unread,
    List.getElem?_append_left hj, List.getElem?_eq_getElem hj]

theorem afterSteps_add (s : Scanner) (j k : Nat) :
    s.afterSteps (j + k) = (s.afterSteps j).afterSteps k := by
  induction j generalizing s with
  | zero => rw [Nat.zero_add, afterSteps]
  | succ j ih => rw [Nat.add_right_comm, afterSteps, ih, afterSteps]

private theorem stepAt_add (s : Scanner) (j k : Nat) :
    s.stepAt (j + k) = (s.afterSteps j).stepAt k := by
  rw [stepAt, afterSteps_add, stepAt]

theorem exists_consumed_afterSteps (source : List UInt8) (k : Nat) :
    ∃ done, Consumed source done ((ofBytes source).afterSteps k) := by
  induction k with
  | zero => exact ⟨[], consumed_ofBytes source⟩
  | succ k ih =>
    obtain ⟨done, hdone⟩ := ih
    rw [afterSteps_add]
    exact ⟨_, hdone.step⟩

private theorem passes_stepAt (source : List UInt8) (k : Nat) :
    ((ofBytes source).stepAt k).Passes source := by
  obtain ⟨done, hdone⟩ := exists_consumed_afterSteps source k
  have hpasses := passes_step hdone.journal
  rwa [hdone.source_eq] at hpasses

private theorem isBlank_of_stepAt (source : List UInt8) (k : Nat) {i : Nat}
    (hbefore : ((ofBytes source).stepAt k).before.position ≤ i)
    (hhere : i < ((ofBytes source).stepAt k).here.position) :
    ∃ b, source[i]? = some b ∧ isBlank b = true := by
  obtain ⟨done, hdone⟩ := exists_consumed_afterSteps source k
  have hblank := isBlank_of_lt_here hbefore hhere
  rwa [hdone.source_eq] at hblank

private theorem before_stepAt_succ (s : Scanner) (k : Nat) :
    (s.stepAt (k + 1)).before = (s.stepAt k).after := by
  rw [stepAt, afterSteps_add]
  rfl

private theorem strictMono_before (source : List UInt8) :
    StrictMono fun k => ((ofBytes source).stepAt k).before.position := by
  refine strictMono_nat_of_lt_succ fun k => ?_
  rw [before_stepAt_succ]
  exact Nat.lt_of_le_of_lt (Step.before_le_here _) (passes_stepAt source k).here_lt_after

/-- A place belongs to a call that begins at it or before and ends behind it. -/
def Step.Holds (step : Step) (place : Nat) : Prop :=
  step.before.position ≤ place ∧ place < step.after.position

theorem exists_holds (source : List UInt8) (place : Nat) :
    ∃ k, ((ofBytes source).stepAt k).Holds place := by
  induction place with
  | zero =>
    exact ⟨0, Nat.zero_le _, Nat.zero_lt_of_lt (passes_stepAt source 0).here_lt_after⟩
  | succ place ih =>
    obtain ⟨k, hbefore, hafter⟩ := ih
    by_cases hsame : place + 1 < ((ofBytes source).stepAt k).after.position
    · exact ⟨k, Nat.le_succ_of_le hbefore, hsame⟩
    · have hlt := strictMono_before source (Nat.lt_succ_self (k + 1))
      simp only [before_stepAt_succ] at hlt
      refine ⟨k + 1, ?_, ?_⟩
      · rw [before_stepAt_succ]
        omega
      · omega

private theorem after_le_before (source : List UInt8) {j k : Nat} (h : j < k) :
    ((ofBytes source).stepAt j).after.position ≤ ((ofBytes source).stepAt k).before.position := by
  rw [← before_stepAt_succ]
  exact (strictMono_before source).monotone (Nat.succ_le_of_lt h)

theorem Step.Holds.unique {source : List UInt8} {place j k : Nat}
    (hj : ((ofBytes source).stepAt j).Holds place) (hk : ((ofBytes source).stepAt k).Holds place) :
    j = k := by
  have hbefore : ∀ {j k : Nat}, ((ofBytes source).stepAt j).Holds place →
      ((ofBytes source).stepAt k).Holds place → ¬ j < k := by
    intro j k hj hk hlt
    exact Nat.lt_irrefl place (hj.2.trans_le ((after_le_before source hlt).trans hk.1))
  exact Nat.le_antisymm (Nat.le_of_not_lt (hbefore hk hj)) (Nat.le_of_not_lt (hbefore hj hk))

private theorem step_of_token {s : Scanner} {t : Token} (hjournal : s.journal = [])
    (hfound : s.nextToken.1 = some t) : s.step.2 = s.nextToken.2 := by
  cases finds_step hjournal with
  | token u htoken hdenotes hnotices =>
    have hnil : s.nextToken.2.journal = [] := List.reverse_eq_nil_iff.mp hnotices
    rw [step, report, ← hnil]
  | skipped b htoken hspan hlead hblank hnotices => cases hfound.symm.trans htoken
  | ended htoken hspan hnotices => cases hfound.symm.trans htoken

/-- Reading up to a call without a token makes calls one by one and leaves the notices of the last
one. -/
theorem tokens_eq_stepAt {s : Scanner} (hjournal : s.journal = []) :
    (∀ i ≤ s.tokens.1.length, (s.stepAt i).token = s.tokens.1[i]?) ∧
    s.tokens.2.cursor = (s.stepAt s.tokens.1.length).after ∧
    s.tokens.2.report.1 = (s.stepAt s.tokens.1.length).notices := by
  cases hfound : s.nextToken.1 with
  | none =>
    rw [tokens_of_none hfound]
    refine ⟨?_, rfl, rfl⟩
    intro i hi
    obtain rfl : i = 0 := Nat.le_zero.mp hi
    exact hfound
  | some t =>
    obtain ⟨htokens, hcursor, hreport⟩ := tokens_eq_stepAt (s := s.step.2) rfl
    rw [tokens_of_some hfound, ← step_of_token hjournal hfound]
    refine ⟨?_, hcursor, hreport⟩
    intro i hi
    cases i with
    | zero => exact hfound
    | succ i => exact htokens i (Nat.le_of_succ_le_succ hi)
termination_by s.cursor.rest.length
decreasing_by
  have hlt : s.nextToken.2.cursor.rest.length < s.cursor.rest.length :=
    length_lt_of_nextToken (Prod.ext hfound rfl)
  exact hlt

private theorem tokens_afterSteps (source : List UInt8) (k : Nat) :
    let call (k : Nat) : Step := (ofBytes source).stepAt k
    let iterated : List Token × Scanner := ((ofBytes source).afterSteps k).tokens
    (∀ i ≤ iterated.1.length, (call (k + i)).token = iterated.1[i]?) ∧
    iterated.2.cursor = (call (k + iterated.1.length)).after ∧
    iterated.2.report.1 = (call (k + iterated.1.length)).notices := by
  intro call iterated
  obtain ⟨done, hdone⟩ := exists_consumed_afterSteps source k
  obtain ⟨htokens, hcursor, hreport⟩ := tokens_eq_stepAt hdone.journal
  rw [← stepAt_add] at hcursor hreport
  refine ⟨fun i hi => ?_, hcursor, hreport⟩
  exact (congrArg Step.token (stepAt_add _ k i)).trans (htokens i hi)

end Scanner

namespace Network

variable {σ α : Type} [Supply σ α] {n : Network σ α} {i : Nat} {supply : σ}

private theorem next_of_draw {a : α} (h : n.streams[i]? = some ⟨[], .supply false⟩)
    (hdraw : Supply.draw n.supply = (some a, supply)) : n.next i = (some a, { n with supply }) := by
  rw [next, h]
  simp only [hdraw]

private theorem next_of_draw_none (h : n.streams[i]? = some ⟨[], .supply false⟩)
    (hdraw : (Supply.draw n.supply : Option α × σ) = (none, supply)) :
    n.next i = (none, { n with supply }.set i ⟨[], .supply true⟩) := by
  rw [next, h]
  simp only [hdraw]

end Network

private theorem Session.supply_takeAll_tokenize (s : Scanner) :
    (Network.takeAll (tokenize s) 0).2.supply = s.tokens.2 := by
  cases hfound : s.nextToken.1 with
  | none =>
    have hnext := Network.next_of_draw_none (n := tokenize s) (i := 0) rfl (Prod.ext hfound rfl)
    rw [Network.takeAll, Network.takeThrough_of_none (congrArg Prod.fst hnext), hnext,
      Scanner.tokens_of_none hfound]
    rfl
  | some t =>
    have hnext := Network.next_of_draw (n := tokenize s) (i := 0) rfl (Prod.ext hfound rfl)
    rw [Network.takeAll, Network.takeThrough_of_some (congrArg Prod.fst hnext), hnext,
      Scanner.tokens_of_some hfound]
    exact supply_takeAll_tokenize s.nextToken.2
termination_by s.cursor.rest.length
decreasing_by exact Scanner.length_lt_of_nextToken (Prod.ext hfound rfl)

namespace Scanner

private theorem isBlank_left_iff (source : List UInt8) (k : Nat) :
    (∀ b ∈ source.drop ((ofBytes source).stepAt k).before.position, isBlank b = true) ↔
      source.length ≤ ((ofBytes source).stepAt k).here.position := by
  constructor
  · intro hleft
    by_contra hlt
    obtain ⟨done, hdone⟩ := exists_consumed_afterSteps source k
    obtain ⟨b, hb⟩ : ∃ b, source[((ofBytes source).stepAt k).here.position]? = some b :=
      ⟨_, List.getElem?_eq_getElem (Nat.lt_of_not_le hlt)⟩
    have hmem : b ∈ source.drop ((ofBytes source).stepAt k).before.position := by
      obtain ⟨n, hn⟩ := Nat.exists_eq_add_of_le ((ofBytes source).stepAt k).before_le_here
      rw [hn, ← List.getElem?_drop] at hb
      exact List.mem_of_getElem? hb
    have hnot := not_isBlank_of_here (by rwa [hdone.source_eq])
    cases hnot.symm.trans (hleft b hmem)
  · intro hle b hb
    obtain ⟨n, hn⟩ := List.mem_iff_getElem?.mp hb
    rw [List.getElem?_drop] at hn
    have hlt := (List.getElem?_eq_some_iff.mp hn).1
    obtain ⟨c, hc, hblank⟩ :=
      isBlank_of_stepAt source k (Nat.le_add_right _ n) (Nat.lt_of_lt_of_le hlt hle)
    cases hn.symm.trans hc
    exact hblank

private theorem skipped_place_lt (source : List UInt8) {j k : Nat} (h : j < k) {a b : Int}
    {o p : Nat} (hj : .skipped a o ∈ ((ofBytes source).stepAt j).notices)
    (hk : .skipped b p ∈ ((ofBytes source).stepAt k).notices) : o < p := by
  obtain ⟨_, _, _, _, hnotice⟩ := (passes_stepAt source j).of_mem_notices hj
  obtain ⟨_, _, _, _, hnotice'⟩ := (passes_stepAt source k).of_mem_notices hk
  obtain ⟨_, rfl⟩ := Notice.skipped.inj hnotice
  obtain ⟨_, rfl⟩ := Notice.skipped.inj hnotice'
  calc ((ofBytes source).stepAt j).here.position
      < ((ofBytes source).stepAt j).after.position := (passes_stepAt source j).here_lt_after
    _ ≤ ((ofBytes source).stepAt k).before.position := after_le_before source h
    _ ≤ ((ofBytes source).stepAt k).here.position := Step.before_le_here _

/-- A place is named exactly if its byte is neither a blank nor within the span of a token. -/
theorem skipped_mem_notices_iff (source : List UInt8) {o : Nat} (ho : o < source.length) :
    (∃ k b, .skipped b o ∈ ((ofBytes source).stepAt k).notices) ↔
      (¬ ∃ k t, ((ofBytes source).stepAt k).token = some t ∧
        ((ofBytes source).stepAt k).here.position ≤ o ∧
        o < ((ofBytes source).stepAt k).after.position) ∧
      ∃ b, source[o]? = some b ∧ isBlank b = false := by
  constructor
  · rintro ⟨k, a, hnotice⟩
    obtain ⟨b, hnone, hbyte, hblank, heq⟩ := (passes_stepAt source k).of_mem_notices hnotice
    obtain ⟨_, rfl⟩ := Notice.skipped.inj heq
    refine ⟨?_, b, hbyte, hblank⟩
    rintro ⟨j, t, htoken, hhere, hafter⟩
    have hk : ((ofBytes source).stepAt k).Holds ((ofBytes source).stepAt k).here.position :=
      ⟨Step.before_le_here _, (passes_stepAt source k).here_lt_after⟩
    have hj : ((ofBytes source).stepAt j).Holds ((ofBytes source).stepAt k).here.position :=
      ⟨(Step.before_le_here _).trans hhere, hafter⟩
    rw [hj.unique hk] at htoken
    cases hnone.symm.trans htoken
  · rintro ⟨hspans, b, hbyte, hblank⟩
    obtain ⟨k, hbefore, hafter⟩ := exists_holds source o
    have hhere : ((ofBytes source).stepAt k).here.position ≤ o := by
      by_contra hlt
      obtain ⟨c, hc, hgap⟩ := isBlank_of_stepAt source k hbefore (Nat.lt_of_not_le hlt)
      cases hbyte.symm.trans hc
      cases hblank.symm.trans hgap
    -- The call that holds the place did not take it into a token, so it skipped the byte there.
    cases passes_stepAt source k with
    | token t htoken hnotices hstop => exact absurd ⟨k, t, htoken, hhere, hafter⟩ hspans
    | skipped c htoken hc hblank' hnotices hstop =>
      obtain rfl : o = ((ofBytes source).stepAt k).here.position := by omega
      exact ⟨k, c.toNat, hnotices ▸ List.mem_singleton_self _⟩
    | ended htoken hend hnotices hstop => omega

/-- Each call leaves one notice if it gives no token though some byte is left that is no blank, and
none otherwise. The notice names the first such byte and its place. From call to call the places
named increase, and over all calls they are those of the bytes that are neither blanks nor within
the span of a token. So an iteration, be it of the scanner or of a stream of its tokens, names at
most one byte, and none exactly if it ended at the end of the source. -/
theorem stepAt_notices (source : List UInt8) :
    let call (k : Nat) : Step := (ofBytes source).stepAt k
    let left (k : Nat) : List UInt8 := source.drop (call k).before.position
    (∀ k, (call k).notices.length ≤ 1 ∧
      ((call k).notices.length = 1 ↔ (call k).token = none ∧ ∃ b ∈ left k, isBlank b = false) ∧
      ∀ n ∈ (call k).notices, ∃ o b, (call k).before.position ≤ o ∧ source[o]? = some b ∧
        isBlank b = false ∧
        (∀ i, (call k).before.position ≤ i → i < o →
          ∃ c, source[i]? = some c ∧ isBlank c = true) ∧
        n = .skipped b.toNat o ∧
        n.message =
          "skipping byte 0x" ++ Hex.digits 2 b.toNat ++ " at offset " ++ toString o) ∧
    (∀ j k a b o p, j < k → .skipped a o ∈ (call j).notices → .skipped b p ∈ (call k).notices →
      o < p) ∧
    (∀ o < source.length, (∃ k b, .skipped b o ∈ (call k).notices) ↔
      (¬ ∃ k t, (call k).token = some t ∧ (call k).here.position ≤ o ∧
        o < (call k).after.position) ∧
      ∃ b, source[o]? = some b ∧ isBlank b = false) ∧
    ∀ k,
      let s : Scanner := (ofBytes source).afterSteps k
      let iterated : List Token × Scanner := s.tokens
      let last : Nat := k + iterated.1.length
      (∀ i ≤ iterated.1.length, (call (k + i)).token = iterated.1[i]?) ∧
      (Network.takeAll (Session.tokenize s) 0).1 = iterated.1 ∧
      (Network.takeAll (Session.tokenize s) 0).2.supply = iterated.2 ∧
      iterated.2.report.1 = (call last).notices ∧ iterated.2.report.1.length ≤ 1 ∧
      (iterated.2.report.1 = [] ↔ ∀ b ∈ left last, isBlank b = true) ∧
      (iterated.2.report.1 = [] ↔ source.length < iterated.2.cursor.position) := by
  intro call left
  have hpasses : ∀ k, (call k).Passes source := passes_stepAt source
  refine ⟨fun k => ⟨(hpasses k).length_notices.1, ?_, ?_⟩, ?_, fun o ho =>
    skipped_mem_notices_iff source ho, ?_⟩
  · have hleft : (∃ b ∈ left k, isBlank b = false) ↔ (call k).here.position < source.length := by
      rw [← Nat.not_le, ← isBlank_left_iff source k]
      simp only [not_forall, Bool.not_eq_true, exists_prop]
      rfl
    rw [hleft]
    exact (hpasses k).length_notices.2
  · intro n hn
    obtain ⟨b, _, hbyte, hblank, rfl⟩ := (hpasses k).of_mem_notices hn
    exact ⟨_, b, (call k).before_le_here, hbyte, hblank,
      fun i hbefore hhere => isBlank_of_stepAt source k hbefore hhere, rfl,
      Notice.message_skipped b _⟩
  · intro j k a b o p hlt hj hk
    exact skipped_place_lt source hlt hj hk
  · intro k s iterated last
    obtain ⟨htokens, hcursor, hreport⟩ := tokens_afterSteps source k
    have hnone : (call last).token = none :=
      (htokens _ (Nat.le_refl _)).trans (List.getElem?_eq_none (Nat.le_refl _))
    obtain ⟨hafter, hnil⟩ := (hpasses last).of_none hnone
    have hsilent : iterated.2.report.1 = [] ↔ source.length ≤ (call last).here.position :=
      hreport ▸ hnil
    have hposition : iterated.2.cursor.position = (call last).here.position + 1 :=
      (congrArg Cursor.position hcursor).trans hafter
    refine ⟨htokens, Session.takeAll_tokenize s, Session.supply_takeAll_tokenize s, hreport,
      hreport ▸ (hpasses last).length_notices.1, ?_, ?_⟩
    · exact hsilent.trans (isBlank_left_iff source last).symm
    · rw [hsilent, hposition, Nat.lt_succ_iff]

/-- The second dot behind a number is named, as no token holds it. The calls behind it find the end
of the source and name nothing. -/
theorem stepAt_notices_dot :
    let source : List UInt8 := [0x24, 0x31, 0x2E, 0x2E, 0x20]
    let call (k : Nat) : Step := (ofBytes source).stepAt k
    let left : Scanner := (ofBytes source).afterSteps 3
    .skipped 0x24 0 ∈ (call 0).notices ∧ .skipped 0x2E 3 ∈ (call 2).notices ∧ 0 < 3 ∧
      (¬ ∃ k t, (call k).token = some t ∧ (call k).here.position ≤ 3 ∧
        3 < (call k).after.position) ∧
      (call 3).token = none ∧ (call 3).notices.length ≠ 1 ∧ left.tokens.2.report.1 = [] := by
  intro source call left
  have hfirst : .skipped 0x24 0 ∈ (call 0).notices := by decide
  have hsecond : .skipped 0x2E 3 ∈ (call 2).notices := by decide
  have hnone : (call 3).token = none := by decide
  have hblanks : ∀ b ∈ source.drop (call 3).before.position, isBlank b = true :=
    List.all_eq_true.mp (by decide)
  obtain ⟨hcalls, hincrease, hplaces, hiterations⟩ := stepAt_notices source
  refine ⟨hfirst, hsecond, hincrease 0 2 _ _ _ _ (by decide) hfirst hsecond,
    ((hplaces 3 (by decide)).mp ⟨2, _, hsecond⟩).1, hnone, ?_, ?_⟩
  · intro hone
    obtain ⟨_, b, hb, hblank⟩ := (hcalls 3).2.1.mp hone
    cases hblank.symm.trans (hblanks b hb)
  · have hfound : left.nextToken.1 = none := by decide
    have hlast : left.tokens.1 = [] := congrArg Prod.fst (tokens_of_none hfound)
    have hsilent : left.tokens.2.report.1 = [] ↔
        ∀ b ∈ source.drop (call (3 + left.tokens.1.length)).before.position, isBlank b = true :=
      (hiterations 3).2.2.2.2.2.1
    rw [hlast] at hsilent
    exact hsilent.mpr hblanks

end Scanner
end ByteLexer

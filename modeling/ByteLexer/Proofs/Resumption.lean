import ByteLexer.Proofs.Events
import ByteLexer.Scan.Call

/-!
# Scanners without memory

Every call on a scanner but a slice depends only on the bytes from the cursor on. So a scanner
behind any calls goes on like a new one over what remains of the source, with all places moved by
the position, also from the middle of a token and past the end.
-/

namespace ByteLexer

namespace Cursor.Shifted

variable {n : Nat} {c d : Cursor}

private theorem ahead (h : Shifted n c d) : d.ahead = c.ahead := by
  rw [Cursor.ahead, Cursor.ahead, h.rest]

private theorem current (h : Shifted n c d) : d.current = c.current := by
  rw [Cursor.current, Cursor.current, h.rest]

private theorem peek (h : Shifted n c d) : d.peek = c.peek := by
  rw [Cursor.peek, Cursor.peek, h.ahead]

private theorem span (h : Shifted n c d) (k : Nat) : d.span k = c.span k := by
  rw [Cursor.span, Cursor.span, h.rest]

private theorem readWhile (h : Shifted n c d) (accepted : UInt8 → Bool) :
    Shifted n (c.readWhile accepted) (d.readWhile accepted) := by
  rw [Cursor.readWhile, Cursor.readWhile, h.ahead]
  exact h.advanceBy _

private theorem readLead (h : Shifted n c d) (lead : Lead) :
    (d.readLead lead).1 = (c.readLead lead).1 ∧
      Shifted n (c.readLead lead).2 (d.readLead lead).2 := by
  simp only [Cursor.readLead, h.ahead, h.span, true_and]
  exact h.advanceBy _

end Cursor.Shifted

namespace Scanner

private theorem cursor_nextToken (s : Scanner) :
    ∃ n, s.nextToken.2.cursor = s.cursor.advanceBy n := by
  have hreads := s.reads_nextToken
  generalize s.nextToken.1 = found, s.nextToken.2 = after at hreads
  cases hreads <;> exact ⟨_, rfl⟩

private theorem cursor_tokens (s : Scanner) : ∃ n, s.tokens.2.cursor = s.cursor.advanceBy n := by
  obtain ⟨m, hm⟩ := s.cursor_nextToken
  cases hcall : s.nextToken.1 with
  | none =>
    rw [tokens_of_none hcall]
    exact ⟨m, hm⟩
  | some t =>
    obtain ⟨n, hn⟩ := cursor_tokens s.nextToken.2
    rw [tokens_of_some hcall]
    exact ⟨m + n, by rw [hn, hm, Cursor.advanceBy_advanceBy]⟩
termination_by s.cursor.rest.length
decreasing_by exact length_lt_of_nextToken (Prod.ext hcall rfl)

theorem cursor_perform (s : Scanner) (call : Call) :
    ∃ n, (s.perform call).2.cursor = s.cursor.advanceBy n := by
  have hstay : s.cursor = s.cursor.advanceBy 0 := rfl
  cases call with
  | nextToken => exact s.cursor_nextToken
  | tokens => exact s.cursor_tokens
  | classify lead =>
    simp only [perform, classify]
    cases Lead.ofInt? lead with
    | some l => exact ⟨_, rfl⟩
    | none => exact ⟨0, hstay⟩
  | peek => exact ⟨0, hstay⟩
  | slice start => exact ⟨0, hstay⟩
  | _ => exact ⟨_, rfl⟩

theorem cursor_performAll (s : Scanner) (calls : List Call) :
    ∃ n, (s.performAll calls).2.cursor = s.cursor.advanceBy n := by
  induction calls generalizing s with
  | nil => exact ⟨0, rfl⟩
  | cons call calls ih =>
    obtain ⟨m, hm⟩ := s.cursor_perform call
    obtain ⟨n, hn⟩ := ih (s.perform call).2
    refine ⟨m + n, ?_⟩
    rw [← Cursor.advanceBy_advanceBy, ← hm, ← hn]
    rfl

/-- The second scanner stands on the same bytes as the first one, `n` bytes further on, and has all
its notices behind `old` ones. -/
structure Resumes (n : Nat) (old : List Notice) (fresh s : Scanner) : Prop where
  cursor : Cursor.Shifted n fresh.cursor s.cursor
  journal : s.journal = fresh.journal.map (Notice.shift n) ++ old

namespace Resumes

variable {n : Nat} {old : List Notice} {fresh s : Scanner}

private theorem classify (h : Resumes n old fresh s) (lead : Int) :
    (s.classify lead).1 = (fresh.classify lead).1 ∧
      Resumes n old (fresh.classify lead).2 (s.classify lead).2 := by
  simp only [Scanner.classify]
  cases Lead.ofInt? lead with
  | some l =>
    simp only [h.cursor.ahead, h.cursor.span, true_and]
    exact ⟨h.cursor.advanceBy _, h.journal⟩
  | none =>
    refine ⟨rfl, h.cursor, ?_⟩
    simp only [note, h.journal, h.cursor.position]
    rfl

private theorem skipBlanks (h : Resumes n old fresh s) :
    Resumes n old (fresh.move .skipBlanks) (s.move .skipBlanks) :=
  ⟨h.cursor.skipBlanks, h.journal⟩

private theorem advance (h : Resumes n old fresh s) :
    Resumes n old (fresh.move .advance) (s.move .advance) :=
  ⟨h.cursor.advanceBy 1, h.journal⟩

private theorem nextToken (h : Resumes n old fresh s) : s.nextToken.1 = fresh.nextToken.1 ∧
    Resumes n old fresh.nextToken.2 s.nextToken.2 := by
  have hhere := h.skipBlanks
  simp only [Scanner.nextToken, hhere.cursor.current]
  cases (fresh.move .skipBlanks).cursor.current with
  | some byte =>
    obtain ⟨htoken, hafter⟩ := hhere.classify byte.toNat
    dsimp only
    exact ⟨htoken, hafter.advance⟩
  | none => exact ⟨rfl, hhere.advance⟩

private theorem tokens {n : Nat} {old : List Notice} {fresh s : Scanner}
    (h : Resumes n old fresh s) :
    s.tokens.1 = fresh.tokens.1 ∧ Resumes n old fresh.tokens.2 s.tokens.2 := by
  obtain ⟨htoken, hafter⟩ := h.nextToken
  cases hcall : fresh.nextToken.1 with
  | none =>
    rw [tokens_of_none hcall, tokens_of_none (htoken.trans hcall)]
    exact ⟨rfl, hafter⟩
  | some t =>
    obtain ⟨hmore, hend⟩ := tokens hafter
    rw [tokens_of_some hcall, tokens_of_some (htoken.trans hcall)]
    exact ⟨congrArg (t :: ·) hmore, hend⟩
termination_by fresh.cursor.rest.length
decreasing_by exact length_lt_of_nextToken (Prod.ext hcall rfl)

private theorem haveRead (h : Resumes n old fresh s) {found found' : String × Cursor}
    (htext : found'.1 = found.1) (hcursor : Cursor.Shifted n found.2 found'.2) :
    (s.haveRead found').1 = (fresh.haveRead found).1 ∧
      Resumes n old (fresh.haveRead found).2 (s.haveRead found').2 :=
  ⟨congrArg Answer.text htext, hcursor, h.journal⟩

end Resumes

/-- The start of a slice is an index into the whole source; no other call has such an index. -/
def Call.isRelative : Call → Bool
  | .slice _ => false
  | _ => true

theorem Resumes.perform {n : Nat} {old : List Notice} {fresh s : Scanner}
    (h : Resumes n old fresh s) {call : Call} (hcall : call.isRelative = true) :
    (s.perform call).1 = (fresh.perform call).1 ∧
      Resumes n old (fresh.perform call).2 (s.perform call).2 := by
  cases call with
  | nextToken =>
    obtain ⟨htoken, hafter⟩ := h.nextToken
    exact ⟨congrArg Answer.token htoken, hafter⟩
  | tokens =>
    obtain ⟨htokens, hafter⟩ := h.tokens
    exact ⟨congrArg Answer.tokens htokens, hafter⟩
  | classify lead =>
    obtain ⟨htoken, hafter⟩ := h.classify lead
    exact ⟨congrArg Answer.token htoken, hafter⟩
  | peek => exact ⟨congrArg Answer.byte h.cursor.peek, h⟩
  | advance => exact ⟨rfl, h.advance⟩
  | skipBlanks => exact ⟨rfl, h.skipBlanks⟩
  | readWhile accepted => exact ⟨rfl, h.cursor.readWhile _, h.journal⟩
  | readWord =>
    obtain ⟨htext, hcursor⟩ := h.cursor.readLead .word
    exact h.haveRead htext hcursor
  | readNumber =>
    obtain ⟨htext, hcursor⟩ := h.cursor.readLead .number
    exact h.haveRead htext hcursor
  | readComment =>
    obtain ⟨htext, hcursor⟩ := h.cursor.readLead .comment
    exact h.haveRead htext hcursor
  | slice start => cases hcall

theorem Resumes.performAll {n : Nat} {old : List Notice} {fresh s : Scanner} {calls : List Call}
    (h : Resumes n old fresh s) (hcalls : ∀ call ∈ calls, call.isRelative = true) :
    (s.performAll calls).1 = (fresh.performAll calls).1 ∧
      Resumes n old (fresh.performAll calls).2 (s.performAll calls).2 := by
  induction calls generalizing fresh s with
  | nil => exact ⟨rfl, h⟩
  | cons call calls ih =>
    obtain ⟨hcall, hcalls⟩ := List.forall_mem_cons.mp hcalls
    obtain ⟨hanswer, hafter⟩ := h.perform hcall
    obtain ⟨hanswers, hend⟩ := ih hafter hcalls
    exact ⟨congrArg₂ List.cons hanswer hanswers, hend⟩

private theorem resumes_performAll (source : List UInt8) (past : List Call) :
    let s := ((ofBytes source).performAll past).2
    Resumes s.cursor.position s.journal (ofBytes (source.drop s.cursor.position)) s := by
  intro s
  obtain ⟨n, hn⟩ := (ofBytes source).cursor_performAll past
  have hposition : s.cursor.position = n := by
    rw [hn]
    exact Nat.zero_add n
  -- Calls only move the cursor on, so it stands on the bytes that `drop` leaves, past the end none.
  refine ⟨⟨?_, ?_⟩, rfl⟩
  · rw [hposition, hn]
    rfl
  · exact (Nat.zero_add _).symm

/-- Behind any calls a scanner answers all further ones, slices apart, as a new scanner over the
bytes from its position on; the places it reports and reaches are those of the new one, moved by
that position. -/
theorem performAll_eq_fresh (source : List UInt8) (past calls : List Call)
    (hcalls : ∀ call ∈ calls, call.isRelative = true) :
    let s := ((ofBytes source).performAll past).2
    let p := s.cursor.position
    let here := s.performAll calls
    let fresh := (ofBytes (source.drop p)).performAll calls
    here.1 = fresh.1 ∧ here.2.cursor.position = fresh.2.cursor.position + p ∧
      here.2.cursor.readPosition = fresh.2.cursor.readPosition + p ∧
      here.2.cursor.current = fresh.2.cursor.current ∧
      here.2.journal = fresh.2.journal.map (Notice.shift p) ++ s.journal := by
  intro s p here fresh
  obtain ⟨hanswers, hend⟩ := (resumes_performAll source past).performAll hcalls
  refine ⟨hanswers, hend.cursor.position, ?_, hend.cursor.current, hend.journal⟩
  rw [Cursor.readPosition, Cursor.readPosition, hend.cursor.position]
  exact Nat.add_right_comm _ _ _

/-- Inside a word and on past the end a scanner goes on as a new one would from there. -/
theorem performAll_eq_fresh_inside :
    let calls := [Call.nextToken, .tokens, .readNumber, .classify (-1)]
    let s := ((ofBytes [0x61, 0x62, 0x20, 0x24]).performAll [.advance]).2
    let fresh := ofBytes [0x62, 0x20, 0x24]
    (∀ call ∈ calls, call.isRelative = true) ∧ s.cursor.position = 1 ∧
      (s.performAll calls).1 = (fresh.performAll calls).1 ∧
      (s.performAll calls).2.cursor.position = (fresh.performAll calls).2.cursor.position + 1 ∧
      (s.performAll calls).2.journal =
        (fresh.performAll calls).2.journal.map (Notice.shift 1) := by
  intro calls s fresh
  have hcalls : ∀ call ∈ calls, call.isRelative = true := by decide
  obtain ⟨hanswers, hposition, _, _, hjournal⟩ :=
    performAll_eq_fresh [0x61, 0x62, 0x20, 0x24] [.advance] calls hcalls
  exact ⟨hcalls, rfl, hanswers, hposition, hjournal.trans (List.append_nil _)⟩

end Scanner
end ByteLexer

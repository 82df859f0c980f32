import ByteLexer.Command.Outcome
import ByteLexer.Proofs.Segments

/-!
# Printing line by line

The tokens of a scanner are printed one after the other. So a run delivers the lines of all tokens,
and what comes of that follows from what the command line does with texts.
-/

namespace ByteLexer

variable {σ φ ω : Type}

namespace CommandLine

variable {line : CommandLine (StateM σ) ω} {s : Scanner}

private theorem printTokens_of_none (h : s.nextToken.1 = none) (o : ω) :
    line.printTokens o s = pure (.ok o, s.nextToken.2) := by
  rw [printTokens]
  split
  · rename_i s' hcall
    rw [hcall]
  · rename_i t s' hcall
    rw [hcall] at h
    cases h

private theorem printTokens_of_some {t : Token} (h : s.nextToken.1 = some t) (o : ω) :
    line.printTokens o s = (do
      match ← line.write o (t.render ++ "\n") with
      | .ok o' => line.printTokens o' s.nextToken.2
      | .error failed => return (.error failed, s.nextToken.2)) := by
  rw [printTokens]
  split
  · rename_i s' hcall
    rw [hcall] at h
    cases h
  · rename_i u s' hcall
    rw [hcall] at h ⊢
    cases h
    rfl

private theorem printTokens_eq_writeAll (line : CommandLine (StateM σ) ω) (o : ω) (s : Scanner)
    (files : σ) :
    let written := (line.writeAll o (s.tokens.1.map fun t => t.render ++ "\n")).run files
    ∃ s', (line.printTokens o s).run files = ((written.1, s'), written.2) := by
  -- Both go through the tokens of the scanner and stop at the first line that is not written.
  induction s using Scanner.tokens.induct generalizing o files with
  | case1 s s' hcall =>
    have hnone : s.nextToken.1 = none := congrArg Prod.fst hcall
    rw [printTokens_of_none hnone, Scanner.tokens_of_none hnone]
    exact ⟨_, rfl⟩
  | case2 s t s' hcall ih =>
    have hsome : s.nextToken.1 = some t := congrArg Prod.fst hcall
    have hnext : s.nextToken.2 = s' := congrArg Prod.snd hcall
    rw [printTokens_of_some hsome, Scanner.tokens_of_some hsome, hnext, List.map_cons, writeAll,
      StateT.run_bind, StateT.run_bind]
    obtain ⟨result, files'⟩ := (line.write o (t.render ++ "\n")).run files
    cases result with
    | ok o' => exact ih o' files'
    | error failed => exact ⟨_, rfl⟩

private def delivered : Except Report String × σ → Outcome σ
  | (.ok text, files) => ⟨0, text, files⟩
  | (.error failed, files) => ⟨failed.exitCode, failed.stdout, files⟩

private theorem printOn_eq_delivered (line : CommandLine (StateM σ) ω) (r : Request) (s : Scanner)
    (files : σ) : Outcome.ofRun ((line.printOn r s).run files) =
      delivered ((line.deliver r.output (s.tokens.1.map fun t => t.render ++ "\n")).run files) := by
  obtain ⟨s', hprint⟩ := line.printTokens_eq_writeAll (line.output r.output) s files
  rw [printOn, deliver, StateT.run_bind, StateT.run_bind, hprint]
  obtain ⟨result, files'⟩ := (line.writeAll (line.output r.output) _).run files
  cases result with
  | ok o => rfl
  | error failed => rfl

/-- Printing comes to nothing, to all lines on the standard output, or to a file that is emptied and
then holds all lines. -/
theorem Lawful.printOn_outcome {fs : FileSystem σ φ} (hline : line.Lawful fs) {r : Request}
    {bytes : List UInt8} (h : s.cursor.rest = bytes) (files : σ) :
    Outcome.ofRun ((line.printOn r s).run files) = Command.printed fs files r.output bytes := by
  rw [printOn_eq_delivered, Scanner.tokens_fst, h, Command.printed, Token.renderLines]
  cases htokens : tokensOf bytes with
  | nil => rw [List.map_nil, hline.deliver_nil, if_pos rfl, delivered]
  | cons t ts =>
    rw [if_neg (List.cons_ne_nil t ts)]
    by_cases hdash : r.output = "-"
    · rw [if_pos hdash, hdash, hline.deliver_standard, delivered]
    · rw [if_neg hdash, List.map_cons]
      cases hcreate : fs.create files r.output with
      | ok made => rw [hline.deliver_of_create hdash hcreate, delivered]
      | error fault =>
        obtain ⟨failed, hfailed, hexit, hstdout⟩ :=
          hline.deliver_of_error hdash hcreate (t.render ++ "\n")
            (ts.map fun t => t.render ++ "\n")
        rw [hfailed, delivered, hexit, hstdout]

end CommandLine
end ByteLexer

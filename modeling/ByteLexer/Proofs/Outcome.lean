import ByteLexer.Proofs.Printing

/-!
# What a run of the command comes to

A run reads its source and delivers the lines of the tokens there. It leaves every file but the
output alone, and none of this depends on the level.
-/

namespace ByteLexer

variable {σ φ ω : Type} {fs : FileSystem σ φ} {input : List UInt8} {s : σ} {r : Request}

namespace Command

private theorem openSource_of_ok {bytes : List UInt8} (h : fs.source input s r.source = .ok bytes) :
    ∃ scanner, (openSource (fs.host input) r).run s = (.ok scanner, s) ∧
      scanner.cursor.rest = bytes := by
  unfold FileSystem.source at h
  unfold openSource
  split at h
  · cases h
    rw [if_pos ‹_›]
    exact ⟨.ofBytes input, rfl, rfl⟩
  · rw [if_neg ‹_›]
    refine ⟨(Scanner.ofBytes bytes).note (.read bytes.length r.source), ?_, rfl⟩
    simp only [Scanner.ofFile, FileSystem.host, StateT.run_bind, StateT.run_get, StateT.run_pure,
      pure_bind, h]
    rfl

private theorem openSource_of_error {fault : Fault}
    (h : fs.source input s r.source = .error fault) :
    (openSource (fs.host input) r).run s = (.error ⟨r.source, fault⟩, s) := by
  unfold FileSystem.source at h
  unfold openSource
  split at h
  · cases h
  · rw [if_neg ‹_›]
    simp only [Scanner.ofFile, FileSystem.host, StateT.run_bind, StateT.run_get, StateT.run_pure,
      pure_bind, h]
    rfl

end Command

namespace CommandLine.Lawful

variable {line : CommandLine (StateM σ) ω}

private theorem sourceFailure_eq (hline : line.Lawful fs) (e : SourceError) :
    (line.sourceFailure e).exitCode = 1 ∧ (line.sourceFailure e).stdout = "" := by
  unfold sourceFailure
  split
  · exact ⟨rfl, rfl⟩
  · exact ⟨hline.failure_exitCode _, hline.failure_stdout _⟩

theorem execute_outcome (hline : line.Lawful fs) (input : List UInt8) (s : σ) (r : Request) :
    Outcome.ofRun ((line.execute (fs.host input) r).run s) =
      Command.outcome fs input s r.source r.output := by
  unfold execute Command.outcome
  cases h : fs.source input s r.source with
  | error fault =>
    obtain ⟨hexit, hstdout⟩ := hline.sourceFailure_eq ⟨r.source, fault⟩
    rw [StateT.run_bind, Command.openSource_of_error h]
    exact congrArg₂ (fun code text => Outcome.mk code text s) hexit hstdout
  | ok bytes =>
    obtain ⟨scanner, hopen, hrest⟩ := Command.openSource_of_ok h
    rw [StateT.run_bind, hopen]
    exact hline.printOn_outcome hrest s

/-- A run whose arguments are not accepted changes no file. -/
theorem run_of_error (hline : line.Lawful fs) (host : Host (StateM σ) φ) {arguments : List String}
    {environment : Option String} {halted : Report}
    (h : ((line.accept arguments environment).run s).1 = .error halted) :
    (line.run host arguments environment).run s = (halted, s) := by
  have hrefused : (line.accept arguments environment).run s = (.error halted, s) :=
    Prod.ext h (hline.accept_files arguments environment s)
  rw [run, StateT.run_bind, hrefused]
  rfl

/-- Once the arguments are accepted, a run comes to what the request comes to. -/
theorem run_outcome (hline : line.Lawful fs) (input : List UInt8) {arguments : List String}
    {environment : Option String}
    (haccept : ((line.accept arguments environment).run s).1 = .ok r) :
    Outcome.ofRun ((line.run (fs.host input) arguments environment).run s) =
      Command.outcome fs input s r.source r.output := by
  have haccepted : (line.accept arguments environment).run s = (.ok r, s) :=
    Prod.ext haccept (hline.accept_files arguments environment s)
  rw [run, StateT.run_bind, haccepted]
  exact hline.execute_outcome input s r

end CommandLine.Lawful
end ByteLexer

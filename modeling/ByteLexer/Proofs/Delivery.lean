import ByteLexer.Proofs.HostLine
import ByteLexer.Proofs.Outcome

/-!
# What reaches the output

A run that cannot read its source leaves all files alone. A run that finds a token leaves exactly
the printed tokens in its output, whatever was there before, the source itself included. A run
without a token leaves the output as it was, so its old content stays.
-/

namespace ByteLexer

variable {σ φ ω : Type} {fs : FileSystem σ φ} {s : σ}

namespace FileSystem

variable {file : φ} {path : String}

private theorem read_eq_ok_of_lookup {bytes : List UInt8} (hlookup : fs.lookup s path = .ok file)
    (hcontent : fs.content s file = some bytes) : fs.read s path = .ok bytes := by
  unfold read
  rw [hlookup]
  simp only [pure, bind, Except.bind, hcontent]
  rfl

private theorem SameBut.trans {s' s'' : σ} (h : fs.SameBut file s s')
    (h' : fs.SameBut file s' s'') : fs.SameBut file s s'' where
  content other hne := (h'.content other hne).trans (h.content other hne)
  lookup other hne route := (h'.lookup other hne route).trans (h.lookup other hne route)

/-- A file that is opened and then written holds what was written and nothing else, and no other
file has changed. -/
theorem written_of_create {opened : σ} (h : fs.create s path = .ok (file, opened))
    (bytes : List UInt8) : fs.lookup (fs.append opened file bytes) path = .ok file ∧
      fs.content (fs.append opened file bytes) file = some bytes ∧
      fs.SameBut file s (fs.append opened file bytes) := by
  have hcreate : fs.SameBut file s opened :=
    ⟨fun _ hne => fs.content_create_of_ne h hne, fun _ hne => fs.lookup_create_of_ne h hne⟩
  have happend : fs.SameBut file opened (fs.append opened file bytes) :=
    ⟨fun _ hne => fs.content_append_of_ne hne opened bytes,
      fun other _ => fs.lookup_append opened file other bytes⟩
  refine ⟨?_, ?_, hcreate.trans happend⟩
  · exact (fs.lookup_append opened file file bytes path).mpr (fs.lookup_create h)
  · rw [fs.content_append (fs.content_create h), List.nil_append]

end FileSystem

namespace Command

variable {input : List UInt8} {source output : String} {bytes : List UInt8}

private theorem outcome_of_error {fault : Fault} (h : fs.source input s source = .error fault) :
    outcome fs input s source output = ⟨1, "", s⟩ := by
  rw [outcome, h]

private theorem outcome_of_no_token (hsource : fs.source input s source = .ok bytes)
    (htokens : tokensOf bytes = []) : outcome fs input s source output = ⟨0, "", s⟩ := by
  rw [outcome, hsource]
  simp only [printed, if_pos htokens]

private theorem outcome_standard (hsource : fs.source input s source = .ok bytes)
    (htokens : tokensOf bytes ≠ []) (houtput : output = "-") :
    outcome fs input s source output = ⟨0, Token.renderLines (tokensOf bytes), s⟩ := by
  rw [outcome, hsource]
  simp only [printed, if_neg htokens, if_pos houtput]

private theorem outcome_of_create (hsource : fs.source input s source = .ok bytes)
    (htokens : tokensOf bytes ≠ []) (houtput : output ≠ "-") {file : φ} {opened : σ}
    (hcreate : fs.create s output = .ok (file, opened)) :
    outcome fs input s source output =
      ⟨0, "", fs.append opened file (Utf8.encode (Token.renderLines (tokensOf bytes)))⟩ := by
  rw [outcome, hsource]
  simp only [printed, if_neg htokens, if_neg houtput, hcreate]

private theorem exists_create_of_exitCode (hsource : fs.source input s source = .ok bytes)
    (htokens : tokensOf bytes ≠ []) (houtput : output ≠ "-")
    (hexit : (outcome fs input s source output).exitCode = 0) :
    ∃ file opened, fs.create s output = .ok (file, opened) := by
  rw [outcome, hsource] at hexit
  simp only [printed, if_neg htokens, if_neg houtput] at hexit
  split at hexit
  · cases hexit
  · exact ⟨_, _, ‹_›⟩

/-- What a run that ended well has in its output file: the printed tokens, or what was there before
if there was no token. -/
theorem read_outcome (hsource : fs.source input s source = .ok bytes) (houtput : output ≠ "-")
    (hexit : (outcome fs input s source output).exitCode = 0) :
    fs.read (outcome fs input s source output).files output =
      if tokensOf bytes = [] then fs.read s output
      else .ok (Utf8.encode (Token.renderLines (tokensOf bytes))) := by
  by_cases htokens : tokensOf bytes = []
  · rw [if_pos htokens, outcome_of_no_token hsource htokens]
  · obtain ⟨file, opened, hcreate⟩ := exists_create_of_exitCode hsource htokens houtput hexit
    obtain ⟨hlookup, hcontent, _⟩ := FileSystem.written_of_create hcreate
      (Utf8.encode (Token.renderLines (tokensOf bytes)))
    rw [if_neg htokens, outcome_of_create hsource htokens houtput hcreate]
    exact FileSystem.read_eq_ok_of_lookup hlookup hcontent

end Command

namespace CommandLine

variable {line : CommandLine (StateM σ) ω} {arguments : List String} {environment : Option String}
  {r : Request}

/-- What a run leaves once its arguments are accepted: nothing new if its source cannot be read; if
the source has a token and the output can be opened, the printed tokens there and nothing else, even
if the output is the source. The level makes no difference. -/
theorem run_delivers {fs : FileSystem σ φ} (hline : line.Lawful fs) (input : List UInt8) {s : σ}
    (haccept : ((line.accept arguments environment).run s).1 = .ok r) :
    let done : Report × σ := (line.run (fs.host input) arguments environment).run s
    (∀ fault, fs.source input s r.source = .error fault →
      done.1.exitCode = 1 ∧ done.1.stdout = "" ∧ done.2 = s) ∧
    (∀ bytes, fs.source input s r.source = .ok bytes → tokensOf bytes ≠ [] →
      (r.output = "-" → done.1.exitCode = 0 ∧
        done.1.stdout = Token.renderLines (tokensOf bytes) ∧ done.2 = s) ∧
      (r.output ≠ "-" → ∀ file opened, fs.create s r.output = .ok (file, opened) →
        done.1.exitCode = 0 ∧ done.1.stdout = "" ∧ fs.lookup done.2 r.output = .ok file ∧
        fs.content done.2 file = some (Utf8.encode (Token.renderLines (tokensOf bytes))) ∧
        fs.SameBut file s done.2)) ∧
    ∀ arguments' environment' r', ((line.accept arguments' environment').run s).1 = .ok r' →
      r'.source = r.source → r'.output = r.output →
      let other : Report × σ := (line.run (fs.host input) arguments' environment').run s
      other.1.exitCode = done.1.exitCode ∧ other.1.stdout = done.1.stdout ∧ other.2 = done.2 := by
  intro done
  have hdone : Outcome.ofRun done = Command.outcome fs input s r.source r.output :=
    hline.run_outcome input haccept
  have hexit : done.1.exitCode = (Command.outcome fs input s r.source r.output).exitCode :=
    congrArg Outcome.exitCode hdone
  have hstdout : done.1.stdout = (Command.outcome fs input s r.source r.output).stdout :=
    congrArg Outcome.stdout hdone
  have hfiles : done.2 = (Command.outcome fs input s r.source r.output).files :=
    congrArg Outcome.files hdone
  refine ⟨?_, ?_, ?_⟩
  · intro fault hsource
    rw [hexit, hstdout, hfiles, Command.outcome_of_error hsource]
    exact ⟨rfl, rfl, rfl⟩
  · intro bytes hsource htokens
    constructor
    · intro houtput
      rw [hexit, hstdout, hfiles, Command.outcome_standard hsource htokens houtput]
      exact ⟨rfl, rfl, rfl⟩
    · intro houtput file opened hcreate
      rw [hexit, hstdout, hfiles, Command.outcome_of_create hsource htokens houtput hcreate]
      exact ⟨rfl, rfl, FileSystem.written_of_create hcreate _⟩
  · intro arguments' environment' r' haccept' hsame_source hsame_output other
    have hother : Outcome.ofRun other = Outcome.ofRun done := by
      rw [hdone, ← hsame_source, ← hsame_output]
      exact hline.run_outcome input haccept'
    exact ⟨congrArg Outcome.exitCode hother, congrArg Outcome.stdout hother,
      congrArg Outcome.files hother⟩

/-- A source that is its own output; a source that is not there; another level. -/
theorem run_delivers_onto_source :
    let files : FileTree := FileTree.empty.addFile ["s"] (Utf8.encode "fn x")
    let line : CommandLine (StateM FileTree) (Output Location) := ofHost (FileTree.host [])
    let done : Report × FileTree := (Command.run (FileTree.host []) ["s", "-o", "s"] none).run files
    let failed : Report × FileTree :=
      (Command.run (FileTree.host []) ["gone", "-o", "s"] none).run files
    let loud : Report × FileTree :=
      (Command.run (FileTree.host []) ["--log-level=debug", "-os", "s"] none).run files
    line.Lawful FileTree.fileSystem ∧
    (((line.accept ["s", "-o", "s"] none).run files).1 = .ok ⟨"s", "s", .warning⟩ ∧
      FileTree.fileSystem.source [] files "s" = .ok (Utf8.encode "fn x") ∧
      tokensOf (Utf8.encode "fn x") = [.unit .kwFn, .payload .identifier "x"] ∧
      done.1.exitCode = 0 ∧ FileTree.fileSystem.content done.2 ["working directory", "s"] =
        some (Utf8.encode "KwFn\nIdentifier(\"x\")\n")) ∧
    (((line.accept ["gone", "-o", "s"] none).run files).1 = .ok ⟨"gone", "s", .warning⟩ ∧
      FileTree.fileSystem.source [] files "gone" = .error .absent ∧
      failed.1.exitCode = 1 ∧ failed.2 = files) ∧
    ((line.accept ["--log-level=debug", "-os", "s"] none).run files).1 = .ok ⟨"s", "s", .debug⟩ ∧
      loud.2 = done.2 := by
  intro files line done failed loud
  have hline : line.Lawful FileTree.fileSystem := lawful_ofHost FileTree.fileSystem []
  have haccept : ((line.accept ["s", "-o", "s"] none).run files).1 =
      .ok ⟨"s", "s", .warning⟩ := by rfl
  have haccept_gone : ((line.accept ["gone", "-o", "s"] none).run files).1 =
      .ok ⟨"gone", "s", .warning⟩ := by rfl
  have haccept_loud : ((line.accept ["--log-level=debug", "-os", "s"] none).run files).1 =
      .ok ⟨"s", "s", .debug⟩ := by decide +kernel
  have hsource : FileTree.fileSystem.source [] files "s" = .ok (Utf8.encode "fn x") := by rfl
  have hgone : FileTree.fileSystem.source [] files "gone" = .error .absent := by rfl
  have htokens : tokensOf (Utf8.encode "fn x") = [.unit .kwFn, .payload .identifier "x"] := by
    decide +kernel
  have hcreate : FileTree.fileSystem.create files "s" = .ok (["working directory", "s"],
      files.put ["working directory", "s"] (.file [])) := by rfl
  have hne : tokensOf (Utf8.encode "fn x") ≠ [] := by
    rw [htokens]
    simp
  obtain ⟨_, hwritten, hlevel⟩ := run_delivers hline [] haccept
  obtain ⟨hexit, _, _, hcontent, _⟩ := (hwritten _ hsource hne).2 (by decide) _ _ hcreate
  obtain ⟨hexit_gone, _, hfiles⟩ := (run_delivers hline [] haccept_gone).1 .absent hgone
  rw [htokens] at hcontent
  exact ⟨hline, ⟨haccept, hsource, htokens, hexit, hcontent⟩,
    ⟨haccept_gone, hgone, hexit_gone, hfiles⟩, haccept_loud,
    (hlevel _ _ _ haccept_loud rfl rfl).2.2⟩

/-- A run that ended well has the printed tokens in its output file exactly if there was a token, or
the file was empty before: without a token no file changes. So the same run on other files leaves
the same output exactly if there was a token, or the output was the same before. -/
theorem run_output_iff {fs : FileSystem σ φ} (hline : line.Lawful fs) (input : List UInt8) {s : σ}
    (haccept : ((line.accept arguments environment).run s).1 = .ok r) (hfile : r.output ≠ "-")
    {bytes : List UInt8} (hsource : fs.source input s r.source = .ok bytes)
    (hexit : ((line.run (fs.host input) arguments environment).run s).1.exitCode = 0) :
    let done : Report × σ := (line.run (fs.host input) arguments environment).run s
    (fs.read done.2 r.output = .ok (Utf8.encode (Token.renderLines (tokensOf bytes))) ↔
      tokensOf bytes ≠ [] ∨ fs.read s r.output = .ok []) ∧
    (tokensOf bytes = [] → done.2 = s) ∧
    ∀ s', ((line.accept arguments environment).run s').1 = .ok r →
      fs.source input s' r.source = .ok bytes →
      let again : Report × σ := (line.run (fs.host input) arguments environment).run s'
      again.1.exitCode = 0 →
      (fs.read again.2 r.output = fs.read done.2 r.output ↔
        tokensOf bytes ≠ [] ∨ fs.read s' r.output = fs.read s r.output) := by
  intro done
  -- Any such run leaves its tokens in the output file, or what was there if it found none.
  have hread (s' : σ) (haccept' : ((line.accept arguments environment).run s').1 = .ok r)
      (hsource' : fs.source input s' r.source = .ok bytes)
      (hexit' : ((line.run (fs.host input) arguments environment).run s').1.exitCode = 0) :
      fs.read ((line.run (fs.host input) arguments environment).run s').2 r.output =
        if tokensOf bytes = [] then fs.read s' r.output
        else .ok (Utf8.encode (Token.renderLines (tokensOf bytes))) := by
    have hdone := hline.run_outcome input haccept'
    have hfiles := congrArg Outcome.files hdone
    have hcode := (congrArg Outcome.exitCode hdone).symm.trans hexit'
    exact (congrArg (fs.read · r.output) hfiles).trans (Command.read_outcome hsource' hfile hcode)
  have hdone : fs.read done.2 r.output = _ := hread s haccept hsource hexit
  by_cases htokens : tokensOf bytes = []
  · have hunchanged : done.2 = s := by
      have hfiles := congrArg Outcome.files (hline.run_outcome input haccept)
      rwa [Command.outcome_of_no_token hsource htokens] at hfiles
    rw [hunchanged, htokens, Token.renderLines_nil, Utf8.encode_empty]
    refine ⟨by simp, fun _ => rfl, ?_⟩
    intro s' haccept' hsource' again hexit'
    have hagain : fs.read again.2 r.output = _ := hread s' haccept' hsource' hexit'
    rw [hagain, if_pos htokens]
    simp
  · rw [if_neg htokens] at hdone
    refine ⟨by simp [hdone, htokens], fun hnil => absurd hnil htokens, ?_⟩
    intro s' haccept' hsource' again hexit'
    have hagain : fs.read again.2 r.output = _ := hread s' haccept' hsource' hexit'
    rw [hagain, hdone, if_neg htokens]
    simp [htokens]

/-- A token replaces what the output held. -/
theorem run_output_iff_keyword :
    let files : FileTree :=
      (FileTree.empty.addFile ["s"] (Utf8.encode "fn")).addFile ["t"] (Utf8.encode "old")
    let line : CommandLine (StateM FileTree) (Output Location) := ofHost (FileTree.host [])
    let done : Report × FileTree := (Command.run (FileTree.host []) ["s", "-o", "t"] none).run files
    line.Lawful FileTree.fileSystem ∧
      ((line.accept ["s", "-o", "t"] none).run files).1 = .ok ⟨"s", "t", .warning⟩ ∧
      FileTree.fileSystem.source [] files "s" = .ok (Utf8.encode "fn") ∧ done.1.exitCode = 0 ∧
      FileTree.fileSystem.read done.2 "t" = .ok (Utf8.encode "KwFn\n") := by
  intro files line done
  have hline : line.Lawful FileTree.fileSystem := lawful_ofHost FileTree.fileSystem []
  have haccept : ((line.accept ["s", "-o", "t"] none).run files).1 =
      .ok ⟨"s", "t", .warning⟩ := by rfl
  have hsource : FileTree.fileSystem.source [] files "s" = .ok (Utf8.encode "fn") := by rfl
  have htokens : tokensOf (Utf8.encode "fn") = [.unit .kwFn] := by decide +kernel
  have hne : tokensOf (Utf8.encode "fn") ≠ [] := by
    rw [htokens]
    simp
  have hcreate : FileTree.fileSystem.create files "t" = .ok (["working directory", "t"],
      files.put ["working directory", "t"] (.file [])) := by rfl
  have hexit : done.1.exitCode = 0 := by
    have hdone := hline.run_outcome [] haccept
    rw [Command.outcome_of_create hsource hne (by decide) hcreate] at hdone
    exact congrArg Outcome.exitCode hdone
  have hread := (run_output_iff hline [] haccept (by decide) hsource hexit).1.mpr (Or.inl hne)
  rw [htokens] at hread
  exact ⟨hline, haccept, hsource, hexit, hread⟩

/-- The output of an earlier run stays if the source has no token, though the run ends well. -/
theorem run_keeps_stale_output :
    let files : FileTree :=
      (FileTree.empty.addFile ["s"] (Utf8.encode " ")).addFile ["t"] (Utf8.encode "KwFn\n")
    let line : CommandLine (StateM FileTree) (Output Location) := ofHost (FileTree.host [])
    let done : Report × FileTree := (Command.run (FileTree.host []) ["s", "-o", "t"] none).run files
    ((line.accept ["s", "-o", "t"] none).run files).1 = .ok ⟨"s", "t", .warning⟩ ∧
      FileTree.fileSystem.source [] files "s" = .ok (Utf8.encode " ") ∧ done.1.exitCode = 0 ∧
      FileTree.fileSystem.read done.2 "t" ≠
        .ok (Utf8.encode (Token.renderLines (tokensOf (Utf8.encode " ")))) := by
  intro files line done
  have hline : line.Lawful FileTree.fileSystem := lawful_ofHost FileTree.fileSystem []
  have haccept : ((line.accept ["s", "-o", "t"] none).run files).1 =
      .ok ⟨"s", "t", .warning⟩ := by rfl
  have hsource : FileTree.fileSystem.source [] files "s" = .ok (Utf8.encode " ") := by rfl
  have htokens : tokensOf (Utf8.encode " ") = [] := by decide +kernel
  have hdone := hline.run_outcome [] haccept
  rw [Command.outcome_of_no_token hsource htokens] at hdone
  have hfiles : done.2 = files := congrArg Outcome.files hdone
  have hread : FileTree.fileSystem.read files "t" = .ok (Utf8.encode "KwFn\n") := by rfl
  refine ⟨haccept, hsource, congrArg Outcome.exitCode hdone, ?_⟩
  rw [hfiles, hread, htokens]
  decide

end CommandLine
end ByteLexer

import ByteLexer.Command.Run

/-!
# The command line of a host

A source that is there and may not be read is refused before it is opened. On a file system the
command line keeps what a command relies on: the first text opens the output file, the texts behind
it only lengthen what is written there, and the close writes it.
-/

namespace ByteLexer

variable {σ φ : Type} {fs : FileSystem σ φ} {input : List UInt8} {s : σ}

def Sink.IsOpen : Sink φ → Prop
  | .unopened _ => False
  | _ => True

private theorem Request.exists_ofArguments_unreadable (a : Arguments)
    (environment : Option String) : ∃ halt, ofArguments a environment true = .error halt := by
  unfold ofArguments
  by_cases hhelp : a.help = true
  · exact ⟨.help, by rw [hhelp]; rfl⟩
  · rw [Bool.not_eq_true] at hhelp
    rw [hhelp]
    cases hlevel : a.level.mapM levelOf with
    | error halt => exact ⟨halt, rfl⟩
    | ok given =>
      by_cases hnul : a.source.toList.contains '\x00' = true
      · exact ⟨.unusableName, by rw [hnul]; rfl⟩
      · rw [Bool.not_eq_true] at hnul
        exact ⟨.refused .unreadable, by rw [hnul]; rfl⟩

namespace CommandLine

/-- A source that is there and may not be read ends the run before it begins. -/
theorem accept_ne_ok_of_unreadable {host : Host (StateM σ) φ} {arguments : List String}
    {a : Arguments} (hparse : Arguments.empty.parse arguments = .ok a) (hsource : a.source ≠ "-")
    (hunreadable : ((host.unreadable a.source).run s).1 = true) (environment : Option String)
    (r : Request) : (((ofHost host).accept arguments environment).run s).1 ≠ .ok r := by
  obtain ⟨halt, hhalt⟩ := Request.exists_ofArguments_unreadable a environment
  simp only [ofHost, hparse, if_neg hsource, StateT.run_bind]
  intro haccept
  have hresult : (Request.ofArguments a environment
    ((host.unreadable a.source).run s).1).mapError Halt.report = .ok r := haccept
  rw [hunreadable, hhalt] at hresult
  cases hresult

private theorem output_ofHost_of_ne {name : String} (hname : name ≠ "-") :
    (ofHost (fs.host input)).output name = ⟨.unopened name, ""⟩ := by
  have hsink : (if name = "-" then Sink.standard else .unopened name : Sink φ) = .unopened name :=
    if_neg hname
  exact congrArg (Output.mk · "") hsink

private theorem write_of_isOpen {sink : Sink φ} (h : sink.IsOpen) (old text : String) :
    ((ofHost (fs.host input)).write ⟨sink, old⟩ text).run s = (.ok ⟨sink, old ++ text⟩, s) := by
  cases sink with
  | standard => rfl
  | unopened path => exact h.elim
  | opened file => rfl

private theorem write_of_create {path : String} {opened : σ} {file : φ}
    (h : fs.create s path = .ok (file, opened)) (text : String) :
    ((ofHost (fs.host input)).write ⟨.unopened path, ""⟩ text).run s =
      (.ok ⟨.opened file, text⟩, opened) := by
  simp only [ofHost, Output.write, FileSystem.host, StateT.run_bind, StateT.run_get, pure_bind, h,
    String.empty_append]
  rfl

private theorem write_of_create_error {path : String} {fault : Fault}
    (h : fs.create s path = .error fault) (text : String) :
    ((ofHost (fs.host input)).write ⟨.unopened path, ""⟩ text).run s =
      (.error (Command.outputFailure path fault), s) := by
  simp only [ofHost, Output.write, FileSystem.host, StateT.run_bind, StateT.run_get, pure_bind, h]
  rfl

private theorem writeAll_of_isOpen {sink : Sink φ} (h : sink.IsOpen) (old : String)
    (texts : List String) : ((ofHost (fs.host input)).writeAll ⟨sink, old⟩ texts).run s =
      (.ok ⟨sink, old ++ String.join texts⟩, s) := by
  induction texts generalizing old with
  | nil =>
    rw [String.join_nil, String.append_empty]
    rfl
  | cons text texts ih =>
    rw [writeAll, StateT.run_bind, write_of_isOpen h, String.join_cons, ← String.append_assoc]
    exact ih (old ++ text)

private theorem deliver_of_writeAll {name : String} {texts : List String} {o : Output φ}
    {files : σ} (h : ((ofHost (fs.host input)).writeAll ((ofHost (fs.host input)).output name)
      texts).run s = (.ok o, files)) :
    ((ofHost (fs.host input)).deliver name texts).run s =
      (.ok ((o.close (fs.host input)).run files).1, ((o.close (fs.host input)).run files).2) := by
  rw [deliver, StateT.run_bind, h]
  rfl

theorem lawful_ofHost (fs : FileSystem σ φ) (input : List UInt8) :
    (ofHost (fs.host input)).Lawful fs where
  accept_files arguments environment s := by
    simp only [ofHost]
    split
    · rfl
    · split <;> rfl
  failure_exitCode _ := rfl
  failure_stdout _ := rfl
  deliver_standard texts s := by
    have hopen : Sink.IsOpen (.standard : Sink φ) := trivial
    have hall : ((ofHost (fs.host input)).writeAll ((ofHost (fs.host input)).output "-")
        texts).run s = (.ok ⟨.standard, "" ++ String.join texts⟩, s) :=
      writeAll_of_isOpen hopen "" texts
    rw [deliver_of_writeAll hall, String.empty_append]
    rfl
  deliver_nil name s := by
    rw [deliver_of_writeAll (o := (ofHost (fs.host input)).output name) rfl]
    by_cases hname : name = "-"
    · rw [hname]
      rfl
    · rw [output_ofHost_of_ne hname]
      rfl
  deliver_of_create {name} hname {s opened file} hcreate text texts := by
    have hopen : Sink.IsOpen (.opened file) := trivial
    have hall : ((ofHost (fs.host input)).writeAll ((ofHost (fs.host input)).output name)
        (text :: texts)).run s = (.ok ⟨.opened file, String.join (text :: texts)⟩, opened) := by
      rw [output_ofHost_of_ne hname, writeAll, StateT.run_bind, write_of_create hcreate,
        String.join_cons]
      exact writeAll_of_isOpen hopen text texts
    rw [deliver_of_writeAll hall]
    rfl
  deliver_of_error {name} hname {s fault} hcreate text texts := by
    refine ⟨Command.outputFailure name fault, ?_, ?_, ?_⟩
    · rw [deliver, output_ofHost_of_ne hname, writeAll, StateT.run_bind, StateT.run_bind,
        write_of_create_error hcreate]
      rfl
    · cases fault <;> rfl
    · cases fault <;> rfl

end CommandLine
end ByteLexer

import ImpAsm.Proofs.Command.Files
import ImpAsm.Proofs.Command.Reports

namespace ImpAsm

namespace Traced

variable {α β : Type} {t : Traced α}

theorem andThen_error {e : CompileError} (h : t.result = .error e) (f : α → Traced β) :
    (t.andThen f).result = .error e := by
  simp [andThen, h]

theorem andThen_ok {a : α} (h : t.result = .ok a) (f : α → Traced β) :
    (t.andThen f).result = (f a).result := by
  simp [andThen, h]

end Traced

/-- An error that a dump meets is the one that compiling meets. -/
theorem compile_of_dumpEntries {o : Options} {s : String} {e : CompileError}
    (h : (dumpEntries o s).2 = some e) : compile s = .error e := by
  unfold dumpEntries at h
  split at h
  · cases ht : (tokenizeTraced s).result with
    | error e' =>
      obtain rfl : e' = e := by simpa [ht] using h
      exact Traced.andThen_error ht _
    | ok tokens =>
      simp only [ht] at h
      rw [compile, compileTraced, Traced.andThen_ok ht]
      split at h
      · cases hp : (parseTraced tokens).result with
        | error e' =>
          obtain rfl : e' = e := by simpa [hp] using h
          exact Traced.andThen_error hp _
        | ok p => simp [hp] at h
      · simp at h
  · simp at h

/-- The flags decide what a compilation shows, and not how it ends. -/
theorem compileEntries_result (o : Options) (s : String) : (compileEntries o s).2 = compile s := by
  unfold compileEntries
  cases h : dumpEntries o s with
  | mk shown fault =>
    cases fault with
    | none => rfl
    | some e => exact (compile_of_dumpEntries (by rw [h])).symm

variable {σ File : Type} {ui : Interface} {fs : FileSystem (StateM σ)} {args : List String}
  {o : Options} {s s' : σ} {text : String}

/-- How a run that compiles `text` goes on, with everything it has shown before. The flags have a
say only in what is shown. -/
theorem run_compile (hargs : ui.request args = .compile o)
    (hread : (fs.source o.input).run s = (.ok text, s')) :
    ∃ shown, (runCommand ui fs args).run s =
      match compile (String.ofList (trimEnd text.toList)) with
      | .error e => (⟨1, "", shown ++ ui.report ("compiling " ++ o.input) e.message⟩, s')
      | .ok asm =>
        match (fs.write o.output asm).run s' with
        | (.error reason, s'') =>
          (⟨1, "", shown ++ ui.report ("writing " ++ o.output) reason⟩, s'')
        | (.ok (), s'') =>
          (⟨0, "", shown ++ (Entry.event (.written o.output)).text o.level⟩, s'') := by
  refine ⟨entriesText o.level (compileEntries o (String.ofList (trimEnd text.toList))).1, ?_⟩
  rw [← compileEntries_result o, runCommand, hargs]
  rw [FileSystem.source] at hread
  -- the two ways to read the input go on in the same way
  by_cases hinput : o.input = "-"
  all_goals
    simp only [hinput, if_true, if_false] at hread ⊢
    rw [run_bind_of hread]
    simp only
    cases (compileEntries o (String.ofList (trimEnd text.toList))).2 with
    | error e => rfl
    | ok asm =>
      obtain ⟨r, s'', hwrite⟩ : ∃ r s'', (fs.write o.output asm).run s' = (r, s'') := ⟨_, _, rfl⟩
      simp only [run_bind_of hwrite, hwrite]
      cases r <;> rfl

theorem run_of_ok {asm : String} (hargs : ui.request args = .compile o)
    (hread : (fs.source o.input).run s = (.ok text, s'))
    (hcompile : compile (String.ofList (trimEnd text.toList)) = .ok asm)
    (hwrite : ((fs.write o.output asm).run s').1 = .ok ()) :
    ((runCommand ui fs args).run s).1.status = 0 ∧
      ((runCommand ui fs args).run s).2 = ((fs.write o.output asm).run s').2 := by
  obtain ⟨shown, hrun⟩ := run_compile hargs hread
  rw [hrun, hcompile]
  simp only
  generalize (fs.write o.output asm).run s' = r at hwrite ⊢
  obtain ⟨r, s''⟩ := r
  obtain rfl : r = .ok () := hwrite
  exact ⟨rfl, rfl⟩

theorem run_of_error {e : CompileError} (hargs : ui.request args = .compile o)
    (hread : (fs.source o.input).run s = (.ok text, s'))
    (hcompile : compile (String.ofList (trimEnd text.toList)) = .error e) :
    ((runCommand ui fs args).run s).1.status = 1 ∧ ((runCommand ui fs args).run s).2 = s' ∧
      ∃ shown, ((runCommand ui fs args).run s).1.errors =
        shown ++ ui.report ("compiling " ++ o.input) e.message := by
  obtain ⟨shown, hrun⟩ := run_compile hargs hread
  rw [hrun, hcompile]
  exact ⟨rfl, rfl, shown, rfl⟩

/-- A run is all or nothing, and its flags only show. With input that can be read and output that
can be written, a text that compiles ends in success with its assembly in the output file and all
other files as they were; a text that does not compile ends in failure with all files as they were,
and the last words name what was compiled and are the lines of the error of the compilation, each
behind the margin of a report, also if a dump has met the error before. Commands with the same input
and output have the same status, leave the same files behind and end in the same words about the
error. -/
theorem run_all_or_nothing {layout : ReportLayout} {file : String → File}
    {contents : σ → File → Option String} (hui : ui.Lawful layout) (hfs : fs.Lawful file contents)
    (hargs : ui.request args = .compile o) (hread : (fs.source o.input).run s = (.ok text, s'))
    (hwrite : ∀ asm, compile (String.ofList (trimEnd text.toList)) = .ok asm →
      ((fs.write o.output asm).run s').1 = .ok ()) :
    let t := String.ofList (trimEnd text.toList)
    let run := (runCommand ui fs args).run s
    (∀ asm, compile t = .ok asm → run.1.status = 0 ∧ contents run.2 (file o.output) = some asm ∧
      ∀ f ≠ file o.output, contents run.2 f = contents s f) ∧
    (∀ e, compile t = .error e → run.1.status = 1 ∧ (∀ f, contents run.2 f = contents s f) ∧
      ∃ shown last, run.1.errors = shown ++ last ∧
        layout.Describes ("compiling " ++ o.input) e.message last) ∧
    ∀ args' o', ui.request args' = .compile o' → o'.input = o.input → o'.output = o.output →
      let run' := (runCommand ui fs args').run s
      run'.1.status = run.1.status ∧ run'.2 = run.2 ∧
        ∀ e, compile t = .error e → ∃ shown shown' last, run.1.errors = shown ++ last ∧
          run'.1.errors = shown' ++ last ∧
          layout.Describes ("compiling " ++ o.input) e.message last := by
  intro t run
  have hkept : contents s' = contents s := by
    have hsource := hfs.source o.input s
    rwa [hread] at hsource
  refine ⟨?_, ?_, ?_⟩
  · intro asm hcompile
    obtain ⟨hstatus, hstate⟩ := run_of_ok hargs hread hcompile (hwrite asm hcompile)
    refine ⟨hstatus, ?_, ?_⟩
    · rw [hstate]
      exact hfs.written o.output asm s' (hwrite asm hcompile)
    · intro f hf
      rw [hstate, hfs.kept o.output asm s' (hwrite asm hcompile) f hf, hkept]
  · intro e hcompile
    obtain ⟨hstatus, hstate, shown, hshown⟩ := run_of_error hargs hread hcompile
    refine ⟨hstatus, ?_, shown, _, hshown, hui.report _ _⟩
    intro f
    rw [hstate, hkept]
  · intro args' o' hargs' hinput houtput run'
    have hread' : (fs.source o'.input).run s = (.ok text, s') := hinput ▸ hread
    cases hcompile : compile t with
    | ok asm =>
      have hwritten : ((fs.write o.output asm).run s').1 = .ok () := hwrite asm hcompile
      have hwritten' : ((fs.write o'.output asm).run s').1 = .ok () := houtput ▸ hwritten
      obtain ⟨hstatus, hstate⟩ := run_of_ok hargs hread hcompile hwritten
      obtain ⟨hstatus', hstate'⟩ := run_of_ok hargs' hread' hcompile hwritten'
      refine ⟨hstatus'.trans hstatus.symm, ?_, by simp⟩
      rw [houtput] at hstate'
      exact hstate'.trans hstate.symm
    | error e =>
      obtain ⟨hstatus, hstate, shown, hshown⟩ := run_of_error hargs hread hcompile
      obtain ⟨hstatus', hstate', shown', hshown'⟩ := run_of_error hargs' hread' hcompile
      refine ⟨hstatus'.trans hstatus.symm, hstate'.trans hstate.symm, ?_⟩
      rintro _ ⟨⟩
      rw [hinput] at hshown'
      exact ⟨shown, shown', _, hshown, hshown', hui.report _ _⟩

/-- A directory with one file, in which a text of two lines stands where an expression is due. -/
def brokenText : Directory := ⟨[("a", "exit(\"x\ny\");\n")]⟩

def brokenTextError : CompileError :=
  .syntactic ⟨⟨.str, "x\ny", ⟨5, 1, 6⟩⟩, .expectedExpression⟩

theorem compile_brokenText :
    compile (String.ofList (trimEnd "exit(\"x\ny\");\n".toList)) = .error brokenTextError := by
  cbv

theorem source_brokenText : ((Directory.fileSystem "").source "a").run brokenText =
    (.ok "exit(\"x\ny\");\n", brokenText) := by
  cbv

theorem run_brokenText :
    let run := runIn brokenText "" ["--dump-ast", "-ob", "a"]
    run.1.status = 1 ∧ (∀ f, run.2.contents f = brokenText.contents f) ∧
      (∃ shown last, run.1.errors = shown ++ last ∧
        ReportLayout.terminal.Describes "compiling a" brokenTextError.message last) ∧
      (runIn brokenText "" ["-vvv", "a", "-ob"]).1.status = 1 := by
  have hargs : Interface.terminal.request ["--dump-ast", "-ob", "a"] =
      .compile ⟨"a", "b", false, true, 0⟩ := by decide
  have hargs' : Interface.terminal.request ["-vvv", "a", "-ob"] =
      .compile ⟨"a", "b", false, false, 3⟩ := by decide
  have hfile : Directory.fileName? "b" = some "b" := by cbv
  have hwrite (asm : String) :
      (((Directory.fileSystem "").write "b" asm).run brokenText).1 = .ok () := by
    rw [Directory.run_write, hfile]
  have hrun := run_all_or_nothing Interface.lawful_terminal (Directory.lawful_fileSystem "") hargs
    source_brokenText fun asm _ => hwrite asm
  obtain ⟨hstatus, hfiles, herrors⟩ := hrun.2.1 _ compile_brokenText
  exact ⟨hstatus, hfiles, herrors, (hrun.2.2 _ _ hargs' rfl rfl).1.trans hstatus⟩

/-- Of two ends of a text the shorter one is an end of the longer one. -/
theorem suffix_of_append_eq {a b c d : String} (h : a ++ b = c ++ d)
    (hlen : b.toList.length ≤ d.toList.length) : b.toList <:+ d.toList := by
  have htext : a.toList ++ b.toList = c.toList ++ d.toList := by
    rw [← String.toList_append, h, String.toList_append]
  exact List.suffix_of_suffix_length_le ⟨a.toList, htext⟩ ⟨c.toList, rfl⟩ hlen

/-- What a run prints does not end in the message of its error if that has two lines, since the
second one stands behind the margin. -/
theorem errors_brokenText :
    compile (String.ofList (trimEnd "exit(\"x\ny\");\n".toList)) = .error brokenTextError ∧
      ∀ before, (runIn brokenText "" ["a"]).1.errors ≠ before ++ brokenTextError.message ∧
        (runIn brokenText "" ["a"]).1.errors ≠ before ++ (brokenTextError.message ++ "\n") := by
  have hargs : Interface.terminal.request ["a"] =
      .compile ⟨"a", "output.asm", false, false, 0⟩ := by decide
  have hmessage : brokenTextError.message =
      "syntax error at 1:6 near `\"x\ny\"`: expected an expression" := rfl
  have hreport : Interface.terminal.report "compiling a" brokenTextError.message =
      "Error: compiling a\n\nCaused by:\n" ++
        "    syntax error at 1:6 near `\"x\n    y\"`: expected an expression\n" := rfl
  obtain ⟨_, _, shown, hshown⟩ := run_of_error hargs source_brokenText compile_brokenText
  have herrors : (runIn brokenText "" ["a"]).1.errors = shown ++ _ :=
    hshown.trans (congrArg (shown ++ ·) hreport)
  refine ⟨compile_brokenText, ?_⟩
  intro before
  rw [herrors, hmessage]
  constructor
  · intro h
    exact absurd (suffix_of_append_eq h.symm (by decide)) (by decide)
  · intro h
    exact absurd (suffix_of_append_eq h.symm (by decide)) (by decide)

end ImpAsm

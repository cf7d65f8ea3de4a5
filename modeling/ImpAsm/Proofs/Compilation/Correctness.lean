import ImpAsm.Compilation
import ImpAsm.Proofs.Assembly.Generated
import ImpAsm.Proofs.Machine.Behaviour

namespace ImpAsm

theorem tokenizeTraced_result (s : String) : (tokenizeTraced s).result = tokenize s := by
  rw [tokenizeTraced, tokenize]
  split
  · next h => exact h.symm
  · next h => exact h.symm

/-- Compilation is scanning, parsing and generation, and then the text. -/
theorem compile_eq_ok {s asm : String} : compile s = .ok asm ↔
    ∃ ts p a, tokenize s = .ok ts ∧ parse ts = .ok p ∧ (generate p).assembly = .ok a ∧
      asm = a.text := by
  rw [compile, compileTraced, Traced.andThen, tokenizeTraced_result]
  cases hts : tokenize s with
  | error e => simp
  | ok ts =>
    simp only [Traced.andThen]
    cases hp : (parseTraced ts).result with
    | error e => simp [parse, hp]
    | ok p =>
      simp only [generateTraced]
      cases ha : (generate p).assembly with
      | error e => simp [parse, hp, ha]
      | ok a => simp [parse, hp, ha, eq_comm]

/-- Below four gibibytes a printed text is written whole. -/
theorem printedBytes_eq {text : String} (h : text.utf8ByteSize + 1 < 2 ^ 32) :
    printedBytes text = text.toUTF8.data.toList ++ [10] := by
  have hlength : (text.toUTF8.data.toList ++ [10]).length = text.utf8ByteSize + 1 := by
    rw [List.length_append]
    rfl
  rw [printedBytes, Nat.mod_eq_of_lt h, ← hlength, List.take_length]

/-- The text of a compiled program is loaded, and whatever is in the registers and on the stack at
the start and whatever the called functions do, the machine behaves like the program. -/
theorem compile_sameBehaviour {s asm : String} (h : compile s = .ok asm) :
    ∃ ts p img, tokenize s = .ok ts ∧ parse ts = .ok p ∧ Image.ofText? asm = some img ∧
      (∀ callee regs stack flags,
        SameBehaviour (fun n => runFor (State.step img callee) n (img.start regs stack flags))
          (fun n => runFor Config.step n (.start p)) (Agree p.vars)
          (fun s c => List.Forall₂ SameEffect s.trace c.trace)) ∧
      ∀ text : String, text.utf8ByteSize + 1 < 2 ^ 32 →
        printedBytes text = text.toUTF8.data.toList ++ [10] := by
  obtain ⟨ts, p, a, hts, hp, ha, rfl⟩ := compile_eq_ok.mp h
  have hplain := plain_generate ha (isWord_names hts hp)
  refine ⟨ts, p, a.image, hts, hp, Assembly.ofText?_text hplain, ?_, fun _ => printedBytes_eq⟩
  intro callee regs stack flags
  exact sameBehaviour_generate ha callee regs stack flags

/-- A loop of calls, a text outside ASCII, and a division by zero. -/
def countdown : String :=
  "let n = 2; while (n) \x7b call f(n, n / 2); assign n = n - 1; \x7d print(\"é\"); exit(7 / n);"

def countdownProgram : Program :=
  [.declare "n" (.num 2),
    .loop (.ident "n") [.call "f" [.ident "n", .binary .div (.ident "n") (.num 2)],
      .assign "n" (.binary .sub (.ident "n") (.num 1))],
    .printText "é", .exit (.binary .div (.num 7) (.ident "n"))]

theorem compile_countdown :
    ∃ asm img, compile countdown = .ok asm ∧ Image.ofText? asm = some img ∧
      ∀ callee regs stack flags, ∃ n s,
        runFor (State.step img callee) n (img.start regs stack flags) = .ended .divideError s ∧
        List.Forall₂ SameEffect s.trace
          [.called "f" [2, 1], .called "f" [1, 0], .wrote [195, 169, 10]] := by
  obtain ⟨ts, hts, hp⟩ :
      ∃ ts, tokenize countdown = .ok ts ∧ parse ts = .ok countdownProgram := ⟨_, by cbv, by cbv⟩
  have ha : (generate countdownProgram).assembly = .ok _ := rfl
  have hasm := compile_eq_ok.mpr ⟨ts, countdownProgram, _, hts, hp, ha, rfl⟩
  obtain ⟨ts', p, img, hts', hp', himg, hsame, _⟩ := compile_sameBehaviour hasm
  obtain rfl : ts = ts' := by simpa [hts] using hts'
  obtain rfl : countdownProgram = p := by simpa [hp] using hp'
  refine ⟨_, img, hasm, himg, ?_⟩
  intro callee regs stack flags
  have hrun : runFor Config.step 12 (.start countdownProgram) = .ended .divideError _ := rfl
  obtain ⟨n, s, hn, hagree⟩ := (hsame callee regs stack flags).ends_of_ref 12 _ _ hrun
  exact ⟨n, s, hn, hagree.trace⟩

end ImpAsm

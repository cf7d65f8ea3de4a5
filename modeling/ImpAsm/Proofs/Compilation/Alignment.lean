import ImpAsm.Proofs.Compilation.Correctness
import ImpAsm.Proofs.Machine.Balance

namespace ImpAsm

namespace State

/-- The address of the top of the stack, if the stack grows downwards from the address `base`. -/
def stackPointer (base : UInt64) (s : State) : UInt64 := base - 8 * UInt64.ofNat s.stack.length

/-- The stack pointer is a multiple of 16. -/
def Aligned (base : UInt64) (s : State) : Prop := (s.stackPointer base).toNat % 16 = 0

/-- An even number of values on top of an aligned stack leaves it aligned, and an odd number does
not. -/
theorem aligned_iff_even {base : UInt64} {s t : State} {new : List Value} (hs : s.Aligned base)
    (ht : t.stack = new ++ s.stack) : t.Aligned base ↔ Even new.length := by
  have hlength : t.stack.length = new.length + s.stack.length := by rw [ht, List.length_append]
  simp only [Aligned, stackPointer, UInt64.toNat_sub, UInt64.toNat_mul, UInt64.toNat_ofNat',
    hlength, Nat.even_iff] at hs ⊢
  have hbase := base.toNat_lt
  change (2 ^ 64 - 8 * (s.stack.length % 2 ^ 64) % 2 ^ 64 + base.toNat) % 2 ^ 64 % 16 = 0 at hs
  change (2 ^ 64 - 8 * ((new.length + s.stack.length) % 2 ^ 64) % 2 ^ 64 +
    base.toNat) % 2 ^ 64 % 16 = 0 ↔ _
  omega

end State

/-- In every run that starts with an aligned stack, a call that is about to be made belongs to the
code of a call statement, and the number of its arguments decides whether the stack is aligned. -/
theorem aligned_at_call {p : Program} {a : Assembly} (ha : (generate p).assembly = .ok a)
    {callee : Callee} {regs : Registers} {stack : List Value} {flags : Int × Int} {base : UInt64}
    {n : Nat} {t : State} {f : String} {rest : List Item}
    (haligned : (a.image.start regs stack flags).Aligned base)
    (hrun : runFor (State.step a.image callee) n (a.image.start regs stack flags) = .running t)
    (hrest : t.rest = .instr (.call f) :: rest) :
    ∃ args front back, (f, args) ∈ stmtsCalls p ∧
      a.image.code = front ++ ((callCode f args).map .instr ++ back) ∧
      rest = (State.afterCall args).map .instr ++ back ∧
      (t.Aligned base ↔ args.length ≤ 6 ∨ Even args.length) := by
  have hbalanced := balanced_image ha
  obtain ⟨before, new, hcode, hheight, hstack⟩ :=
    (onTop_start a hbalanced.height regs stack flags).runFor hbalanced.height hrun
  rw [hrest] at hcode
  obtain ⟨args, front, back, hmem, rfl, rfl, hfront⟩ := hbalanced.call hcode
  have hlength : new.length = 4 + (args.length - 6) := by
    rw [height?, foldlM_append_of_eq_some hfront,
      foldlM_heightAfter?_instrs (State.isStraight_beforeCall args),
      heightAfter?_beforeCall] at hheight
    exact (Option.some.inj hheight).symm
  refine ⟨args, front, back, hmem, ?_, rfl, ?_⟩
  · rw [hcode, State.callCode_eq]
    simp
  · rw [State.aligned_iff_even haligned hstack, hlength, Nat.even_iff, Nat.even_iff]
    omega

/-- Whether the stack is aligned at a call is decided by the number of arguments alone. In every run
of a compiled program that starts with an aligned stack, every call that is about to be made belongs
to the code of a call statement of the program, and the stack is aligned there exactly if the
statement has at most six arguments or an even number of them. -/
theorem compile_callAlignment {s asm : String} (h : compile s = .ok asm) :
    ∃ ts p img, tokenize s = .ok ts ∧ parse ts = .ok p ∧ Image.ofText? asm = some img ∧
      ∀ (callee : Callee) (regs : Registers) (stack : List Value) (flags : Int × Int)
        (base : UInt64) (n : Nat)
        (t : State) (f : String) (rest : List Item), (img.start regs stack flags).Aligned base →
        runFor (State.step img callee) n (img.start regs stack flags) = .running t →
        t.rest = .instr (.call f) :: rest →
        ∃ args front back, (f, args) ∈ stmtsCalls p ∧
          img.code = front ++ ((callCode f args).map .instr ++ back) ∧
          rest = (State.afterCall args).map .instr ++ back ∧
          (t.Aligned base ↔ args.length ≤ 6 ∨ Even args.length) := by
  obtain ⟨ts, p, a, hts, hp, ha, rfl⟩ := compile_eq_ok.mp h
  have hplain := plain_generate ha (isWord_names hts hp)
  refine ⟨ts, p, a.image, hts, hp, Assembly.ofText?_text hplain, ?_⟩
  intro callee regs stack flags base n t f rest haligned hrun hrest
  exact aligned_at_call ha haligned hrun hrest

/-- What a program is compiled to that makes one call. -/
def callAssembly (f : String) (args : List Expr) : Assembly :=
  ⟨[f], (callCode f args).map .instr ++ programEnd, .empty, .empty⟩

theorem aligned_start (img : Image) (regs : Registers) (flags : Int × Int) :
    (img.start regs [] flags).Aligned 0x7FFFFFFFE000 := by
  change ((0x7FFFFFFFE000 : UInt64) - 8 * UInt64.ofNat 0).toNat % 16 = 0
  decide

/-- Eight arguments, the last one of which is computed on the stack. -/
def eightArguments : List Expr :=
  [.num 1, .num 2, .num 3, .num 4, .num 5, .num 6, .num 7, .binary .mul (.num 2) (.num 4)]

theorem aligned_eightArguments :
    ∃ asm img, compile "call f(1, 2, 3, 4, 5, 6, 7, 2 * 4);" = .ok asm ∧
      Image.ofText? asm = some img ∧
      ∀ (callee : Callee) (regs : Registers) (flags : Int × Int), ∃ n t rest,
        (img.start regs [] flags).Aligned 0x7FFFFFFFE000 ∧
        runFor (State.step img callee) n (img.start regs [] flags) = .running t ∧
        t.rest = .instr (.call "f") :: rest ∧ t.Aligned 0x7FFFFFFFE000 := by
  obtain ⟨ts, hts, hp⟩ : ∃ ts, tokenize "call f(1, 2, 3, 4, 5, 6, 7, 2 * 4);" = .ok ts ∧
      parse ts = .ok [.call "f" eightArguments] := ⟨_, by cbv, by cbv⟩
  have ha :
      (generate [.call "f" eightArguments]).assembly = .ok (callAssembly "f" eightArguments) := rfl
  have hasm := compile_eq_ok.mpr ⟨ts, _, _, hts, hp, ha, rfl⟩
  obtain ⟨ts', p, img, hts', hp', himg, hcalls⟩ := compile_callAlignment hasm
  obtain rfl : ts = ts' := by simpa [hts] using hts'
  obtain rfl : [.call "f" eightArguments] = p := by simpa [hp] using hp'
  have hloaded := Assembly.ofText?_text (plain_generate ha (isWord_names hts hp))
  obtain rfl := Option.some.inj (hloaded.symm.trans himg)
  refine ⟨_, _, hasm, himg, ?_⟩
  intro callee regs flags
  have haligned := aligned_start (callAssembly "f" eightArguments).image regs flags
  obtain ⟨t, rest, hrun, hrest⟩ : ∃ t rest,
      runFor (State.step (callAssembly "f" eightArguments).image callee) 30
      ((callAssembly "f" eightArguments).image.start regs [] flags) = .running t ∧
        t.rest = .instr (.call "f") :: rest := ⟨_, _, rfl, rfl⟩
  obtain ⟨args, _, _, hmem, _, _, hiff⟩ :=
    hcalls callee regs [] flags _ 30 t "f" rest haligned hrun hrest
  obtain rfl : args = eightArguments := by simpa [stmtsCalls, Stmt.calls] using hmem
  exact ⟨30, t, rest, haligned, hrun, hrest, hiff.mpr (.inr (by decide))⟩

/-- Seven arguments, the last one of which stays on the stack. -/
def literalArguments : List Expr := [.num 1, .num 2, .num 3, .num 4, .num 5, .num 6, .num 7]

theorem misaligned_literalArguments :
    ∃ asm img, compile "call f(1, 2, 3, 4, 5, 6, 7);" = .ok asm ∧ Image.ofText? asm = some img ∧
      ∀ (callee : Callee) (regs : Registers) (flags : Int × Int), ∃ n t rest,
        (img.start regs [] flags).Aligned 0x7FFFFFFFE000 ∧
        runFor (State.step img callee) n (img.start regs [] flags) = .running t ∧
        t.rest = .instr (.call "f") :: rest ∧ ¬ t.Aligned 0x7FFFFFFFE000 := by
  obtain ⟨ts, hts, hp⟩ : ∃ ts, tokenize "call f(1, 2, 3, 4, 5, 6, 7);" = .ok ts ∧
      parse ts = .ok [.call "f" literalArguments] := ⟨_, by cbv, by cbv⟩
  have ha :
      (generate [.call "f" literalArguments]).assembly = .ok (callAssembly "f" literalArguments) :=
    rfl
  refine ⟨_, _, compile_eq_ok.mpr ⟨ts, _, _, hts, hp, ha, rfl⟩,
    Assembly.ofText?_text (plain_generate ha (isWord_names hts hp)), ?_⟩
  intro callee regs flags
  have haligned := aligned_start (callAssembly "f" literalArguments).image regs flags
  obtain ⟨t, rest, hrun, hrest⟩ : ∃ t rest,
      runFor (State.step (callAssembly "f" literalArguments).image callee) 24
      ((callAssembly "f" literalArguments).image.start regs [] flags) = .running t ∧
        t.rest = .instr (.call "f") :: rest := ⟨_, _, rfl, rfl⟩
  obtain ⟨args, _, _, hmem, _, _, hiff⟩ := aligned_at_call ha haligned hrun hrest
  obtain rfl : args = literalArguments := by simpa [stmtsCalls, Stmt.calls] using hmem
  exact ⟨24, t, rest, haligned, hrun, hrest, fun h => absurd (hiff.mp h) (by decide)⟩

end ImpAsm

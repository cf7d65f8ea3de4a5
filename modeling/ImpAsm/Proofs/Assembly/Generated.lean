import ImpAsm.Generation
import ImpAsm.Proofs.Assembly.Loading
import ImpAsm.Proofs.Stmt.Names

namespace ImpAsm

theorem Instr.plain_of_isLocal {i : Instr} (h : i.isLocal) : i.Plain := by
  revert h
  cases i <;> simp [Instr.isLocal, Instr.Plain]

theorem plain_code {e : Expr} (h : ∀ x ∈ e.names, IsWord x) : ∀ i ∈ e.code, i.Plain := by
  intro i hi
  rcases mem_code i hi with hlocal | ⟨x, hx, rfl⟩
  · exact Instr.plain_of_isLocal hlocal
  · exact h x hx

theorem plain_callCode {f : String} {args : List Expr} (hf : IsWord f)
    (hargs : ∀ x ∈ args.flatMap Expr.names, IsWord x) : ∀ i ∈ callCode f args, i.Plain := by
  intro i hi
  rcases mem_callCode i hi with hlocal | ⟨x, hx, rfl⟩ | rfl
  · exact Instr.plain_of_isLocal hlocal
  · exact hargs x hx
  · exact hf

/-- All lines are plain. -/
def PlainLines (ls : List Line) : Prop := ∀ l ∈ ls, l.Plain

theorem PlainLines.append {ls ms : List Line} (h : PlainLines ls) (h' : PlainLines ms) :
    PlainLines (ls ++ ms) := by
  intro l hl
  rcases List.mem_append.mp hl with hl | hl
  · exact h l hl
  · exact h' l hl

theorem plainLines_instrs {is : List Instr} (h : ∀ i ∈ is, i.Plain) :
    PlainLines (is.map .instr) := by
  intro l hl
  obtain ⟨i, hi, rfl⟩ := List.mem_map.mp hl
  exact h i hi

theorem plainLines_cons {l : Line} {ls : List Line} (hl : l.Plain) (h : PlainLines ls) :
    PlainLines (l :: ls) := List.forall_mem_cons.mpr ⟨hl, h⟩

theorem plainLines_nil : PlainLines [] := by simp [PlainLines]

theorem plainLines_print (id : Nat) (text : String) : PlainLines (printCode id text) := by
  have hheading : '\n' ∉ ("print " ++ messageLabel id).toList := by
    rw [String.toList_append, List.mem_append, not_or]
    exact ⟨by decide, (IsPlain.messageLabel id).not_mem (by decide)⟩
  simpa [PlainLines, printCode, Line.Plain, Instr.Plain] using hheading

mutual

/-- The code of a statement with names that are words is plain. -/
theorem Stmt.plainLines_code (messages : Messages) : ∀ (used : Nat) (s : Stmt),
    (∀ x ∈ s.names, IsWord x) → PlainLines (s.code messages used)
  | used, .exit e, h => by
    refine (plainLines_instrs (plain_code h)).append ?_
    simp [PlainLines, Line.Plain, Instr.Plain]
  | used, .printText text, h => plainLines_print _ text
  | used, .printValue e, h => by
    refine (plainLines_instrs (plain_code h)).append ?_
    simp [PlainLines, Line.Plain]
  | used, .declare x e, h | used, .assign x e, h => by
    have hx : (Instr.store x .rax).Plain := h x (by simp [Stmt.names])
    have he : PlainLines (e.code.map .instr) :=
      plainLines_instrs (plain_code fun y hy => h y (by simp [Stmt.names, hy]))
    exact he.append (plainLines_cons hx plainLines_nil)
  | used, .branch e yes no, h => by
    have he : PlainLines (e.code.map .instr) :=
      plainLines_instrs (plain_code fun y hy => h y (by simp [Stmt.names, hy]))
    have hyes :=
      plainLines_blockCode messages (used + 2) yes fun y hy => h y (by simp [Stmt.names, hy])
    have hno := plainLines_elseCode messages (used + 2 + labelCount yes) no
      fun y hy => h y (by simp [Stmt.names, hy])
    have htest :
        PlainLines [.instr (.cmpZero .rax), .instr (.jumpEqual ⟨.otherwise, used + 1⟩)] := by
      simp [PlainLines, Line.Plain, Instr.Plain]
    have hjump : PlainLines [.instr (.jump ⟨.done, used + 2⟩), .label ⟨.otherwise, used + 1⟩] := by
      simp [PlainLines, Line.Plain, Instr.Plain]
    have hdone : PlainLines [.label ⟨.done, used + 2⟩] := plainLines_cons trivial plainLines_nil
    exact ((((he.append htest).append hyes).append hjump).append hno).append hdone
  | used, .loop e body, h => by
    have he : PlainLines (e.code.map .instr) :=
      plainLines_instrs (plain_code fun y hy => h y (by simp [Stmt.names, hy]))
    have hbody :=
      plainLines_blockCode messages (used + 2) body fun y hy => h y (by simp [Stmt.names, hy])
    have hagain : PlainLines [.label ⟨.loop, used + 1⟩] := plainLines_cons trivial plainLines_nil
    have htest : PlainLines [.instr (.cmpZero .rax), .instr (.jumpEqual ⟨.done, used + 2⟩)] := by
      simp [PlainLines, Line.Plain, Instr.Plain]
    have hjump : PlainLines [.instr (.jump ⟨.loop, used + 1⟩), .label ⟨.done, used + 2⟩] := by
      simp [PlainLines, Line.Plain, Instr.Plain]
    exact (((hagain.append he).append htest).append hbody).append hjump
  | used, .call f args, h =>
    plainLines_instrs (plain_callCode (h f (by simp [Stmt.names]))
      fun x hx => h x (by simp only [Stmt.names, List.mem_cons]; exact .inr hx))
  | used, .processor p params body, h => by simp [PlainLines, Stmt.code]

theorem plainLines_blockCode (messages : Messages) : ∀ (used : Nat) (ss : List Stmt),
    (∀ x ∈ stmtsNames ss, IsWord x) → PlainLines (blockCode messages used ss)
  | used, [], _ => by simp [PlainLines, blockCode]
  | used, s :: ss, h =>
    (Stmt.plainLines_code messages used s fun x hx => h x (by simp [stmtsNames, hx])).append
      (plainLines_blockCode messages (used + s.labelCount) ss fun x hx =>
        h x (by simp [stmtsNames, hx]))

theorem plainLines_elseCode (messages : Messages) : ∀ (used : Nat) (no : Option (List Stmt)),
    (∀ x ∈ elseNames no, IsWord x) → PlainLines (elseCode messages used no)
  | used, none, _ => by simp [PlainLines, elseCode]
  | used, some ss, h => plainLines_blockCode messages used ss h

end

theorem plain_generate {p : Program} {a : Assembly} (h : (generate p).assembly = .ok a)
    (hnames : ∀ x ∈ stmtsNames p, IsWord x) : a.Plain := by
  obtain ⟨hexternals, hvars, hcode, _⟩ := generate_eq_ok h
  constructor
  · intro f hf
    exact hnames f (mem_externals (hexternals ▸ hf))
  · rw [hcode]
    have hend : PlainLines programEnd := by simp [PlainLines, programEnd, Line.Plain, Instr.Plain]
    exact (plainLines_blockCode a.messages 0 p hnames).append hend
  · intro v hv
    exact hnames v.1 (mem_slots (hvars ▸ hv))

end ImpAsm

import ImpAsm.Proofs.Machine.Code
import ImpAsm.Proofs.Machine.Straight

namespace ImpAsm

/-- The code of a statement, behind the label that a loop starts with. -/
def Stmt.entry (messages : Messages) (used : Nat) (s : Stmt) : List Item :=
  match s with
  | .loop _ _ => (codeItems (s.code messages used)).tail
  | _ => codeItems (s.code messages used)

section Position

variable (messages : Messages) (code : List Item)

/-- Running some code of a program runs the statements that are left: blocks follow each other, and
between them there are labels, jumps over a block, and jumps back to the start of a loop. -/
inductive Runs : List Item → List Stmt → Prop
  | finish : Runs (codeItems programEnd) []
  | block {used : Nat} {ss todo : List Stmt} {rest : List Item}
      (hcode : codeItems (blockCode messages used ss) ++ rest <:+ code) (hrest : Runs rest todo) :
      Runs (codeItems (blockCode messages used ss) ++ rest) (ss ++ todo)
  | label {name : String} {todo : List Stmt} {rest : List Item} (hrest : Runs rest todo) :
      Runs (.label name :: rest) todo
  | jump {target : Label} {todo : List Stmt} {rest skipped : List Item}
      (hcode : .label target.text :: rest <:+ code) (hrest : Runs rest todo) :
      Runs (.instr (.jump target) :: skipped) todo
  | again {used : Nat} {e : Expr} {body todo : List Stmt} {rest skipped : List Item}
      (hcode : codeItems ((Stmt.loop e body).code messages used) ++ rest <:+ code)
      (hrest : Runs rest todo) :
      Runs (.instr (.jump ⟨.loop, used + 1⟩) :: skipped) (.loop e body :: todo)

/-- The code that is left starts with the first statement that is left. -/
inductive Ready : List Item → List Stmt → Prop
  | finish : Ready (codeItems programEnd) []
  | stmt {used : Nat} {s : Stmt} {todo : List Stmt} {rest : List Item}
      (hcode : codeItems (s.code messages used) ++ rest <:+ code)
      (hrest : Runs messages code rest todo) :
      Ready (s.entry messages used ++ rest) (s :: todo)

end Position

namespace State

variable {img : Image} {callee : Callee} {s : State} {rest : List Item}

theorem advances_label {name : String} (hrest : s.rest = .label name :: rest) :
    Advances (step img callee) s { s with rest } :=
  .of_step (by simp [step, hrest])

theorem advances_jump (hlabels : (itemLabels img.code).Nodup) {target : Label} {skipped : List Item}
    (hrest : s.rest = .instr (.jump target) :: skipped)
    (hcode : .label target.text :: rest <:+ img.code) :
    Advances (step img callee) s { s with rest } := by
  have hat := codeAt?_of_suffix hlabels hcode
  exact .of_step (step_of_exec? hrest (by simp [exec?, hat]))

/-- Only loops start with a label. -/
theorem reaches_entry {messages : Messages} {used : Nat} {st : Stmt}
    (hrest : s.rest = codeItems (st.code messages used) ++ rest) :
    Reaches (step img callee) s { s with rest := st.entry messages used ++ rest } := by
  cases st with
  | loop e body =>
    have hlabel : codeItems ((Stmt.loop e body).code messages used) =
        .label (Label.text ⟨.loop, used + 1⟩) :: (Stmt.loop e body).entry messages used := rfl
    rw [hlabel, List.cons_append] at hrest
    exact (advances_label hrest).reaches
  | _ =>
    simp only [Stmt.entry]
    rw [← hrest]
    exact .refl s

/-- Labels and jumps between statements lead to the next statement. -/
theorem reaches_ready (callee : Callee) (hlabels : (itemLabels img.code).Nodup)
    {messages : Messages} {todo : List Stmt} (hruns : Runs messages img.code rest todo)
    (hrest : s.rest = rest) :
    ∃ rest', Ready messages img.code rest' todo ∧
      Reaches (step img callee) s { s with rest := rest' } := by
  induction hruns generalizing s with
  | finish => exact ⟨_, .finish, hrest ▸ .refl s⟩
  | @block used ss todo rest hcode hruns ih =>
    cases ss with
    | nil => exact ih hrest
    | cons st ss =>
      have hsplit : codeItems (blockCode messages used (st :: ss)) ++ rest =
          codeItems (st.code messages used) ++
            (codeItems (blockCode messages (used + st.labelCount) ss) ++ rest) := by
        rw [blockCode, codeItems_append, List.append_assoc]
      rw [hsplit] at hcode hrest
      have htail := Runs.block ((List.suffix_append _ _).trans hcode) hruns
      exact ⟨_, .stmt hcode htail, reaches_entry hrest⟩
  | @label name todo rest _ ih =>
    obtain ⟨rest', hready, hreach⟩ := ih (s := { s with rest }) rfl
    exact ⟨rest', hready, (advances_label hrest).reaches.trans hreach⟩
  | @jump target todo rest skipped hcode _ ih =>
    obtain ⟨rest', hready, hreach⟩ := ih (s := { s with rest }) rfl
    exact ⟨rest', hready, (advances_jump hlabels hrest hcode).reaches.trans hreach⟩
  | again hcode hruns _ => exact ⟨_, .stmt hcode hruns, (advances_jump hlabels hrest hcode).reaches⟩

end State

end ImpAsm

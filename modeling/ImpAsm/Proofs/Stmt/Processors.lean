import ImpAsm.Proofs.Assembly.Generator

namespace ImpAsm

mutual

/-- What is left of a statement without processors: nothing of a processor, and the statement itself
with its blocks cleared of them otherwise. -/
def Stmt.withoutProcessors : Stmt → List Stmt
  | .processor _ _ _ => []
  | .branch e yes no => [.branch e (withoutProcessors yes) (elseWithoutProcessors no)]
  | .loop e body => [.loop e (withoutProcessors body)]
  | .exit e => [.exit e]
  | .printText text => [.printText text]
  | .printValue e => [.printValue e]
  | .declare x e => [.declare x e]
  | .assign x e => [.assign x e]
  | .call f args => [.call f args]

/-- Statements without the processors among them and in their blocks. -/
def withoutProcessors : List Stmt → List Stmt
  | [] => []
  | s :: ss => s.withoutProcessors ++ withoutProcessors ss

def elseWithoutProcessors : Option (List Stmt) → Option (List Stmt)
  | none => none
  | some ss => some (withoutProcessors ss)

end

section Code

theorem stmtsCodeEvents_append (ss ts : List Stmt) :
    stmtsCodeEvents (ss ++ ts) = stmtsCodeEvents ss ++ stmtsCodeEvents ts := by
  induction ss with
  | nil => rfl
  | cons s ss ih => rw [List.cons_append, stmtsCodeEvents, stmtsCodeEvents, ih, List.append_assoc]

theorem labelCount_append (ss ts : List Stmt) :
    labelCount (ss ++ ts) = labelCount ss + labelCount ts := by
  induction ss with
  | nil => simp [labelCount]
  | cons s ss ih => rw [List.cons_append, labelCount, labelCount, ih, Nat.add_assoc]

theorem blockCode_append (m : Messages) (used : Nat) (ss ts : List Stmt) :
    blockCode m used (ss ++ ts) = blockCode m used ss ++ blockCode m (used + labelCount ss) ts := by
  induction ss generalizing used with
  | nil => rfl
  | cons s ss ih =>
    rw [List.cons_append, blockCode, blockCode, labelCount, ih, List.append_assoc, Nat.add_assoc]

/-- Statements that go through the same events, take the same labels and have the same code. -/
structure SameCode (ss ts : List Stmt) : Prop where
  events : stmtsCodeEvents ss = stmtsCodeEvents ts
  labels : labelCount ss = labelCount ts
  code : ∀ m used, blockCode m used ss = blockCode m used ts

variable {ss ts ss' ts' yes yes' body body' : List Stmt}

theorem SameCode.refl (ss : List Stmt) : SameCode ss ss := ⟨rfl, rfl, fun _ _ => rfl⟩

theorem SameCode.append (h : SameCode ss ts) (h' : SameCode ss' ts') :
    SameCode (ss ++ ss') (ts ++ ts') where
  events := by rw [stmtsCodeEvents_append, stmtsCodeEvents_append, h.events, h'.events]
  labels := by rw [labelCount_append, labelCount_append, h.labels, h'.labels]
  code := by
    intro m used
    rw [blockCode_append, blockCode_append, h.code, h'.code, h.labels]

theorem SameCode.loop (h : SameCode body body') (e : Expr) :
    SameCode [.loop e body] [.loop e body'] where
  events := by simp only [stmtsCodeEvents, Stmt.codeEvents, h.events]
  labels := by simp only [labelCount, Stmt.labelCount, h.labels]
  code := by
    intro m used
    simp only [blockCode, Stmt.code, h.code]

theorem SameCode.branch {no no' : Option (List Stmt)} (h : SameCode yes yes')
    (hevents : elseCodeEvents no = elseCodeEvents no')
    (hlabels : labelCountElse no = labelCountElse no')
    (hcode : ∀ m used, elseCode m used no = elseCode m used no') (e : Expr) :
    SameCode [.branch e yes no] [.branch e yes' no'] where
  events := by simp only [stmtsCodeEvents, Stmt.codeEvents, h.events, hevents]
  labels := by simp only [labelCount, Stmt.labelCount, h.labels, hlabels]
  code := by
    intro m used
    simp only [blockCode, Stmt.code, h.code, h.labels, hcode]

mutual

theorem Stmt.sameCode_withoutProcessors : ∀ s : Stmt, SameCode s.withoutProcessors [s]
  | .processor _ _ _ => ⟨rfl, rfl, fun _ _ => rfl⟩
  | .branch e yes none => (sameCode_withoutProcessors yes).branch rfl rfl (fun _ _ => rfl) e
  | .branch e yes (some no) => by
    have hno := sameCode_withoutProcessors no
    refine (sameCode_withoutProcessors yes).branch ?_ ?_ ?_ e
    · exact hno.events
    · exact hno.labels
    · exact hno.code
  | .loop e body => (sameCode_withoutProcessors body).loop e
  | .exit _ | .printText _ | .printValue _ | .declare _ _ | .assign _ _ | .call _ _ => .refl _

/-- The code of a program is that of its statements which are not processors. -/
theorem sameCode_withoutProcessors : ∀ ss : List Stmt, SameCode (withoutProcessors ss) ss
  | [] => .refl []
  | s :: ss => s.sameCode_withoutProcessors.append (sameCode_withoutProcessors ss)

end

end Code

section Symbols

/-- The symbols `s` are among the symbols `t`, as far as names go. -/
structure Symbols.Within (s t : Symbols) : Prop where
  externals : s.externals ⊆ t.externals
  names : s.vars.names ⊆ t.vars.names

variable {s t u : Symbols}

theorem Symbols.Within.trans (h : s.Within t) (h' : t.Within u) : s.Within u :=
  ⟨List.Subset.trans h.externals h'.externals, List.Subset.trans h.names h'.names⟩

theorem collectAll_append (s : Symbols) (ss ts : List Stmt) :
    collectAll s (ss ++ ts) = collectAll (collectAll s ss) ts := by
  induction ss generalizing s with
  | nil => rfl
  | cons st ss ih => rw [List.cons_append, collectAll, collectAll, ih]

theorem Symbols.within_collectAll (s : Symbols) (ss : List Stmt) : s.Within (collectAll s ss) := by
  refine ⟨(grows_collectAll s ss).subset, ?_⟩
  rw [names_collectAll]
  exact (prefix_foldl_addNew _ _).subset

theorem Symbols.Within.addExternal (h : s.Within t) (f : String) :
    (s.addExternal f).Within (t.addExternal f) := by
  constructor
  · intro g hg
    rw [externals_addExternal, mem_addNew] at hg ⊢
    exact hg.imp_left fun hg => h.externals hg
  · rw [vars_addExternal, vars_addExternal]
    exact h.names

theorem Symbols.Within.declare (h : s.Within t) (x : String) (v w : Int32) :
    Within { s with vars := s.vars.declare x v } { t with vars := t.vars.declare x w } := by
  refine ⟨h.externals, ?_⟩
  intro y hy
  rw [Variables.names_declare, mem_addNew] at hy ⊢
  exact hy.imp_left fun hy => h.names hy

mutual

theorem Stmt.within_withoutProcessors : ∀ {s t : Symbols} (st : Stmt), s.Within t →
    (collectAll s st.withoutProcessors).Within (st.collect t)
  | _, t, .processor _ _ body, h => h.trans (t.within_collectAll body)
  | _, _, .branch _ yes none, h => within_withoutProcessors yes h
  | _, _, .branch _ yes (some no), h => within_withoutProcessors no (within_withoutProcessors yes h)
  | _, _, .loop _ body, h => within_withoutProcessors body h
  | _, _, .declare x _, h => h.declare x _ _
  | _, _, .call f _, h => h.addExternal f
  | _, _, .exit _, h | _, _, .printText _, h | _, _, .printValue _, h | _, _, .assign _ _, h => h

/-- Processors only add symbols. -/
theorem within_withoutProcessors : ∀ {s t : Symbols} (ss : List Stmt), s.Within t →
    (collectAll s (withoutProcessors ss)).Within (collectAll t ss)
  | _, _, [], h => h
  | _, _, st :: ss, h => by
    rw [withoutProcessors, collectAll_append]
    exact within_withoutProcessors ss (st.within_withoutProcessors h)

end

end Symbols

/-- The lines of a program between the functions it calls and its variables. -/
def Assembly.innerLines (a : Assembly) : List String :=
  "_start:" :: (a.code.map Line.text ++ ["", "section .data"] ++
    a.messages.entries.map fun (label, s) => label ++ ": db " ++ byteStringText s)

theorem Assembly.lines_eq_innerLines (a : Assembly) :
    a.lines = ["default rel", "section .text", "global _start"] ++
      a.externals.map ("extern " ++ ·) ++
      a.innerLines ++ a.vars.slots.map fun (x, w) => variableLabel x ++ ": dd " ++ wordText w := by
  simp [lines, header, dataSection, innerLines]

/-- Processors have no code. Without them a program fails with the same error or not at all, its
texts are the same, and so are its lines from the start of the code up to the texts. It has no other
functions to call and no other variables, so its lines differ at most in those. -/
theorem generate_withoutProcessors (p : Program) :
    (∀ e, (generate (withoutProcessors p)).assembly = .error e ↔ (generate p).assembly = .error e) ∧
    ((∃ b, (generate (withoutProcessors p)).assembly = .ok b) ↔
      ∃ a, (generate p).assembly = .ok a) ∧
    (generate (withoutProcessors p)).messages = (generate p).messages ∧
    ∀ a b, (generate p).assembly = .ok a → (generate (withoutProcessors p)).assembly = .ok b →
      b.code = a.code ∧ b.messages = a.messages ∧ b.externals ⊆ a.externals ∧
        b.vars.names ⊆ a.vars.names ∧
      ∃ middle, middle.head? = some "_start:" ∧
        (a.lines = ["default rel", "section .text", "global _start"] ++
          a.externals.map ("extern " ++ ·) ++
          middle ++ a.vars.slots.map fun (x, w) => variableLabel x ++ ": dd " ++ wordText w) ∧
        b.lines = ["default rel", "section .text", "global _start"] ++
          b.externals.map ("extern " ++ ·) ++
          middle ++ b.vars.slots.map fun (x, w) => variableLabel x ++ ": dd " ++ wordText w := by
  have hsame := sameCode_withoutProcessors p
  have hp := generate_visits p
  have hq := generate_visits (withoutProcessors p)
  rw [hsame.events] at hq
  rcases hes : afterCode [] .empty (stmtsCodeEvents p) with ⟨x | names, m⟩
  · rw [hes] at hp hq
    simp [hp, hq]
  · rw [hes] at hp hq
    obtain ⟨hpm, a, ha, ham⟩ := hp
    obtain ⟨hqm, b, hb, hbm⟩ := hq
    refine ⟨by simp [ha, hb], by simp [ha, hb], hqm.trans hpm.symm, ?_⟩
    intro a' b' ha' hb'
    obtain rfl : a = a' := by simpa [ha] using ha'
    obtain rfl : b = b' := by simpa [hb] using hb'
    obtain ⟨haext, havars, hacode, _⟩ := generate_eq_ok ha
    obtain ⟨hbext, hbvars, hbcode, _⟩ := generate_eq_ok hb
    have hmessages : b.messages = a.messages := hbm.trans ham.symm
    have hcode : b.code = a.code := by
      rw [hacode, hbcode, hmessages, Program.code, Program.code, hsame.code]
    have hwithin : (Program.symbols (withoutProcessors p)).Within (Program.symbols p) :=
      within_withoutProcessors p ⟨List.Subset.refl _, List.Subset.refl _⟩
    have hinner : b.innerLines = a.innerLines := by
      rw [Assembly.innerLines, Assembly.innerLines, hcode, hmessages]
    refine ⟨hcode, hmessages, ?_, ?_, a.innerLines, rfl, a.lines_eq_innerLines, ?_⟩
    · rw [haext, hbext]
      exact hwithin.externals
    · rw [havars, hbvars]
      exact hwithin.names
    · rw [← hinner]
      exact b.lines_eq_innerLines

end ImpAsm

import ImpAsm.Proofs.Machine.Code
import ImpAsm.Proofs.Stmt.Scope

namespace ImpAsm

/-- Functions are added to a table once, and stay in it. -/
structure Symbols.Grows (s t : Symbols) : Prop where
  subset : s.externals ⊆ t.externals
  nodup : s.externals.Nodup → t.externals.Nodup

namespace Symbols.Grows

variable {s t u : Symbols}

theorem of_eq (h : t.externals = s.externals) : s.Grows t :=
  ⟨h ▸ List.Subset.refl _, fun hs => h ▸ hs⟩

theorem trans (h : s.Grows t) (h' : t.Grows u) : s.Grows u :=
  ⟨List.Subset.trans h.subset h'.subset, fun hs => h'.nodup (h.nodup hs)⟩

end Symbols.Grows

theorem Symbols.mem_addExternal (s : Symbols) (f : String) : f ∈ (s.addExternal f).externals := by
  rw [externals_addExternal]
  exact mem_addNew.mpr (.inr rfl)

theorem Symbols.grows_addExternal (s : Symbols) (f : String) : s.Grows (s.addExternal f) := by
  constructor
  · rw [externals_addExternal]
    exact (prefix_addNew _ _).subset
  · intro hs
    rw [externals_addExternal]
    exact nodup_addNew hs f

mutual

/-- Collecting the symbols of a program only adds to the table. -/
theorem Stmt.grows_collect : ∀ (s : Symbols) (st : Stmt), s.Grows (st.collect s)
  | _, .exit _ => .of_eq rfl
  | _, .printText _ => .of_eq rfl
  | _, .printValue _ => .of_eq rfl
  | _, .declare _ _ => .of_eq rfl
  | _, .assign _ _ => .of_eq rfl
  | s, .branch _ yes no => (grows_collectAll s yes).trans (grows_collectElse (collectAll s yes) no)
  | s, .loop _ body => grows_collectAll s body
  | s, .call f _ => s.grows_addExternal f
  | s, .processor _ _ body => grows_collectAll s body

theorem grows_collectAll : ∀ (s : Symbols) (ss : List Stmt), s.Grows (collectAll s ss)
  | _, [] => .of_eq rfl
  | s, st :: ss => (Stmt.grows_collect s st).trans (grows_collectAll (st.collect s) ss)

theorem grows_collectElse : ∀ (s : Symbols) (no : Option (List Stmt)), s.Grows (collectElse s no)
  | _, none => .of_eq rfl
  | s, some ss => grows_collectAll s ss

end

theorem nodup_externals (p : Program) : (Program.symbols p).externals.Nodup :=
  (grows_collectAll ⟨.empty, []⟩ p).nodup List.nodup_nil

theorem names_collectAll (s : Symbols) (ss : List Stmt) :
    (collectAll s ss).vars.names = ((stmtsLets ss).map Prod.fst).foldl addNew s.vars.names := by
  rw [vars_collectAll, Variables.names_foldl]

/-- The variables of a program are the names that it declares, in the order of their first
declarations. -/
theorem names_symbols (p : Program) : (Program.symbols p).vars.names = p.vars.eraseDups := by
  rw [Program.symbols, names_collectAll, ← foldl_addNew]
  rfl

/-- Each variable has one place. -/
theorem nodup_names (p : Program) : (Program.symbols p).vars.names.Nodup := by
  rw [Program.symbols, names_collectAll]
  exact nodup_foldl_addNew _ _ List.nodup_nil

/-- Each declared name has a place. -/
theorem mem_names_of_mem_vars {p : Program} {x : String} (h : x ∈ p.vars) :
    x ∈ (Program.symbols p).vars.names := by
  rw [names_symbols]
  exact List.mem_eraseDups.mpr h

/-- Each variable starts like the name in the program. -/
theorem slots_symbols (p : Program) :
    (Program.symbols p).vars.slots = p.vars.eraseDups.map fun x => (x, initialStore p x) := by
  have hslot : ∀ slot ∈ (Program.symbols p).vars.slots, (slot.1, initialStore p slot.1) = slot := by
    intro slot hslot
    have hvalue := Variables.initialValue?_of_mem (nodup_names p) hslot
    have hname : slot.1 ∈ (Program.symbols p).vars.names := List.mem_map_of_mem hslot
    rw [names_symbols, List.mem_eraseDups] at hname
    rw [initialValue?_symbols, if_pos hname] at hvalue
    rw [Option.some.inj hvalue]
  rw [← names_symbols, Variables.names, List.map_map]
  have hmap := List.map_congr_left hslot
  rw [List.map_id'] at hmap
  exact hmap.symm

mutual

/-- How many branches and loops there are in a statement, without the bodies of processors. -/
def Stmt.forkCount : Stmt → Nat
  | .branch _ yes no => 1 + forkCount yes + forkCountElse no
  | .loop _ body => 1 + forkCount body
  | _ => 0

def forkCount : List Stmt → Nat
  | [] => 0
  | stmt :: stmts => stmt.forkCount + forkCount stmts

def forkCountElse : Option (List Stmt) → Nat
  | none => 0
  | some stmts => forkCount stmts

end

mutual

theorem Stmt.labelCount_eq : ∀ s : Stmt, s.labelCount = 2 * s.forkCount
  | .exit _ | .printText _ | .printValue _ | .declare _ _ | .assign _ _ | .call _ _
  | .processor _ _ _ => rfl
  | .branch _ yes no => by
    rw [Stmt.labelCount, Stmt.forkCount, labelCount_eq yes, labelCountElse_eq no]
    omega
  | .loop _ body => by
    rw [Stmt.labelCount, Stmt.forkCount, labelCount_eq body]
    omega

/-- Every branch and every loop takes two labels. -/
theorem labelCount_eq : ∀ ss : List Stmt, labelCount ss = 2 * forkCount ss
  | [] => rfl
  | s :: ss => by
    rw [labelCount, forkCount, Stmt.labelCount_eq s, labelCount_eq ss]
    omega

theorem labelCountElse_eq : ∀ no : Option (List Stmt), labelCountElse no = 2 * forkCountElse no
  | none => rfl
  | some ss => labelCount_eq ss

end

/-- The numbers of the labels of some lines are the next ones, in any order. -/
def TakesNumbers (used count : Nat) (lines : List Line) : Prop :=
  ((lineLabels lines).map Label.number).Perm (List.range' (used + 1) count)

theorem TakesNumbers.of_no_label {lines : List Line} (h : lineLabels lines = []) (used : Nat) :
    TakesNumbers used 0 lines := by
  rw [TakesNumbers, h]
  exact .nil

theorem TakesNumbers.append {used m n : Nat} {ls ms : List Line} (h : TakesNumbers used m ls)
    (h' : TakesNumbers (used + m) n ms) : TakesNumbers used (m + n) (ls ++ ms) := by
  have hstart : used + 1 + m = used + m + 1 := by omega
  rw [TakesNumbers, lineLabels_append, List.map_append, ← List.range'_append_1, hstart]
  exact List.Perm.append h h'

/-- The two labels of a branch or a loop come before those of its blocks. -/
theorem TakesNumbers.fork {used n : Nat} {inner lines : List Line}
    {ls ms : List Label} {a b : Label} (h : TakesNumbers (used + 2) n inner)
    (hinner : lineLabels inner = ls ++ ms) (hlines : lineLabels lines = ls ++ a :: (ms ++ [b]))
    (ha : a.number = used + 1) (hb : b.number = used + 2) : TakesNumbers used (2 + n) lines := by
  have hrange : List.range' (used + 1) (2 + n) =
      (used + 1) :: (used + 2) :: List.range' (used + 2 + 1) n := by
    rw [Nat.add_comm 2 n, List.range'_succ, List.range'_succ]
  have hlast : (ls ++ (ms ++ [b])).Perm (b :: (ls ++ ms)) := by
    rw [← List.append_assoc]
    exact List.perm_append_singleton b (ls ++ ms)
  have hperm : (ls ++ a :: (ms ++ [b])).Perm (a :: b :: (ls ++ ms)) :=
    List.perm_middle.trans (hlast.cons a)
  have hnumbers := hperm.map Label.number
  rw [List.map_cons, List.map_cons, ha, hb] at hnumbers
  rw [TakesNumbers, hinner] at h
  rw [TakesNumbers, hrange, hlines]
  exact hnumbers.trans ((h.cons (used + 2)).cons (used + 1))

mutual

/-- The labels of a statement have the numbers that it takes. -/
theorem Stmt.takesNumbers_code (messages : Messages) : ∀ (used : Nat) (s : Stmt),
    TakesNumbers used s.labelCount (s.code messages used)
  | used, .exit _ | used, .printText _ | used, .printValue _ | used, .declare _ _
  | used, .assign _ _ | used, .call _ _ | used, .processor _ _ _ =>
    .of_no_label (by simp [Stmt.code, printCode, Line.label?]) used
  | used, .branch e yes no => by
    have hblocks := (takesNumbers_blockCode messages (used + 2) yes).append
      (takesNumbers_elseCode messages (used + 2 + labelCount yes) no)
    rw [Stmt.labelCount, Nat.add_assoc]
    exact hblocks.fork (a := ⟨.otherwise, used + 1⟩) (b := ⟨.done, used + 2⟩)
      (lineLabels_append _ _)
      (by simp [Stmt.code, Line.label?]) rfl rfl
  | used, .loop e body => by
    have hbody := takesNumbers_blockCode messages (used + 2) body
    exact hbody.fork (a := ⟨.loop, used + 1⟩) (b := ⟨.done, used + 2⟩) (List.nil_append _).symm
      (by simp [Stmt.code, Line.label?]) rfl rfl

theorem takesNumbers_blockCode (messages : Messages) : ∀ (used : Nat) (ss : List Stmt),
    TakesNumbers used (labelCount ss) (blockCode messages used ss)
  | used, [] => .of_no_label rfl used
  | used, s :: ss => by
    rw [blockCode, labelCount]
    exact (Stmt.takesNumbers_code messages used s).append
      (takesNumbers_blockCode messages (used + s.labelCount) ss)

theorem takesNumbers_elseCode (messages : Messages) : ∀ (used : Nat) (no : Option (List Stmt)),
    TakesNumbers used (labelCountElse no) (elseCode messages used no)
  | used, none => .of_no_label rfl used
  | used, some ss => takesNumbers_blockCode messages used ss

end

end ImpAsm

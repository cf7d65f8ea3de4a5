import ImpAsm.Generation
import ImpAsm.Proofs.Expr.Names
import ImpAsm.Proofs.Semantics.Reference
import ImpAsm.Proofs.Stmt.Tables

namespace ImpAsm

mutual

/-- The names that a statement uses are variables, and the texts that it prints are in a table. Of a
processor nothing is asked, since its body never runs. -/
def Stmt.Covered (vars texts : List String) : Stmt → Prop
  | .exit e => ∀ x ∈ e.names, x ∈ vars
  | .printText text => text ∈ texts
  | .printValue e => ∀ x ∈ e.names, x ∈ vars
  | .declare x e => x ∈ vars ∧ ∀ y ∈ e.names, y ∈ vars
  | .assign x e => x ∈ vars ∧ ∀ y ∈ e.names, y ∈ vars
  | .branch e yes no =>
    (∀ x ∈ e.names, x ∈ vars) ∧ Covered vars texts yes ∧ CoveredElse vars texts no
  | .loop e body => (∀ x ∈ e.names, x ∈ vars) ∧ Covered vars texts body
  | .call _ args => ∀ e ∈ args, ∀ x ∈ e.names, x ∈ vars
  | .processor _ _ _ => True

def Covered (vars texts : List String) : List Stmt → Prop
  | [] => True
  | s :: ss => s.Covered vars texts ∧ Covered vars texts ss

def CoveredElse (vars texts : List String) : Option (List Stmt) → Prop
  | none => True
  | some ss => Covered vars texts ss

end

section Covered

variable {vars texts : List String}

theorem Covered.append {ss ts : List Stmt} (h : Covered vars texts ss)
    (h' : Covered vars texts ts) :
    Covered vars texts (ss ++ ts) := by
  induction ss with
  | nil => exact h'
  | cons s ss ih => exact ⟨h.1, ih h.2⟩

theorem CoveredElse.getD {no : Option (List Stmt)} (h : CoveredElse vars texts no) :
    Covered vars texts (no.getD []) := by
  cases no with
  | none => trivial
  | some ss => exact h

end Covered

namespace Walk

/-- What a walk from `s` to `t` shows of a piece of a program. -/
structure Shows (vars : List String) (s t : Scope) (Piece : List String → Prop) : Prop where
  declared : ∀ x ∈ t.declared, x ∈ vars
  texts : s.messages.texts ⊆ t.messages.texts
  piece : ∀ {texts}, t.messages.texts ⊆ texts → Piece texts

variable {vars : List String} {s t u : Scope} {P Q : List String → Prop}

theorem Shows.and (h : Shows vars s t P) (h' : Shows vars t u Q) :
    Shows vars s u fun texts => P texts ∧ Q texts where
  declared := h'.declared
  texts := List.Subset.trans h.texts h'.texts
  piece := fun ht => ⟨h.piece (List.Subset.trans h'.texts ht), h'.piece ht⟩

/-- A step that prints nothing. -/
theorem Shows.of_eq (hd : t.declared = s.declared) (hm : t.messages = s.messages)
    (hs : ∀ x ∈ s.declared, x ∈ vars) (hP : ∀ texts, P texts) : Shows vars s t P where
  declared := hd ▸ hs
  texts := hm ▸ List.Subset.refl _
  piece := fun _ => hP _

theorem print_eq_ok {text : String} (h : print text s = .ok () t) :
    t.declared = s.declared ∧ s.messages.texts ⊆ t.messages.texts ∧ text ∈ t.messages.texts := by
  obtain ⟨a, u, hget, h⟩ := bind_eq_ok.mp h
  obtain ⟨rfl, rfl⟩ : s = a ∧ s = u := by
    injection hget with ha hu
    exact ⟨ha, hu⟩
  obtain ⟨_, v, hmodify, h⟩ := bind_eq_ok.mp h
  obtain rfl : { s with messages := (s.messages.register text).2 } = v := by
    injection hmodify
  obtain ⟨hd, hm⟩ := report_eq_ok h
  exact ⟨hd, hm ▸ (s.messages.prefix_register text).subset, hm ▸ s.messages.mem_register text⟩

mutual

/-- A walk that succeeds has met only declared names, and all printed texts are in its table. -/
theorem shows_stmt {s t : Scope} (hs : ∀ x ∈ s.declared, x ∈ vars) : ∀ (st : Stmt),
    (∀ l ∈ st.lets, l.1 ∈ vars) → stmt st s = .ok () t → Shows vars s t (st.Covered vars)
  | .exit e, _, h => by
    obtain ⟨hd, hm, hx⟩ := expr_eq_ok h
    exact .of_eq hd hm hs fun _ x hmem => hs x (hx x hmem)
  | .printText text, _, h => by
    obtain ⟨hd, hsub, hmem⟩ := print_eq_ok h
    exact ⟨hd ▸ hs, hsub, fun ht => ht hmem⟩
  | .printValue e, _, h => by
    obtain ⟨_, u, hu, h⟩ := bind_eq_ok.mp h
    obtain ⟨hd, hm, hx⟩ := expr_eq_ok hu
    obtain ⟨hd', hm'⟩ := report_eq_ok h
    exact .of_eq (hd'.trans hd) (hm'.trans hm) hs fun _ x hmem => hs x (hx x hmem)
  | .declare x e, hl, h => by
    obtain ⟨_, u, hu, h⟩ := bind_eq_ok.mp h
    obtain ⟨hd, hm, hx⟩ := expr_eq_ok hu
    obtain rfl : { u with declared := x :: u.declared } = t := by injection h
    have hxv : x ∈ vars := hl (x, e) (by simp [Stmt.lets])
    refine ⟨?_, hm ▸ List.Subset.refl _, fun _ => ⟨hxv, fun y hy => hs y (hx y hy)⟩⟩
    intro y hy
    rcases List.mem_cons.mp hy with rfl | hy
    · exact hxv
    · exact hs y (hd ▸ hy)
  | .assign x e, _, h => by
    obtain ⟨_, u, hu, he⟩ := bind_eq_ok.mp h
    obtain ⟨rfl, hxs⟩ := use_eq_ok hu
    obtain ⟨hd, hm, hx⟩ := expr_eq_ok he
    exact .of_eq hd hm hs fun _ => ⟨hs x hxs, fun y hy => hs y (hx y hy)⟩
  | .branch e yes no, hl, h => by
    obtain ⟨_, u, hu, h⟩ := bind_eq_ok.mp h
    obtain ⟨_, v, hv, h⟩ := bind_eq_ok.mp h
    obtain ⟨hd, hm, hx⟩ := expr_eq_ok hu
    have he : Shows vars s u fun _ => ∀ x ∈ e.names, x ∈ vars :=
      .of_eq hd hm hs fun _ x hmem => hs x (hx x hmem)
    have hyes := shows_stmts he.declared yes (fun l hmem => hl l (by simp [Stmt.lets, hmem])) hv
    have hno := shows_otherwise hyes.declared no (fun l hmem => hl l (by simp [Stmt.lets, hmem])) h
    exact he.and (hyes.and hno)
  | .loop e body, hl, h => by
    obtain ⟨_, u, hu, h⟩ := bind_eq_ok.mp h
    obtain ⟨hd, hm, hx⟩ := expr_eq_ok hu
    have he : Shows vars s u fun _ => ∀ x ∈ e.names, x ∈ vars :=
      .of_eq hd hm hs fun _ x hmem => hs x (hx x hmem)
    exact he.and (shows_stmts he.declared body hl h)
  | .call f args, _, h => by
    obtain ⟨hd, hm, hx⟩ := arguments_eq_ok h
    exact .of_eq hd hm hs fun _ e he x hmem => hs x (hx e he x hmem)
  | .processor p params body, _, h => by
    obtain ⟨hd, hm⟩ := report_eq_ok h
    exact .of_eq hd hm hs fun _ => trivial

theorem shows_stmts {s t : Scope} (hs : ∀ x ∈ s.declared, x ∈ vars) : ∀ (ss : List Stmt),
    (∀ l ∈ stmtsLets ss, l.1 ∈ vars) → stmts ss s = .ok () t → Shows vars s t (Covered vars · ss)
  | [], _, h => by
    obtain rfl : s = t := by injection h
    exact .of_eq rfl rfl hs fun _ => trivial
  | st :: ss, hl, h => by
    obtain ⟨_, u, hu, h⟩ := bind_eq_ok.mp h
    have hst := shows_stmt hs st (fun l hmem => hl l (by simp [stmtsLets, hmem])) hu
    exact hst.and (shows_stmts hst.declared ss (fun l hmem => hl l (by simp [stmtsLets, hmem])) h)

theorem shows_otherwise {s t : Scope} (hs : ∀ x ∈ s.declared, x ∈ vars) :
    ∀ (no : Option (List Stmt)),
    (∀ l ∈ elseLets no, l.1 ∈ vars) → otherwise no s = .ok () t →
      Shows vars s t (CoveredElse vars · no)
  | none, _, h => by
    obtain rfl : s = t := by injection h
    exact .of_eq rfl rfl hs fun _ => trivial
  | some ss, hl, h => shows_stmts hs ss hl h

end

end Walk

mutual

/-- The variables of a program are declared in the order of its declarations. -/
theorem Stmt.vars_collect : ∀ (s : Symbols) (st : Stmt),
    (st.collect s).vars = st.lets.foldl (fun v l => v.declare l.1 l.2.initialValue) s.vars
  | _, .exit _ => rfl
  | _, .printText _ => rfl
  | _, .printValue _ => rfl
  | _, .declare _ _ => rfl
  | _, .assign _ _ => rfl
  | s, .branch e yes no => by
    rw [Stmt.collect, Stmt.lets, List.foldl_append, ← vars_collectAll s yes,
      vars_collectElse (collectAll s yes) no]
  | s, .loop e body => vars_collectAll s body
  | s, .call f _ => s.vars_addExternal f
  | s, .processor p params body => vars_collectAll s body

theorem vars_collectAll : ∀ (s : Symbols) (ss : List Stmt),
    (collectAll s ss).vars = (stmtsLets ss).foldl (fun v l => v.declare l.1 l.2.initialValue) s.vars
  | _, [] => rfl
  | s, st :: ss => by
    rw [collectAll, stmtsLets, List.foldl_append, ← Stmt.vars_collect s st,
      vars_collectAll (st.collect s) ss]

theorem vars_collectElse : ∀ (s : Symbols) (no : Option (List Stmt)),
    (collectElse s no).vars = (elseLets no).foldl (fun v l => v.declare l.1 l.2.initialValue) s.vars
  | _, none => rfl
  | s, some ss => vars_collectAll s ss

end

/-- A declaration matters only for a name that has none before. -/
theorem Variables.initialValue?_declare (v : Variables) (x y : String) (w : Int32) :
    (v.declare y w).initialValue? x = (v.initialValue? x).or (if y = x then some w else none) := by
  rw [declare]
  split
  · next hmem =>
    by_cases hy : y = x
    · subst hy
      obtain ⟨slot, hslot⟩ : ∃ slot, v.slots.find? (·.1 == y) = some slot :=
        Option.isSome_iff_exists.mp (by simpa [contains] using hmem)
      simp [initialValue?, hslot]
    · simp [hy]
  · rw [initialValue?, initialValue?, List.find?_append]
    cases hfind : v.slots.find? (·.1 == x) with
    | some slot => rfl
    | none => by_cases hy : y = x <;> simp [hy]

/-- The first declaration of a name decides its initial value. -/
theorem Variables.initialValue?_declareAll (x : String) (ds : List (String × Int32))
    (v : Variables) :
    (ds.foldl (fun v d => v.declare d.1 d.2) v).initialValue? x =
      (v.initialValue? x).or ((ds.find? (·.1 == x)).map Prod.snd) := by
  induction ds generalizing v with
  | nil => simp
  | cons d ds ih =>
    rw [List.foldl_cons, ih, initialValue?_declare, Option.or_assoc]
    congr 1
    by_cases hd : d.1 = x <;> simp [hd]

theorem initialValue?_foldl (x : String) (ls : List (String × Expr)) (v : Variables) :
    (ls.foldl (fun v l => v.declare l.1 l.2.initialValue) v).initialValue? x =
      (v.initialValue? x).or ((ls.find? (·.1 == x)).map fun l => l.2.initialValue) := by
  have h := Variables.initialValue?_declareAll x (ls.map fun l => (l.1, l.2.initialValue)) v
  rw [List.foldl_map, List.find?_map, Option.map_map] at h
  exact h

/-- A variable of the data section starts like a name of the program. -/
theorem initialValue?_symbols (p : Program) (x : String) :
    (Program.symbols p).vars.initialValue? x =
      if x ∈ p.vars then some (initialStore p x) else none := by
  rw [Program.symbols, vars_collectAll, initialValue?_foldl, initialStore]
  cases hfind : (stmtsLets p).find? (·.1 == x) with
  | none =>
    have hnot : x ∉ p.vars := by
      intro hmem
      obtain ⟨l, hl, rfl⟩ := List.mem_map.mp hmem
      exact absurd (List.find?_eq_none.mp hfind l hl) (by simp)
    rw [if_neg hnot]
    rfl
  | some l =>
    have hx : l.1 = x := by simpa using List.find?_some hfind
    have hmem : x ∈ p.vars := hx ▸ List.mem_map_of_mem (List.mem_of_find?_eq_some hfind)
    obtain ⟨y, e⟩ := l
    rw [if_pos hmem]
    cases e <;> rfl

/-- A generated program has the symbols and the code of its source, where all names are declared and
all printed texts are in its table. -/
theorem generate_eq_ok {p : Program} {a : Assembly} (h : (generate p).assembly = .ok a) :
    a.externals = (Program.symbols p).externals ∧ a.vars = (Program.symbols p).vars ∧
      a.code = Program.code a.messages p ∧ Covered p.vars a.messages.texts p := by
  rw [generate] at h
  split at h
  · simp at h
  · next scope hwalk =>
    obtain rfl := Except.ok.inj h
    have hlets : ∀ l ∈ stmtsLets p, l.1 ∈ p.vars := fun l hl => List.mem_map_of_mem hl
    have hshows := Walk.shows_stmts (by simp) p hlets hwalk
    exact ⟨rfl, rfl, rfl, hshows.piece (List.Subset.refl _)⟩

end ImpAsm

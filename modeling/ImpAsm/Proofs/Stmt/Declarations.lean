import ImpAsm.Generation
import ImpAsm.Proofs.Expr.Names
import ImpAsm.Proofs.Stmt.Tables

namespace ImpAsm

/-- What happens to a name at a point of a program. -/
inductive NameEvent where
  | use (x : String)
  | declaration (x : String)
deriving DecidableEq

/-- The uses of names in an expression, in the order of its code: right operands come first. -/
def Expr.nameEvents : Expr → List NameEvent
  | num _ | bool _ => []
  | ident x => [.use x]
  | unary _ e => e.nameEvents
  | binary _ l r => r.nameEvents ++ l.nameEvents

mutual

/-- The uses and declarations of names in a statement, in the order of its code. A value comes
before the declaration that it is for, the target of an assignment before its value, and the last
argument of a call first. The body of a processor has no code. -/
def Stmt.nameEvents : Stmt → List NameEvent
  | .exit e | .printValue e => e.nameEvents
  | .printText _ => []
  | .declare x e => e.nameEvents ++ [.declaration x]
  | .assign x e => .use x :: e.nameEvents
  | .branch e yes no => e.nameEvents ++ (stmtsNameEvents yes ++ elseNameEvents no)
  | .loop e body => e.nameEvents ++ stmtsNameEvents body
  | .call _ args => args.reverse.flatMap Expr.nameEvents
  | .processor _ _ _ => []

def stmtsNameEvents : List Stmt → List NameEvent
  | [] => []
  | s :: ss => s.nameEvents ++ stmtsNameEvents ss

def elseNameEvents : Option (List Stmt) → List NameEvent
  | none => []
  | some ss => stmtsNameEvents ss

end

/-- The names that are declared after the events, or the first name that is used without being
declared. -/
def afterEvents (declared : List String) : List NameEvent → Except String (List String)
  | [] => .ok declared
  | .use x :: es => if x ∈ declared then afterEvents declared es else .error x
  | .declaration x :: es => afterEvents (x :: declared) es

/-- Every use of a name stands behind a declaration of it, or the name is declared from the
start. -/
def AllDeclared (declared : List String) (es : List NameEvent) : Prop :=
  ∀ before x after, es = before ++ .use x :: after → x ∈ declared ∨ .declaration x ∈ before

theorem allDeclared_nil (declared : List String) : AllDeclared declared [] := by
  intro before x after h
  simp at h

theorem allDeclared_use {declared : List String} {x : String} {es : List NameEvent} :
    AllDeclared declared (.use x :: es) ↔ x ∈ declared ∧ AllDeclared declared es := by
  constructor
  · intro h
    constructor
    · have hx := h [] x es rfl
      simpa using hx
    · intro before y after hes
      have hy := h (.use x :: before) y after (congrArg (List.cons _) hes)
      simpa using hy
  · intro hall before y after hes
    obtain ⟨hx, h⟩ := hall
    cases before with
    | nil =>
      obtain ⟨rfl, rfl⟩ : x = y ∧ es = after := by simpa using hes
      exact .inl hx
    | cons e before =>
      obtain ⟨rfl, htail⟩ := List.cons.inj hes
      exact (h before y after htail).imp_right (List.mem_cons_of_mem _)

theorem allDeclared_declaration {declared : List String} {x : String} {es : List NameEvent} :
    AllDeclared declared (.declaration x :: es) ↔ AllDeclared (x :: declared) es := by
  constructor
  · intro h before y after hes
    have hy := h (.declaration x :: before) y after (congrArg (List.cons _) hes)
    simp only [List.mem_cons, NameEvent.declaration.injEq] at hy ⊢
    rcases hy with hy | hy | hy
    · exact .inl (.inr hy)
    · exact .inl (.inl hy)
    · exact .inr hy
  · intro h before y after hes
    cases before with
    | nil => simp at hes
    | cons e before =>
      obtain ⟨rfl, htail⟩ := List.cons.inj hes
      have hy := h before y after htail
      simp only [List.mem_cons, NameEvent.declaration.injEq] at hy ⊢
      rcases hy with (hy | hy) | hy
      · exact .inr (.inl hy)
      · exact .inl hy
      · exact .inr (.inr hy)

/-- The first name that is used without being declared: its use has no declaration before it, and
every earlier use has one. -/
def FirstUndeclared (declared : List String) (es : List NameEvent) (x : String) : Prop :=
  ∃ before after, es = before ++ .use x :: after ∧ x ∉ declared ∧ .declaration x ∉ before ∧
    AllDeclared declared before

/-- Only one name is the first undeclared one. -/
theorem FirstUndeclared.afterEvents_eq {declared : List String} {es : List NameEvent} {x : String}
    (h : FirstUndeclared declared es x) : afterEvents declared es = .error x := by
  obtain ⟨before, after, rfl, hx, hbefore, hall⟩ := h
  induction before generalizing declared with
  | nil => rw [List.nil_append, afterEvents, if_neg hx]
  | cons e before ih =>
    cases e with
    | use y =>
      obtain ⟨hy, hall⟩ := allDeclared_use.mp hall
      rw [List.cons_append, afterEvents, if_pos hy]
      exact ih hx (by simpa using hbefore) hall
    | declaration y =>
      obtain ⟨hxy, hbefore⟩ : x ≠ y ∧ NameEvent.declaration x ∉ before := by simpa using hbefore
      rw [List.cons_append, afterEvents]
      exact ih (by simpa using ⟨hxy, hx⟩) hbefore (allDeclared_declaration.mp hall)

/-- What the code of a program meets: names, and texts to print. -/
inductive CodeEvent where
  | name (e : NameEvent)
  | print (text : String)
deriving DecidableEq

namespace CodeEvent

def name? : CodeEvent → Option NameEvent
  | name e => some e
  | print _ => none

def texts : CodeEvent → List String
  | name _ => []
  | print text => [text]

end CodeEvent

/-- The texts that are printed, in their order. -/
def printedTexts (es : List CodeEvent) : List String := es.flatMap CodeEvent.texts

@[simp] theorem printedTexts_nil : printedTexts [] = [] := rfl

@[simp] theorem printedTexts_name (e : NameEvent) (es : List CodeEvent) :
    printedTexts (.name e :: es) = printedTexts es := rfl

@[simp] theorem printedTexts_append (es fs : List CodeEvent) :
    printedTexts (es ++ fs) = printedTexts es ++ printedTexts fs := List.flatMap_append

/-- The events of an expression. -/
def Expr.codeEvents (e : Expr) : List CodeEvent := e.nameEvents.map .name

mutual

/-- The names and printed texts of a statement, in the order of its code. The body of a processor
has no code. -/
def Stmt.codeEvents : Stmt → List CodeEvent
  | .exit e | .printValue e => e.codeEvents
  | .printText text => [.print text]
  | .declare x e => e.codeEvents ++ [.name (.declaration x)]
  | .assign x e => .name (.use x) :: e.codeEvents
  | .branch e yes no => e.codeEvents ++ (stmtsCodeEvents yes ++ elseCodeEvents no)
  | .loop e body => e.codeEvents ++ stmtsCodeEvents body
  | .call _ args => args.reverse.flatMap Expr.codeEvents
  | .processor _ _ _ => []

def stmtsCodeEvents : List Stmt → List CodeEvent
  | [] => []
  | s :: ss => s.codeEvents ++ stmtsCodeEvents ss

def elseCodeEvents : Option (List Stmt) → List CodeEvent
  | none => []
  | some ss => stmtsCodeEvents ss

end

@[simp] theorem printedTexts_expr (e : Expr) : printedTexts e.codeEvents = [] := by
  simp [printedTexts, Expr.codeEvents, CodeEvent.texts]

@[simp] theorem printedTexts_arguments (args : List Expr) :
    printedTexts (args.flatMap Expr.codeEvents) = [] := by
  induction args with
  | nil => rfl
  | cons e es ih => simp [ih]

theorem Expr.filterMap_name? (e : Expr) :
    e.codeEvents.filterMap CodeEvent.name? = e.nameEvents := by
  rw [codeEvents, List.filterMap_map]
  exact List.filterMap_some

mutual

theorem Stmt.filterMap_name? : ∀ s : Stmt, s.codeEvents.filterMap CodeEvent.name? = s.nameEvents
  | .exit e => e.filterMap_name?
  | .printText _ => rfl
  | .printValue e => e.filterMap_name?
  | .declare x e => by
    rw [Stmt.codeEvents, List.filterMap_append, e.filterMap_name?]
    rfl
  | .assign x e => congrArg (NameEvent.use x :: ·) e.filterMap_name?
  | .branch e yes no => by
    rw [Stmt.codeEvents, List.filterMap_append, List.filterMap_append, e.filterMap_name?,
      filterMap_name?_stmts yes, filterMap_name?_else no, Stmt.nameEvents]
  | .loop e body => by
    rw [Stmt.codeEvents, List.filterMap_append, e.filterMap_name?, filterMap_name?_stmts body,
      Stmt.nameEvents]
  | .call _ args => by
    rw [Stmt.codeEvents, List.filterMap_flatMap, Stmt.nameEvents]
    simp only [Expr.filterMap_name?]
  | .processor _ _ _ => rfl

/-- The events of names are those among all events. -/
theorem filterMap_name?_stmts : ∀ ss : List Stmt,
    (stmtsCodeEvents ss).filterMap CodeEvent.name? = stmtsNameEvents ss
  | [] => rfl
  | s :: ss => by
    rw [stmtsCodeEvents, List.filterMap_append, s.filterMap_name?, filterMap_name?_stmts ss,
      stmtsNameEvents]

theorem filterMap_name?_else : ∀ no : Option (List Stmt),
    (elseCodeEvents no).filterMap CodeEvent.name? = elseNameEvents no
  | none => rfl
  | some ss => filterMap_name?_stmts ss

end

/-- The names that are declared after the events or the first name that is used without being
declared, and the table of the texts that were printed up to there. -/
def afterCode (declared : List String) (m : Messages) :
    List CodeEvent → Except String (List String) × Messages
  | [] => (.ok declared, m)
  | .name (.use x) :: es => if x ∈ declared then afterCode declared m es else (.error x, m)
  | .name (.declaration x) :: es => afterCode (x :: declared) m es
  | .print text :: es => afterCode declared (m.register text).2 es

/-- Texts make no difference to names. -/
theorem afterCode_fst (declared : List String) (m : Messages) (es : List CodeEvent) :
    (afterCode declared m es).1 = afterEvents declared (es.filterMap CodeEvent.name?) := by
  fun_induction afterCode declared m es with
  | case1 => rfl
  | case2 declared m x es hx ih => simp [CodeEvent.name?, afterEvents, hx, ih]
  | case3 declared m x es hx => simp [CodeEvent.name?, afterEvents, hx]
  | case4 declared m x es ih => simp [CodeEvent.name?, afterEvents, ih]
  | case5 declared m text es ih => rw [ih, List.filterMap_cons_none rfl]

theorem afterCode_append (declared : List String) (m : Messages) (es fs : List CodeEvent) :
    afterCode declared m (es ++ fs) =
      match afterCode declared m es with
      | (.ok names, m') => afterCode names m' fs
      | (.error x, m') => (.error x, m') := by
  fun_induction afterCode declared m es with
  | case1 => rfl
  | case2 declared m x es hx ih => rw [List.cons_append, afterCode, if_pos hx, ih]
  | case3 declared m x es hx => rw [List.cons_append, afterCode, if_neg hx]
  | case4 declared m x es ih => rw [List.cons_append, afterCode, ih]
  | case5 declared m text es ih => rw [List.cons_append, afterCode, ih]

section AfterCode

variable (declared : List String) (m : Messages) (es : List CodeEvent)

theorem prefix_afterCode : m.texts <+: (afterCode declared m es).2.texts := by
  fun_induction afterCode declared m es with
  | case1 | case3 => exact List.prefix_rfl
  | case2 declared m x es hx ih => exact ih
  | case4 declared m x es ih => exact ih
  | case5 declared m text es ih => exact (m.prefix_register text).trans ih

/-- Events are gone through up to the first name that is used without being declared, and the texts
up to there are in the table. -/
theorem afterCode_split :
    ∃ before after, es = before ++ after ∧
      (afterCode declared m es).2 = m.registerAll (printedTexts before) ∧
      AllDeclared declared (before.filterMap CodeEvent.name?) ∧
      match (afterCode declared m es).1 with
      | .ok _ => after = []
      | .error x => x ∉ declared ∧ .declaration x ∉ before.filterMap CodeEvent.name? ∧
        ∃ rest, after = .name (.use x) :: rest := by
  fun_induction afterCode declared m es with
  | case1 declared m => exact ⟨[], [], rfl, rfl, allDeclared_nil declared, rfl⟩
  | case2 declared m x es hx ih =>
    obtain ⟨before, after, rfl, hm, hall, hend⟩ := ih
    refine ⟨.name (.use x) :: before, after, rfl, hm, allDeclared_use.mpr ⟨hx, hall⟩, ?_⟩
    revert hend
    cases (afterCode declared m (before ++ after)).1 with
    | ok names => exact id
    | error y =>
      intro hend
      exact ⟨hend.1, by simpa [CodeEvent.name?] using hend.2.1, hend.2.2⟩
  | case3 declared m x es hx =>
    exact ⟨[], .name (.use x) :: es, rfl, rfl, allDeclared_nil declared, hx, by simp, es, rfl⟩
  | case4 declared m x es ih =>
    obtain ⟨before, after, rfl, hm, hall, hend⟩ := ih
    refine ⟨.name (.declaration x) :: before, after, rfl, hm, allDeclared_declaration.mpr hall, ?_⟩
    revert hend
    cases (afterCode (x :: declared) m (before ++ after)).1 with
    | ok names => exact id
    | error y =>
      intro hend
      obtain ⟨hyx, hy⟩ : y ≠ x ∧ y ∉ declared := by simpa using hend.1
      exact ⟨hy, by simpa [CodeEvent.name?, hyx] using hend.2.1, hend.2.2⟩
  | case5 declared m text es ih =>
    obtain ⟨before, after, rfl, hm, hall, hend⟩ := ih
    exact ⟨.print text :: before, after, rfl, hm, hall, hend⟩

end AfterCode

/-- Names without texts are the case of events that are all names. -/
theorem afterEvents_eq_afterCode (declared : List String) (es : List NameEvent) :
    afterEvents declared es = (afterCode declared .empty (es.map .name)).1 := by
  rw [afterCode_fst, List.filterMap_map]
  exact congrArg _ List.filterMap_some.symm

/-- What the outcome of a list of events says about them. -/
theorem afterEvents_split (declared : List String) (es : List NameEvent) :
    match afterEvents declared es with
    | .ok _ => AllDeclared declared es
    | .error x => FirstUndeclared declared es x := by
  obtain ⟨before, after, hsplit, _, hall, hend⟩ := afterCode_split declared .empty (es.map .name)
  have hes : es = before.filterMap CodeEvent.name? ++ after.filterMap CodeEvent.name? := by
    rw [← List.filterMap_append, ← hsplit, List.filterMap_map]
    exact List.filterMap_some.symm
  rw [afterEvents_eq_afterCode]
  cases hcode : (afterCode declared .empty (es.map .name)).1 with
  | ok names =>
    rw [hcode] at hend
    obtain rfl : after = [] := hend
    rw [hes]
    simpa using hall
  | error x =>
    rw [hcode] at hend
    obtain ⟨hx, hbefore, rest, rfl⟩ := hend
    exact ⟨_, rest.filterMap CodeEvent.name?, hes, hx, hbefore, hall⟩

theorem afterEvents_ok {declared names : List String} {es : List NameEvent}
    (h : afterEvents declared es = .ok names) : AllDeclared declared es := by
  have hsplit := afterEvents_split declared es
  rwa [h] at hsplit

theorem afterEvents_error {declared : List String} {es : List NameEvent} {x : String}
    (h : afterEvents declared es = .error x) : FirstUndeclared declared es x := by
  have hsplit := afterEvents_split declared es
  rwa [h] at hsplit

section Sequences

variable {ε σ α β : Type} {x : EStateM ε σ α} {f : α → EStateM ε σ β} {s t : σ}

theorem bind_of_ok {a : α} (h : x s = .ok a t) : (x >>= f) s = f a t := by
  change EStateM.bind x f s = _
  rw [EStateM.bind, h]

theorem bind_of_error {e : ε} (h : x s = .error e t) : (x >>= f) s = .error e t := by
  change EStateM.bind x f s = _
  rw [EStateM.bind, h]

end Sequences

namespace Walk

/-- A walk goes through the events of code: it fails exactly at the first name that is undeclared,
and up to there it enters the texts into the table. -/
def Visits (w : Walk Unit) (es : List CodeEvent) : Prop :=
  ∀ s : Scope,
    match afterCode s.declared s.messages es with
    | (.ok names, m) => ∃ t, w s = .ok () t ∧ t.declared = names ∧ t.messages = m
    | (.error x, m) => ∃ t, w s = .error (.undeclared x) t ∧ t.messages = m

theorem Visits.bind {w w' : Walk Unit} {es fs : List CodeEvent} (h : Visits w es)
    (h' : Visits w' fs) : Visits (do w; w') (es ++ fs) := by
  intro s
  have hw := h s
  rw [afterCode_append]
  rcases hes : afterCode s.declared s.messages es with ⟨x | names, m⟩
  · rw [hes] at hw
    obtain ⟨t, ht, hm⟩ := hw
    exact ⟨t, bind_of_error ht, hm⟩
  · rw [hes] at hw
    obtain ⟨t, ht, rfl, rfl⟩ := hw
    rw [bind_of_ok ht]
    exact h' t

theorem visits_return : Visits (return ()) [] := fun s => ⟨s, rfl, rfl, rfl⟩

theorem visits_report (e : Event) : Visits (report e) [] := fun s =>
  ⟨{ s with events := s.events.push e }, rfl, rfl, rfl⟩

theorem visits_declare (x : String) : Visits (declare x) [.name (.declaration x)] := fun s =>
  ⟨{ s with declared := x :: s.declared }, rfl, rfl, rfl⟩

theorem visits_print (text : String) : Visits (print text) [.print text] := fun _ =>
  ⟨_, rfl, rfl, rfl⟩

theorem visits_use (x : String) : Visits (use x) [.name (.use x)] := by
  intro s
  have hrun : use x s = if s.declared.contains x then .ok () s else .error (.undeclared x) s := by
    change (if s.declared.contains x then (return () : Walk Unit) else throw _) s = _
    split <;> rfl
  by_cases hx : x ∈ s.declared
  · rw [afterCode, if_pos hx]
    exact ⟨s, by simp [hrun, hx], rfl, rfl⟩
  · rw [afterCode, if_neg hx]
    exact ⟨s, by simp [hrun, hx], rfl⟩

theorem visits_expr (e : Expr) : Visits (expr e) e.codeEvents := by
  induction e with
  | num w | bool b => exact visits_return
  | ident x => exact visits_use x
  | unary op e ih => exact ih
  | binary op l r ihl ihr =>
    rw [Expr.codeEvents, Expr.nameEvents, List.map_append]
    exact (visits_report _).bind (ihr.bind ihl)

theorem visits_arguments (es : List Expr) :
    Visits (arguments es) (es.reverse.flatMap Expr.codeEvents) := by
  induction es with
  | nil => exact visits_return
  | cons e es ih =>
    have h := ih.bind (visits_expr e)
    rw [List.reverse_cons, List.flatMap_append, List.flatMap_singleton]
    exact h

mutual

theorem visits_stmt : ∀ s : Stmt, Visits (stmt s) s.codeEvents
  | .exit e => visits_expr e
  | .printText text => visits_print text
  | .printValue e => by
    have h := (visits_expr e).bind (visits_report .valuePrinted)
    rwa [List.append_nil] at h
  | .declare x e => (visits_expr e).bind (visits_declare x)
  | .assign x e => (visits_use x).bind (visits_expr e)
  | .branch e yes no => (visits_expr e).bind ((visits_stmts yes).bind (visits_otherwise no))
  | .loop e body => (visits_expr e).bind (visits_stmts body)
  | .call _ args => visits_arguments args
  | .processor p _ _ => visits_report (.processorSkipped p)

/-- A program is walked in the order of its code. -/
theorem visits_stmts : ∀ ss : List Stmt, Visits (stmts ss) (stmtsCodeEvents ss)
  | [] => visits_return
  | s :: ss => (visits_stmt s).bind (visits_stmts ss)

theorem visits_otherwise : ∀ no : Option (List Stmt), Visits (otherwise no) (elseCodeEvents no)
  | none => visits_return
  | some ss => visits_stmts ss

end

end Walk

/-- Code generation goes through the events of a program. -/
theorem generate_visits (p : Program) :
    match afterCode [] .empty (stmtsCodeEvents p) with
    | (.ok _, m) => (generate p).messages = m ∧ ∃ a, (generate p).assembly = .ok a ∧ a.messages = m
    | (.error x, m) =>
      (generate p).messages = m ∧ (generate p).assembly = .error (.undeclared x) := by
  have hwalk := Walk.visits_stmts p
    ⟨[], .empty, #[.collected (Program.symbols p).vars.size (Program.symbols p).externals.length]⟩
  rw [generate]
  dsimp only [EStateM.run]
  rcases hes : afterCode [] .empty (stmtsCodeEvents p) with ⟨x | names, m⟩
  · rw [hes] at hwalk
    obtain ⟨t, ht, hm⟩ := hwalk
    rw [ht]
    exact ⟨hm, rfl⟩
  · rw [hes] at hwalk
    obtain ⟨t, ht, _, hm⟩ := hwalk
    rw [ht]
    exact ⟨hm, _, rfl, hm⟩

/-- Code generation fails with the first undeclared name of a program, and for no other reason. -/
theorem generate_eq (p : Program) :
    match afterEvents [] (stmtsNameEvents p) with
    | .ok _ => ∃ a, (generate p).assembly = .ok a
    | .error x => (generate p).assembly = .error (.undeclared x) := by
  have hgenerate := generate_visits p
  rw [← filterMap_name?_stmts p, ← afterCode_fst [] .empty]
  rcases hes : afterCode [] .empty (stmtsCodeEvents p) with ⟨x | names, m⟩
  · rw [hes] at hgenerate
    exact hgenerate.2
  · rw [hes] at hgenerate
    obtain ⟨_, a, ha, _⟩ := hgenerate
    exact ⟨a, ha⟩

/-- A program is refused exactly if one of its names is used without a declaration before it in the
order of its code, wherever that declaration stands, and the error names the first such use. -/
theorem generate_error_iff (p : Program) :
    ((∃ e, (generate p).assembly = .error e) ↔
      ∃ before x after, stmtsNameEvents p = before ++ .use x :: after ∧ .declaration x ∉ before) ∧
    ∀ e, (generate p).assembly = .error e ↔
      ∃ x, e = .undeclared x ∧ FirstUndeclared [] (stmtsNameEvents p) x := by
  have hgenerate := generate_eq p
  cases hes : afterEvents [] (stmtsNameEvents p) with
  | ok names =>
    rw [hes] at hgenerate
    obtain ⟨a, ha⟩ := hgenerate
    have hall := afterEvents_ok hes
    refine ⟨?_, ?_⟩
    · constructor
      · intro h
        obtain ⟨e, he⟩ := h
        simp [ha] at he
      · intro h
        obtain ⟨before, x, after, hsplit, hx⟩ := h
        have hdeclared := hall before x after hsplit
        simp [hx] at hdeclared
    · intro e
      constructor
      · intro he
        simp [ha] at he
      · intro h
        obtain ⟨x, _, hx⟩ := h
        simp [hx.afterEvents_eq] at hes
  | error x =>
    rw [hes] at hgenerate
    have hfirst := afterEvents_error hes
    refine ⟨?_, ?_⟩
    · obtain ⟨before, after, hsplit, _, hx, _⟩ := hfirst
      exact ⟨fun _ => ⟨before, x, after, hsplit, hx⟩, fun _ => ⟨_, hgenerate⟩⟩
    · intro e
      constructor
      · intro he
        obtain rfl : .undeclared x = e := by simpa [hgenerate] using he
        exact ⟨x, rfl, hfirst⟩
      · intro h
        obtain ⟨y, rfl, hy⟩ := h
        obtain rfl : x = y := by simpa [hes] using hy.afterEvents_eq
        exact hgenerate

end ImpAsm

import ImpAsm.Proofs.Stmt.Calls

namespace ImpAsm

mutual

/-- The expressions of a statement, with those in its blocks. -/
def Stmt.expressions : Stmt → List Expr
  | .exit e | .printValue e | .declare _ e | .assign _ e => [e]
  | .printText _ => []
  | .branch e yes no => e :: (stmtsExpressions yes ++ elseExpressions no)
  | .loop e body => e :: stmtsExpressions body
  | .call _ args => args
  | .processor _ _ body => stmtsExpressions body

def stmtsExpressions : List Stmt → List Expr
  | [] => []
  | s :: ss => s.expressions ++ stmtsExpressions ss

def elseExpressions : Option (List Stmt) → List Expr
  | none => []
  | some ss => stmtsExpressions ss

end

theorem stmtsExpressions_eq_flatMap (ss : List Stmt) :
    stmtsExpressions ss = ss.flatMap Stmt.expressions := by
  induction ss with
  | nil => rfl
  | cons s ss ih => rw [stmtsExpressions, ih, List.flatMap_cons]

/-- A place among the tokens `ts` with a log that tells the height of each expression which was
read. The expressions `known` are among them. -/
structure ParseState.Records (ts : List Token) (known : List Expr) (s : ParseState) : Prop where
  cursor : s.cursor = .ofTokens ts s.cursor.index
  heights : ∀ start stop height, .expressionParsed start stop height ∈ s.events →
    ∃ e, parseExpr ts start = .ok (e, stop) ∧ height = e.height
  known : ∀ e ∈ known, ∃ start stop, parseExpr ts start = .ok (e, stop) ∧
    .expressionParsed start stop e.height ∈ s.events

namespace ParseState.Records

variable {ts : List Token} {known known' : List Expr} {s : ParseState}

theorem mono (h : s.Records ts known) (hsub : known' ⊆ known) : s.Records ts known' :=
  ⟨h.cursor, h.heights, fun e he => h.known e (hsub he)⟩

/-- An entry is added to the log, at a place that is reached. If it tells of an expression it has to
be right. -/
theorem log (h : s.Records ts known) {c : Cursor} (hc : c = .ofTokens ts c.index) {event : Event}
    (hevent : ∀ start stop height, event = .expressionParsed start stop height →
      ∃ e, parseExpr ts start = .ok (e, stop) ∧ height = e.height) :
    Records ts known ⟨c, s.events.push event⟩ where
  cursor := hc
  heights := by
    intro start stop height hmem
    rcases Array.mem_push.mp hmem with hmem | heq
    · exact h.heights start stop height hmem
    · exact hevent start stop height heq.symm
  known := by
    intro e he
    obtain ⟨start, stop, hparse, hmem⟩ := h.known e he
    exact ⟨start, stop, hparse, Array.mem_push_of_mem event hmem⟩

theorem next (h : s.Records ts known) : Records ts known { s with cursor := s.cursor.next } where
  cursor := by
    cases hrest : s.cursor.rest with
    | nil =>
      have hstays : s.cursor.next = s.cursor := by simp [Cursor.next, hrest]
      simp only [hstays]
      exact h.cursor
    | cons l ls =>
      have hspans := Cursor.spans_next hrest
      rw [h.cursor] at hspans
      have hplace := hspans.eq_ofTokens
      rwa [← h.cursor] at hplace
  heights := h.heights
  known := h.known

/-- An expression that is read is logged with the height of its tree. -/
theorem expression (h : s.Records ts known) {o : Operand} {d : Cursor}
    (hread : Operand.Reads readExpr s.cursor o d) :
    Records ts (o.expr :: known)
      ⟨d, s.events.push (.expressionParsed s.cursor.index d.index o.height)⟩ := by
  rw [h.cursor] at hread
  obtain ⟨ls, hspans, _, hheight, _⟩ := readExpr_sound (Cursor.ofTokens_proper ts _) hread
  have hparse : parseExpr ts s.cursor.index = .ok (o.expr, d.index) :=
    parseExpr_eq_ok.mpr ⟨o, d, hread, rfl, rfl⟩
  have hlog :
      Records ts known ⟨d, s.events.push (.expressionParsed s.cursor.index d.index o.height)⟩ := by
    refine h.log hspans.eq_ofTokens ?_
    rintro _ _ _ ⟨⟩
    exact ⟨o.expr, hparse, hheight⟩
  refine ⟨hlog.cursor, hlog.heights, ?_⟩
  intro e he
  rcases List.mem_cons.mp he with rfl | he
  · exact ⟨_, _, hparse, Array.mem_push.mpr (.inr (by rw [hheight]))⟩
  · exact hlog.known e he

end ParseState.Records

namespace Parse

variable {α β : Type} {ts : List Token} {known : List Expr}

/-- A rule that keeps the log right, whether it fails or not. If it gives the value `a`, the
expressions `found a` have been logged. -/
def Records (ts : List Token) (known : List Expr) (p : Parse α) (found : α → List Expr) : Prop :=
  ∀ s : ParseState, s.Records ts known →
    match p.run s with
    | .error _ t => t.Records ts known
    | .ok a t => t.Records ts (found a ++ known)

theorem records_pure {a : α} {found : α → List Expr} (h : found a ⊆ known) :
    Records ts known (pure a) found := by
  intro s hs
  exact hs.mono (List.append_subset.mpr ⟨h, List.Subset.refl known⟩)

/-- What the first rule finds is known to the second one. -/
theorem Records.bind {x : Parse α} {f : α → Parse β} {found : α → List Expr}
    {found' : β → List Expr} (hx : Records ts known x found)
    (hf : ∀ a, Records ts (found a ++ known) (f a) found') :
    Records ts known (x >>= f) found' := by
  intro s hs
  have hfirst := hx s hs
  rw [run_bind]
  cases hr : x.run s with
  | error e t =>
    rw [hr] at hfirst
    exact hfirst
  | ok a t =>
    rw [hr] at hfirst
    have hsecond := hf a t hfirst
    dsimp only
    cases hr' : (f a).run t with
    | error e u =>
      rw [hr'] at hsecond
      exact hsecond.mono (List.subset_append_right _ _)
    | ok b u =>
      rw [hr'] at hsecond
      refine hsecond.mono ?_
      intro e he
      rcases List.mem_append.mp he with he | he
      · exact List.mem_append_left _ he
      · exact List.mem_append_right _ (List.mem_append_right _ he)

theorem Records.ite {x y : Parse α} {found : α → List Expr} {b : Prop} [Decidable b]
    (hx : Records ts known x found) (hy : Records ts known y found) :
    Records ts known (if b then x else y) found := by
  split
  · exact hx
  · exact hy

theorem records_here : Records ts known here fun _ => [] := fun _ hs => hs

theorem records_peek : Records ts known peek fun _ => [] := fun _ hs => hs

theorem records_skip : Records ts known skip fun _ => [] := fun _ hs => hs.next

theorem records_fail {fault : SyntaxFault} {found : α → List Expr} :
    Records ts known (fail fault) found := fun _ hs => hs

theorem records_report {event : Event}
    (hevent : ∀ start stop height, event ≠ .expressionParsed start stop height) :
    Records ts known (report event) fun _ => [] := by
  intro s hs
  exact hs.log hs.cursor fun start stop height heq => absurd heq (hevent start stop height)

theorem records_expression : Records ts known expression fun e => [e] := by
  intro s hs
  simp only [run, expression]
  cases hread : readExpr s.cursor with
  | error e => exact hs
  | ok x => exact hs.expression ⟨x.2.2, hread⟩

theorem records_separator {c : Char} {place : Place} :
    Records ts known (separator c place) fun _ => [] :=
  records_peek.bind fun _ => .ite records_skip records_fail

theorem records_equals {place : Place} : Records ts known (equals place) fun _ => [] :=
  records_here.bind fun _ => .ite records_skip records_fail

theorem records_name {place : Place} : Records ts known (name place) fun _ => [] :=
  records_peek.bind fun _ =>
    .ite (records_skip.bind fun _ => records_pure (List.nil_subset _)) records_fail

/-- What each turn of a repetition finds stays known in the next ones. The induction is that of the
repetition. -/
theorem records_many {item? : Token → Option (Parse α)} {found : α → List Expr}
    (hitem : ∀ t item, item? t = some item → ∀ known, Records ts known item found) :
    Records ts known (many item?) fun as => as.flatMap found := by
  intro s hs
  simp only [run, many]
  fun_induction items item? s generalizing known with
  | case1 s hr => exact hs
  | case2 s hr hi => exact hs
  | case3 s hr item hi hn e t hrun =>
    have hfirst := hitem _ item hi known _ hs.next
    simp only [run, hrun] at hfirst
    exact hfirst
  | case4 s hr item hi hn a t hrun ht e u htail ih =>
    have hfirst := hitem _ item hi known _ hs.next
    simp only [run, hrun] at hfirst
    have hrest := ih hfirst
    simp only [htail] at hrest
    exact hrest.mono (List.subset_append_right _ _)
  | case5 s hr item hi hn a t hrun ht as u htail ih =>
    have hfirst := hitem _ item hi known _ hs.next
    simp only [run, hrun] at hfirst
    have hrest := ih hfirst
    simp only [htail] at hrest
    refine hrest.mono ?_
    simp

theorem records_commaList {item : Parse α} {found : α → List Expr} {place : Place}
    (hitem : ∀ known, Records ts known item found) :
    Records ts known (commaList item place) fun as => as.flatMap found := by
  have hmore (known : List Expr) : Records ts known
      (many fun t => if t.isSeparator ',' then some item else none) fun as => as.flatMap found := by
    refine records_many ?_
    intro t item' hi
    obtain ⟨_, rfl⟩ : t.isSeparator ',' ∧ item = item' := by simpa using hi
    exact hitem
  refine records_peek.bind fun _ => .ite ?_ ?_
  · exact records_skip.bind fun _ => records_pure (by simp)
  · exact (hitem _).bind fun first => (hmore _).bind fun others =>
      records_separator.bind fun _ => records_pure (by simp)

theorem records_binding {k : Keyword} : Records ts known (binding k) fun b => [b.2] :=
  records_name.bind fun _ => records_equals.bind fun _ => records_expression.bind fun _ =>
    records_separator.bind fun _ => records_pure (by simp)

theorem records_condition {k : Keyword} : Records ts known (condition k) fun e => [e] :=
  records_separator.bind fun _ => records_expression.bind fun _ =>
    records_separator.bind fun _ => records_pure (by simp)

theorem records_noStatement {found : α → List Expr} : Records ts known noStatement found :=
  records_peek.bind fun _ => .ite records_fail records_fail

section Forms

variable {block : Place → Parse (List Stmt)} {form : Parse Stmt}
  (hblock : ∀ place known, Records ts known (block place) stmtsExpressions)

include hblock

/-- Each statement form logs the expressions of its statement. -/
theorem records_form {k : Keyword} (hf : form? block k = some form) :
    Records ts known form Stmt.expressions := by
  cases k with
  | print =>
    obtain rfl := Option.some.inj hf
    -- a text and a value are followed by the same separators
    have hend (known : List Expr) (stmt : Stmt) : Records ts (stmt.expressions ++ known) (do
        separator ')' .afterPrintArgument
        separator ';' (.afterStatement .print)
        return stmt) Stmt.expressions :=
      records_separator.bind fun _ => records_separator.bind fun _ => records_pure (by simp)
    refine records_separator.bind fun _ => records_peek.bind fun t => .ite ?_ ?_
    · exact records_skip.bind fun _ => (records_pure (by simp [Stmt.expressions])).bind (hend _)
    · have hvalue (known : List Expr) :
          Records ts known (Stmt.printValue <$> expression) Stmt.expressions :=
        records_expression.bind fun e => records_pure (by simp [Stmt.expressions])
      exact (hvalue _).bind (hend _)
  | branch =>
    obtain rfl := Option.some.inj hf
    refine records_condition.bind fun e => (hblock _ _).bind fun yes => records_peek.bind fun t =>
      .ite ?_ ?_
    · exact records_skip.bind fun _ => (hblock _ _).bind fun no =>
        records_pure (by simp [Stmt.expressions, elseExpressions])
    · exact records_pure (by simp [Stmt.expressions, elseExpressions])
  | exit =>
    obtain rfl := Option.some.inj hf
    exact records_separator.bind fun _ => records_expression.bind fun e =>
      records_separator.bind fun _ =>
      records_separator.bind fun _ => records_pure (by simp [Stmt.expressions])
  | declare =>
    obtain rfl := Option.some.inj hf
    exact records_binding.bind fun b => records_pure (by simp [Stmt.expressions])
  | assign =>
    obtain rfl := Option.some.inj hf
    exact records_binding.bind fun b => records_pure (by simp [Stmt.expressions])
  | loop =>
    obtain rfl := Option.some.inj hf
    exact records_condition.bind fun e => (hblock _ _).bind fun body =>
      records_pure (by simp [Stmt.expressions])
  | call =>
    obtain rfl := Option.some.inj hf
    exact records_name.bind fun f => records_separator.bind fun _ =>
      (records_commaList fun _ => records_expression).bind fun args =>
        records_separator.bind fun _ =>
        records_pure (by simp [Stmt.expressions])
  | processor =>
    obtain rfl := Option.some.inj hf
    exact records_name.bind fun p => records_separator.bind fun _ =>
      (records_commaList fun _ => records_name).bind fun params => (hblock _ _).bind fun body =>
        records_pure (by simp [Stmt.expressions])
  | otherwise => simp [form?] at hf

theorem records_statements : Records ts known (statements block) stmtsExpressions := by
  have h : Records ts known (statements block) fun ss => ss.flatMap Stmt.expressions := by
    refine records_many ?_
    intro t item hi known
    cases hk : t.kind with
    | keyword k =>
      simp only [hk, Option.map_eq_some_iff] at hi
      obtain ⟨form, hf, rfl⟩ := hi
      exact (records_form hblock hf).bind fun stmt => (records_report (by simp)).bind fun _ =>
        records_pure (by simp)
    | _ => simp [hk] at hi
  simpa only [← stmtsExpressions_eq_flatMap] using h

end Forms

theorem records_block (n : Nat) (place : Place) (known : List Expr) :
    Records ts known (block n place) stmtsExpressions := by
  induction n generalizing place known with
  | zero => exact records_separator.bind fun _ => records_fail
  | succ n ih =>
    refine records_separator.bind fun _ => (records_statements ih).bind fun body =>
      records_peek.bind fun _ =>
        .ite ?_ (records_here.bind fun _ => .ite records_fail records_noStatement)
    exact records_skip.bind fun _ => records_pure (by simp)

/-- Reading a program logs the height of every expression that is read, also if it fails later
on. -/
theorem records_program : Records ts known program stmtsExpressions := by
  refine (records_statements (records_block nestingLimit)).bind fun stmts =>
    records_here.bind fun _ =>
    .ite ?_ records_noStatement
  exact (records_report (by simp)).bind fun _ => records_pure (by simp)

end Parse

theorem parseExpr_height_le {ts : List Token} {start stop : Nat} {e : Expr}
    (h : parseExpr ts start = .ok (e, stop)) : e.height ≤ nestingLimit := by
  obtain ⟨o, d, hread, rfl, _⟩ := parseExpr_eq_ok.mp h
  obtain ⟨_, _, ⟨_, _, _, hheight⟩, _⟩ := readExpr_sound (Cursor.ofTokens_proper ts start) hread
  exact hheight

theorem readExpr_height {c : Cursor} (hc : c.Proper) {o : Operand} {d : c.Beyond}
    (h : readExpr c = .ok (o, d)) : o.height = o.expr.height := by
  obtain ⟨_, _, _, hheight, _⟩ := readExpr_sound hc ⟨d.2, h⟩
  exact hheight

/-- What is logged while a program is read are the heights of its expressions. -/
theorem parseFrom_records (ts : List Token) (i : Nat) :
    ∃ s : ParseState, s.events.toList = (parseFrom (.ofTokens ts i)).1.events ∧ s.Records ts [] ∧
      ∀ q, (parseFrom (.ofTokens ts i)).1.result = .ok q → s.Records ts (stmtsExpressions q) := by
  have hstart : ParseState.Records ts [] ⟨.ofTokens ts i, #[]⟩ := ⟨rfl, by simp, by simp⟩
  have hrun := Parse.records_program _ hstart
  unfold parseFrom
  cases hr : Parse.program.run ⟨.ofTokens ts i, #[]⟩ with
  | error e s =>
    rw [hr] at hrun
    exact ⟨s, rfl, hrun, by simp⟩
  | ok q s =>
    rw [hr] at hrun
    refine ⟨s, rfl, hrun.mono (List.nil_subset _), ?_⟩
    intro q' hq
    obtain rfl : q = q' := by simpa using hq
    simpa using hrun

theorem blockDepth_le_of_parseFrom {c : Cursor} (hc : c.Proper) {q : Program}
    (h : (parseFrom c).1.result = .ok q) : blockDepth q ≤ nestingLimit := by
  unfold parseFrom at h
  cases hr : Parse.program.run ⟨c, #[]⟩ with
  | error e s => simp [hr] at h
  | ok q' s =>
    obtain rfl : q' = q := by simpa [hr] using h
    obtain ⟨_, _, _, _, hdepth, _⟩ := (Parse.run_program_iff (s := ⟨c, #[]⟩) hc).mp ⟨s, hr⟩
    exact hdepth

namespace Parser

variable {p : Parser}

/-- What a call reports, up to its failure if it fails. -/
def log (p : Parser) : List Event :=
  match Counted.program ⟨.ofTokens p.tokens p.index, #[]⟩ p.depth with
  | (.error _ s, _) => s.1.events.toList
  | (.ok _ s, _) => s.1.events.toList

theorem log_eq (h : p.depth = 0) : p.log = (parseFrom (.ofTokens p.tokens p.index)).1.events := by
  rw [log, h, Counted.does_program]
  simp only [parseFrom, Parse.run]
  cases Parse.program ⟨.ofTokens p.tokens p.index, #[]⟩ <;> rfl

/-- Accepted trees are within the limits, however often a parser was called and whether the calls
succeeded or not. The blocks of a program and the trees of its expressions are at most 512 deep and
high, as is every tree that is read from some token on. The height found beside a tree is that of
the tree, in which parentheses and the signs of literals have no nodes; and it is the one that is
logged. -/
theorem accepted_within_limits (ts : List Token) (n : Nat) :
    let p := (new ts).after n
    (∀ q, p.parse.1 = .ok q → blockDepth q ≤ 512 ∧ ∀ e ∈ stmtsExpressions q, e.height ≤ 512 ∧
      ∃ start stop, parseExpr ts start = .ok (e, stop) ∧
        .expressionParsed start stop e.height ∈ p.log) ∧
    (∀ start stop height, .expressionParsed start stop height ∈ p.log →
      ∃ e, parseExpr ts start = .ok (e, stop) ∧ height = e.height) ∧
    (∀ start e stop, parseExpr ts start = .ok (e, stop) → e.height ≤ 512) ∧
    ∀ start o d, readExpr (.ofTokens ts start) = .ok (o, d) → o.height = o.expr.height := by
  intro p
  have htokens : p.tokens = ts := after_tokens (new ts) n
  have hp : p.Settled := (settled_new ts).after n
  have hparse := parse_eq hp.depth
  have hlog := log_eq hp.depth
  obtain ⟨s, hs, hrecords, hprogram⟩ := parseFrom_records ts p.index
  rw [htokens] at hparse hlog
  have hmem (event : Event) : event ∈ p.log ↔ event ∈ s.events := by
    rw [hlog, ← hs, Array.mem_toList_iff]
  refine ⟨?_, ?_, fun _ _ _ => parseExpr_height_le,
    fun start _ _ => readExpr_height (Cursor.ofTokens_proper ts start)⟩
  · intro q hq
    rw [hparse] at hq
    refine ⟨blockDepth_le_of_parseFrom (Cursor.ofTokens_proper ts _) hq, ?_⟩
    intro e he
    obtain ⟨start, stop, he, hlogged⟩ := (hprogram q hq).known e he
    exact ⟨parseExpr_height_le he, start, stop, he, (hmem _).mpr hlogged⟩
  · intro start stop height hlogged
    exact hrecords.heights start stop height ((hmem _).mp hlogged)

/-- The tokens of `exit exit((-3));`. -/
def twiceExitTokens : List Token :=
  [⟨.keyword .exit, "exit", ⟨0, 1, 1⟩⟩, ⟨.keyword .exit, "exit", ⟨5, 1, 6⟩⟩,
    ⟨.separator, "(", ⟨9, 1, 10⟩⟩, ⟨.separator, "(", ⟨10, 1, 11⟩⟩, ⟨.operator, "-", ⟨11, 1, 12⟩⟩,
    ⟨.int, "3", ⟨12, 1, 13⟩⟩, ⟨.separator, ")", ⟨13, 1, 14⟩⟩, ⟨.separator, ")", ⟨14, 1, 15⟩⟩,
    ⟨.separator, ";", ⟨15, 1, 16⟩⟩, ⟨.eof, "", ⟨16, 1, 17⟩⟩]

/-- The call after a failed one reads a program, and logs its expression with the height 1. -/
theorem within_limits_twiceExit :
    (∃ e, (new twiceExitTokens).parse.1 = .error e) ∧
      ((new twiceExitTokens).after 1).parse.1 = .ok [.exit (.num (-3))] ∧
      blockDepth [.exit (.num (-3))] ≤ 512 ∧
      ∃ start stop, parseExpr twiceExitTokens start = .ok (.num (-3), stop) ∧
        .expressionParsed start stop 1 ∈ ((new twiceExitTokens).after 1).log := by
  have hfirst : (new twiceExitTokens).parse.1 =
      .error (.syntactic
        ⟨⟨.keyword .exit, "exit", ⟨5, 1, 6⟩⟩, .expected '(' (.afterKeyword .exit)⟩) := by cbv
  have hsecond : ((new twiceExitTokens).after 1).parse.1 = .ok [.exit (.num (-3))] := by cbv
  obtain ⟨hprogram, _⟩ := accepted_within_limits twiceExitTokens 1
  obtain ⟨hdepth, hexpressions⟩ := hprogram _ hsecond
  have hmem : Expr.num (-3) ∈ stmtsExpressions [.exit (.num (-3))] := by
    simp [stmtsExpressions, Stmt.expressions]
  exact ⟨⟨_, hfirst⟩, hsecond, hdepth, (hexpressions _ hmem).2⟩

end Parser

end ImpAsm

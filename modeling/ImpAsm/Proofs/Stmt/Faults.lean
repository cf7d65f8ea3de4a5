import ImpAsm.Proofs.Stmt.Programs
import ImpAsm.Proofs.Stmt.Sentences

open scoped Computability

namespace ImpAsm

/-- An expression starts with no string and with no closing parenthesis. -/
theorem StartsUnary.kind {l : Lexeme} (h : StartsUnary l) (hl : l.Proper) :
    l.token.kind ≠ .str ∧ ¬ l.token.isSeparator ')' := by
  rcases h with ⟨op, ho⟩ | ⟨t, rfl, ht⟩
  · have hk := Derives.kind_of_operator? hl ho
    simp [hk, Token.isSeparator]
  · rcases ht with ⟨hk, _⟩ | hk | hk | hopen
    · simp [hk, Token.isSeparator]
    · simp [hk, Token.isSeparator]
    · simp [hk, Token.isSeparator]
    · have hk := Derives.kind_of_isSeparator hopen
      simp only [Token.isSeparator, Bool.and_eq_true, beq_iff_eq] at hopen ⊢
      simp [hk, hopen.2]

theorem startsUnary_of_mem {ls : List Lexeme} (h : ls ∈ expressions 1) :
    ∃ l ms, ls = l :: ms ∧ StartsUnary l := by
  obtain ⟨e, n, hd⟩ := h
  obtain ⟨_, bs, _, _, rfl, ha⟩ := hd.first_unary (by omega)
  obtain ⟨l, ms, rfl, hl⟩ := ha.startsUnary
  exact ⟨l, ms ++ bs, rfl, hl⟩

namespace Parse

variable {α : Type} {F : Option Lexeme → Prop}

instance : Nonempty Expr := ⟨.bool true⟩

instance : Nonempty Stmt := ⟨.printText ""⟩

/-- No `else` comes next. -/
def NotElseNext (next : Option Lexeme) : Prop := ∀ l ∈ next, ¬ l.token.isKeyword .otherwise

/-- No statement and no `else` comes next. -/
def NoKeywordNext (next : Option Lexeme) : Prop := ∀ l ∈ next, ∀ k, l.token.kind ≠ .keyword k

/-- Nothing but the end of the input comes next. -/
def EndNext (next : Option Lexeme) : Prop := ∀ l ∈ next, l.token.kind = .eof

theorem NoKeywordNext.notElse {next : Option Lexeme} (h : NoKeywordNext next) :
    NotElseNext next := by
  intro l hl hother
  exact h l hl _ (kind_of_isKeyword hother)

/-- The last separator of a rule, with what the rule returns. -/
theorem decides_last (c : Char) (place : Place) (a : α) :
    Decides (do separator c place; return a) (separatorText c) F :=
  (decides_separator c place).thenPure fun _ => decides_pure a

theorem decides_end (place place' : Place) (a : α) :
    Decides (do separator ')' place; separator ';' place'; return a) endText F :=
  (decides_separator ')' place).andThen fun _ => decides_last ';' place' a

theorem decides_binding (k : Keyword) : Decides (binding k) bindingText F := by
  have hend (x : String) (e : Expr) := decides_last (F := F) ';' (.afterStatement k) (x, e)
  have hvalue (x : String) := decides_expression.bind (hend x) (continues_separator ';' 1 F)
  exact (decides_name (.afterKeyword k)).andThen fun x =>
    (decides_equals .afterVariableName).andThen fun _ => hvalue x

theorem decides_condition (k : Keyword) : Decides (condition k) conditionText F := by
  have hend (e : Expr) := decides_last (F := F) ')' (.afterCondition k) e
  have hinner := decides_expression.bind hend (continues_separator ')' 1 F)
  exact (decides_separator '(' (.afterKeyword k)).andThen fun _ => hinner

theorem decides_arguments (place : Place) :
    Decides (commaList expression place) (listText (expressions 1)) F := by
  refine decides_commaList place decides_expression (fun l hl hk => endsBefore_separator hl hk) ?_
  intro ls hls
  obtain ⟨l, ms, rfl, hl⟩ := startsUnary_of_mem hls
  exact ⟨l, ms, rfl, fun hp => (hl.kind hp).2⟩

theorem decides_parameters (place place' : Place) :
    Decides (commaList (name place) place') (listText nameText) F := by
  refine decides_commaList (G := anyNext) place' (decides_name place) (fun _ _ _ => trivial) ?_
  intro ls hls
  obtain ⟨l, ⟨_, hk⟩, rfl⟩ := hls
  refine ⟨l, [], rfl, ?_⟩
  intro _ hclose
  simp [Derives.kind_of_isSeparator hclose] at hk

section Forms

variable {block : Place → Parse (List Stmt)} {form : Parse Stmt}

theorem form?_of_ne_otherwise (block : Place → Parse (List Stmt)) {k : Keyword}
    (hk : k ≠ .otherwise) :
    ∃ form, form? block k = some form := by
  cases k with
  | otherwise => exact absurd rfl hk
  | _ => exact ⟨_, rfl⟩

theorem decides_exit (hf : form? block .exit = some form) : Decides form (formText .exit) F := by
  obtain rfl := Option.some.inj hf
  rw [formText_exit]
  have hend (e : Expr) :=
    decides_end (F := F) .afterExitStatus (.afterStatement .exit) (Stmt.exit e)
  have hstatus := decides_expression.bind hend (continues_separator_mul ')' _ 1 F)
  exact (decides_separator '(' (.afterKeyword .exit)).andThen fun _ => hstatus

theorem decides_print (hf : form? block .print = some form) : Decides form (formText .print) F := by
  obtain rfl := Option.some.inj hf
  rw [formText_print]
  have hend (stmt : Stmt) :=
    decides_end (F := F) .afterPrintArgument (.afterStatement .print) stmt
  have htext (t : Token) := (decides_pure (Stmt.printText t.text)).andThen hend
  rw [one_mul] at htext
  have hvalue := (decides_expression.thenPure fun e => decides_pure (Stmt.printValue e)).bind hend
    (continues_separator_mul ')' _ 1 F)
  have hargument := decides_peek (P := fun t => t.kind = .str) (by intro t ht; simp [ht])
    (fun t _ => htext t) hvalue (by
      intro w ls l hopens hw hl
      obtain ⟨rest, rfl, hls, _⟩ := hopens
      obtain ⟨es, hes, _, _, rfl⟩ := Language.mem_mul.mp hls
      obtain ⟨l', ms, rfl, hstart⟩ := startsUnary_of_mem hes
      obtain rfl : l' = l := by simpa using hw
      exact (hstart.kind hl).1)
  exact (decides_separator '(' (.afterKeyword .print)).andThen fun _ => hargument

theorem decides_declare (hf : form? block .declare = some form) :
    Decides form (formText .declare) F := by
  obtain rfl := Option.some.inj hf
  rw [formText_declare]
  exact (decides_binding .declare).thenPure fun b => decides_pure (Stmt.declare b.1 b.2)

theorem decides_assign (hf : form? block .assign = some form) :
    Decides form (formText .assign) F := by
  obtain rfl := Option.some.inj hf
  rw [formText_assign]
  exact (decides_binding .assign).thenPure fun b => decides_pure (Stmt.assign b.1 b.2)

theorem decides_call (hf : form? block .call = some form) : Decides form (formText .call) F := by
  obtain rfl := Option.some.inj hf
  rw [formText_call]
  exact (decides_name (.afterKeyword .call)).andThen fun f =>
    (decides_separator '(' .afterFunctionName).andThen fun _ =>
      (decides_arguments .afterCallArguments).andThen fun args =>
        decides_last ';' (.afterStatement .call) (Stmt.call f args)

variable (hblock : ∀ place F, Decides (block place) blockText F)

include hblock

theorem decides_processor (hf : form? block .processor = some form) :
    Decides form (formText .processor) F := by
  obtain rfl := Option.some.inj hf
  rw [formText_processor]
  exact (decides_name (.afterKeyword .processor)).andThen fun p =>
    (decides_separator '(' .afterProcessorName).andThen fun _ =>
      (decides_parameters .inParameterList .afterParameterList).andThen fun params =>
        (hblock .afterParameterList F).thenPure fun body =>
          decides_pure (Stmt.processor p params body)

theorem decides_loop (hf : form? block .loop = some form) : Decides form (formText .loop) F := by
  obtain rfl := Option.some.inj hf
  rw [formText_loop]
  exact (decides_condition .loop).andThen fun e =>
    (hblock (.afterCondition .loop) F).thenPure fun body => decides_pure (Stmt.loop e body)

/-- An `if` without an `else` is decided where none comes next. -/
theorem decides_branch (hf : form? block .branch = some form) :
    Decides form (formText .branch) NotElseNext := by
  obtain rfl := Option.some.inj hf
  rw [formText_branch]
  have hno (e : Expr) (yes : List Stmt) :=
    decides_peek (F := NotElseNext) (P := fun t => t.isKeyword .otherwise)
      (by intro t ht; simp [kind_of_isKeyword ht])
      (fun _ _ => (hblock (.afterKeyword .otherwise) NotElseNext).thenPure fun no =>
        decides_pure (Stmt.branch e yes (some no)))
      (decides_pure (Stmt.branch e yes none)) (by
        intro w ls l hopens hw _
        obtain ⟨rest, rfl, hls, hnext⟩ := hopens
        obtain rfl : ls = [] := hls
        exact hnext l hw)
  exact (decides_condition .branch).andThen fun e =>
    (hblock (.afterCondition .branch) anyNext).andThen fun yes => hno e yes

/-- Each statement form is decided behind its keyword. -/
theorem decides_form {k : Keyword} (hf : form? block k = some form) :
    Decides form (formText k) NotElseNext := by
  cases k with
  | exit => exact decides_exit hf
  | print => exact decides_print hf
  | declare => exact decides_declare hf
  | assign => exact decides_assign hf
  | branch => exact decides_branch hblock hf
  | loop => exact decides_loop hblock hf
  | call => exact decides_call hf
  | processor => exact decides_processor hblock hf
  | otherwise => simp [form?] at hf

theorem decides_statements : Decides (statements block) programText NoKeywordNext := by
  rw [programText_eq]
  refine decides_many (G := NotElseNext) ?_ ?_ ?_ ?_ ?_ ?_
  · intro t
    constructor
    · intro h
      obtain ⟨k, hk, hother⟩ := h
      obtain ⟨form, hf⟩ := form?_of_ne_otherwise block hother
      simp [hk, hf]
    · intro h
      obtain ⟨item, h⟩ := h
      cases hk : t.kind with
      | keyword k =>
        refine ⟨k, hk, ?_⟩
        rintro rfl
        simp [hk, form?] at h
      | _ => simp [hk] at h
  · intro t h
    obtain ⟨k, hk, _⟩ := h
    simp [hk]
  · intro t item h
    cases hk : t.kind with
    | keyword k =>
      simp only [hk, Option.map_eq_some_iff] at h
      obtain ⟨form, hf, rfl⟩ := h
      rw [statementText_of_keyword hk]
      exact (decides_form hblock hf).thenPure fun stmt =>
        (decides_report (.statementParsed k)).thenPure fun _ => decides_pure stmt
    | _ => simp [hk] at h
  · intro next h
    exact h.notElse
  · intro l h hstart
    obtain ⟨k, hk, _⟩ := hstart
    exact h l rfl k hk
  · intro t h l hl hother
    obtain ⟨k, hk, hne⟩ := h
    obtain rfl : ⟨t, none⟩ = l := by simpa using hl
    rw [kind_of_isKeyword hother] at hk
    exact hne (TokenKind.keyword.inj hk).symm

end Forms

/-- Behind the statements of a block only its closing brace is possible. -/
theorem decides_close (body : List Stmt) :
    Decides (do
      if (← peek).isSeparator '\x7d' then
        skip
        return body
      else if (← here).atEnd then fail (.expected '\x7d' .closingBlock)
      else noStatement) (separatorText '\x7d') F := by
  refine ⟨viable_separatorText '\x7d', ?_⟩
  intro s hs
  simp only [run_bind, run_peek]
  split
  · next h => exact finds_separator hs h
  next h =>
  simp only [run_bind, run_here]
  split
  · exact misses_separator rfl h
  · obtain ⟨e, he, htoken⟩ := run_noStatement (α := List Stmt) s
    rw [he]
    exact misses_separator htoken h

theorem decides_block (n : Nat) (place : Place) (F : Option Lexeme → Prop) :
    Decides (block n place) blockText F := by
  have hclose : Viable (separatorText '\x7d') [] := viable_separatorText '\x7d'
  have hviable : Viable (programText * separatorText '\x7d') [] := .mul (.of_mem ⟨[], .nil⟩) hclose
  -- The induction is on the blocks that may still be nested. The grammar has no such bound, so the
  -- last of them fails for its limit and not for a lexeme.
  induction n generalizing place F with
  | zero =>
    rw [blockText_eq]
    exact (decides_separator '\x7b' place).andThen fun _ => decides_fail_limit (.inr rfl) hviable
  | succ n ih =>
    have hbody := (decides_statements ih).bind (decides_close (F := F)) <| continues_single (by
      intro l hl l' hl' k hk
      obtain rfl : l = l' := by simpa using hl'
      simp [Derives.kind_of_isSeparator hl.2] at hk)
    rw [blockText_eq]
    exact (decides_separator '\x7b' place).andThen fun _ => hbody

/-- Behind the statements of a program only the end of the input is possible. -/
theorem decides_ending (p : Program) :
    Decides (do
      if (← here).atEnd then
        report (.programParsed p.length)
        return p
      else noStatement) 1 EndNext := by
  refine ⟨viable_one, ?_⟩
  intro s hs
  simp only [run_bind, run_here]
  split
  · exact finds_nil _
  next h =>
  obtain ⟨e, he, htoken⟩ := run_noStatement (α := Program) s
  rw [he]
  refine Misses.of_breaks htoken ⟨viable_one, ?_⟩
  intro w hw ls hopens
  obtain ⟨rest, rfl, hls, hend⟩ := hopens
  obtain rfl : ls = [] := hls
  -- A token that is not the end of the input stands here, so nothing may end in front of it.
  have hkind : s.cursor.peek.kind ≠ .eof := by simpa [Cursor.atEnd] using h
  cases hrest : s.cursor.rest.head? with
  | none => exact hs.rest_ne_nil hkind (by simpa using hrest)
  | some l =>
    rw [hrest, List.nil_append] at hw
    rw [Cursor.peek_of_head? hrest] at hkind
    exact hkind (hend l hw)

/-- A program is missed at the first token that no program can have at its place. -/
theorem decides_program : Decides program programText EndNext := by
  have h := (decides_statements (decides_block nestingLimit)).bind decides_ending (by
    intro ls hls rest hend l hl k hk
    obtain rfl : ls = [] := hls
    have heof := hend l hl
    rw [hk] at heof
    simp at heof)
  rwa [mul_one] at h

end Parse

end ImpAsm

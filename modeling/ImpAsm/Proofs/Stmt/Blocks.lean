import ImpAsm.Proofs.Stmt.Forms

namespace ImpAsm

namespace Parse

variable {G : Cursor → Prop}

/-- No `else` stands here. -/
def NotElse (d : Cursor) : Prop := ¬ d.peek.isKeyword .otherwise

theorem not_closing_of_readable {c d : Cursor} {ls : List Lexeme} {e : Expr} (hc : c.Proper)
    (hsp : c.Spans ls d) (h : Readable ls e) :
    ¬ c.peek.isSeparator ')' ∧ c.peek.kind ≠ .str := by
  obtain ⟨n, hd, _⟩ := h
  have hp : ∀ l ∈ ls, l.Proper := by
    intro l hl
    exact hc.lexemes l (by rw [hsp.rest]; exact List.mem_append_left _ hl)
  obtain ⟨l, ms, rfl, hk⟩ := hd.head_kind hp
  rw [Cursor.peek_of_head? (Cursor.spans_cons.mp hsp).1]
  rcases hk with hk | hk
  · constructor
    · intro hs
      simp [Derives.kind_of_isSeparator hs] at hk
    · intro hs
      simp [hs] at hk
  · have h' := Derives.kind_of_isSeparator hk
    simp only [Token.isSeparator, Bool.and_eq_true, beq_iff_eq] at hk ⊢
    simp [h', hk.2]

theorem recognizes_arguments (place : Place) :
    Recognizes (commaList expression place)
      (fun ls as => ∃ ms bs, ls = ms ++ bs ∧ CommaSeparated Readable ms as ∧ IsSeparator ')' bs)
      Anywhere :=
  recognizes_commaList place recognizes_expression
    (fun hl hk => noOperator_of_head? hl (by simp [hk]))
    (fun hc hsp hR => (not_closing_of_readable hc hsp hR).1)

theorem recognizes_parameters (place place' : Place) :
    Recognizes (commaList (name place) place')
      (fun ls as => ∃ ms bs, ls = ms ++ bs ∧ CommaSeparated IsName ms as ∧ IsSeparator ')' bs)
      Anywhere := by
  refine recognizes_commaList place' (recognizes_name place) (fun _ _ => trivial) ?_
  intro c d ls x _ hsp hR hs
  obtain ⟨t, rfl, ht, _⟩ := hR
  rw [Cursor.peek_of_head? (Cursor.spans_singleton.mp hsp).1] at hs
  rw [show t.kind = .separator from Derives.kind_of_isSeparator hs] at ht
  simp at ht

theorem recognizes_binding (k : Keyword) :
    Recognizes (binding k)
      (fun ls b => ∃ xs as es cs, ls = xs ++ (as ++ (es ++ cs)) ∧ IsName xs b.1 ∧ IsEquals as ∧
        Readable es b.2 ∧ IsSeparator ';' cs) Anywhere := by
  have h : Recognizes (binding k) _ Anywhere :=
    (recognizes_name (.afterKeyword k)).andThen fun x =>
      (recognizes_equals .afterVariableName).andThen fun _ =>
        recognizes_expression.beforeSeparator ';' (.afterStatement k) fun e =>
          recognizes_pure (x, e)
  refine h.congr ?_
  intro ls b
  constructor
  · intro h
    obtain ⟨xs, _, x, rfl, hx, as, _, _, rfl, ha, es, _, e, rfl, he, cs, _, _, rfl, hc, rfl, rfl⟩ :=
      h
    exact ⟨xs, as, es, cs, by simp, hx, ha, he, hc⟩
  · intro h
    obtain ⟨xs, as, es, cs, rfl, hx, ha, he, hc⟩ := h
    exact ⟨xs, _, b.1, rfl, hx, as, _, (), rfl, ha, es, _, b.2, rfl, he, cs, [], (), by simp,
      hc, rfl, rfl⟩

theorem recognizes_condition (k : Keyword) :
    Recognizes (condition k)
      (fun ls e => ∃ as es bs, ls = as ++ (es ++ bs) ∧ IsSeparator '(' as ∧ Readable es e ∧
        IsSeparator ')' bs) Anywhere := by
  have h : Recognizes (condition k) _ Anywhere :=
    (recognizes_separator '(' (.afterKeyword k)).andThen fun _ =>
      recognizes_expression.beforeSeparator ')' (.afterCondition k) fun e => recognizes_pure e
  refine h.congr ?_
  intro ls e
  constructor
  · intro h
    obtain ⟨as, _, _, rfl, ha, es, _, e, rfl, he, bs, _, _, rfl, hb, rfl, rfl⟩ := h
    exact ⟨as, es, bs, by simp, ha, he, hb⟩
  · intro h
    obtain ⟨as, es, bs, rfl, ha, he, hb⟩ := h
    exact ⟨as, _, (), rfl, ha, es, _, e, rfl, he, bs, [], (), by simp, hb, rfl, rfl⟩

/-- What follows a keyword, with blocks nested at most `n` deep. -/
def FormAt (n : Nat) (k : Keyword) (ls : List Lexeme) (s : Stmt) : Prop :=
  Spells Readable ls (.after k s) ∧ s.blockDepth ≤ n

/-- A block nested at most `n` deep. -/
def BlockAt (n : Nat) (ls : List Lexeme) (ss : List Stmt) : Prop :=
  Spells Readable ls (.block ss) ∧ blockDepth ss < n

section Forms

variable {n : Nat} {block : Place → Parse (List Stmt)} {form : Parse Stmt}

theorem recognizes_exit (hf : form? block .exit = some form) :
    Recognizes form (FormAt n .exit) Anywhere := by
  obtain rfl := Option.some.inj hf
  have h := (recognizes_separator '(' (.afterKeyword .exit)).andThen fun _ =>
    recognizes_expression.beforeSeparator ')' .afterExitStatus fun e =>
      (recognizes_separator ';' (.afterStatement .exit)).andThen fun _ =>
        recognizes_pure (Stmt.exit e)
  refine h.congr ?_
  intro ls s
  constructor
  · intro h
    obtain ⟨as, _, _, rfl, ha, es, _, e, rfl, he, bs, _, _, rfl, hb, cs, _, _, rfl, hc, rfl, rfl⟩ :=
      h
    refine ⟨?_, Nat.zero_le n⟩
    rw [List.append_nil]
    exact .exit ha he hb hc
  · intro h
    obtain ⟨h, _⟩ := h
    cases h with
    | exit ha he hb hc =>
      exact ⟨_, _, (), rfl, ha, _, _, _, rfl, he, _, _, (), rfl, hb, _, [], (), by simp, hc,
        rfl, rfl⟩

theorem recognizes_print (hf : form? block .print = some form) :
    Recognizes form (FormAt n .print) Anywhere := by
  obtain rfl := Option.some.inj hf
  have hend (stmt : Stmt) := (recognizes_separator ';' (.afterStatement .print)).andThen fun _ =>
    recognizes_pure stmt
  have hargument := recognizes_peek (P := fun t => t.kind = .str) (by intro t ht; simp [ht])
    (fun t _ => (recognizes_pure (Stmt.printText t.text)).andThen fun stmt =>
      (recognizes_separator ')' .afterPrintArgument).andThen fun _ => hend stmt)
    ((recognizes_expression.map Stmt.printValue).beforeSeparator ')' .afterPrintArgument hend) (by
      intro c d ls a hc hsp hS _
      obtain ⟨es, _, _, rfl, ⟨e, he, _⟩, _⟩ := hS
      obtain ⟨m, hsp', _⟩ := hsp.split
      exact (not_closing_of_readable hc hsp' he).2)
  have h := (recognizes_separator '(' (.afterKeyword .print)).andThen fun _ => hargument
  refine h.congr ?_
  intro ls s
  constructor
  · intro h
    obtain ⟨as, _, _, rfl, ha, hx⟩ := h
    rcases hx with ⟨t, _, rfl, ht, _, _, _, rfl, ⟨rfl, rfl⟩, bs, _, _, rfl, hb, cs, _, _, rfl, hc,
      rfl, rfl⟩ | ⟨es, _, _, rfl, ⟨e, he, rfl⟩, bs, _, _, rfl, hb, cs, _, _, rfl, hc, rfl, rfl⟩
    · refine ⟨?_, Nat.zero_le n⟩
      rw [List.append_nil, List.nil_append]
      exact .printText ha ht hb hc
    · refine ⟨?_, Nat.zero_le n⟩
      rw [List.append_nil]
      exact .printValue ha he hb hc
  · intro h
    obtain ⟨h, _⟩ := h
    cases h with
    | @printText t as bs cs ha ht hb hc =>
      exact ⟨as, _, (), rfl, ha,
        .inl ⟨t, bs ++ cs, rfl, ht, [], bs ++ cs, _, rfl, ⟨rfl, rfl⟩, bs, cs, (), rfl, hb, cs, [],
          (), by simp, hc, rfl, rfl⟩⟩
    | @printValue e as es bs cs ha he hb hc =>
      exact ⟨as, _, (), rfl, ha,
        .inr ⟨es, bs ++ cs, _, rfl, ⟨e, he, rfl⟩, bs, cs, (), rfl, hb, cs, [], (), by simp, hc,
          rfl, rfl⟩⟩

theorem recognizes_declare (hf : form? block .declare = some form) :
    Recognizes form (FormAt n .declare) Anywhere := by
  obtain rfl := Option.some.inj hf
  have h := (recognizes_binding .declare).andThen fun b => recognizes_pure (Stmt.declare b.1 b.2)
  refine h.congr ?_
  intro ls s
  constructor
  · intro h
    obtain ⟨_, _, b, rfl, ⟨xs, as, es, cs, rfl, hx, ha, he, hc⟩, rfl, rfl⟩ := h
    refine ⟨?_, Nat.zero_le n⟩
    rw [List.append_nil]
    exact .declare hx ha he hc
  · intro h
    obtain ⟨h, _⟩ := h
    cases h with
    | @declare x e xs as es cs hx ha he hc =>
      exact ⟨_, [], (x, e), by simp, ⟨xs, as, es, cs, rfl, hx, ha, he, hc⟩, rfl, rfl⟩

theorem recognizes_assign (hf : form? block .assign = some form) :
    Recognizes form (FormAt n .assign) Anywhere := by
  obtain rfl := Option.some.inj hf
  have h := (recognizes_binding .assign).andThen fun b => recognizes_pure (Stmt.assign b.1 b.2)
  refine h.congr ?_
  intro ls s
  constructor
  · intro h
    obtain ⟨_, _, b, rfl, ⟨xs, as, es, cs, rfl, hx, ha, he, hc⟩, rfl, rfl⟩ := h
    refine ⟨?_, Nat.zero_le n⟩
    rw [List.append_nil]
    exact .assign hx ha he hc
  · intro h
    obtain ⟨h, _⟩ := h
    cases h with
    | @assign x e xs as es cs hx ha he hc =>
      exact ⟨_, [], (x, e), by simp, ⟨xs, as, es, cs, rfl, hx, ha, he, hc⟩, rfl, rfl⟩

theorem recognizes_call (hf : form? block .call = some form) :
    Recognizes form (FormAt n .call) Anywhere := by
  obtain rfl := Option.some.inj hf
  have h := (recognizes_name (.afterKeyword .call)).andThen fun f =>
    (recognizes_separator '(' .afterFunctionName).andThen fun _ =>
      (recognizes_arguments .afterCallArguments).andThen fun args =>
        (recognizes_separator ';' (.afterStatement .call)).andThen fun _ =>
          recognizes_pure (Stmt.call f args)
  refine h.congr ?_
  intro ls s
  constructor
  · intro h
    obtain ⟨fs, _, f, rfl, hf, as, _, _, rfl, ha, _, _, args, rfl, ⟨es, bs, rfl, he, hb⟩, cs, _, _,
      rfl, hc, rfl, rfl⟩ := h
    refine ⟨?_, Nat.zero_le n⟩
    rw [List.append_nil, List.append_assoc]
    exact .call hf ha he hb hc
  · intro h
    obtain ⟨h, _⟩ := h
    cases h with
    | @call f args fs as es bs cs hf ha he hb hc =>
      exact ⟨fs, _, f, rfl, hf, as, _, (), rfl, ha, es ++ bs, cs, args, by simp,
        ⟨es, bs, rfl, he, hb⟩, cs, [], (), by simp, hc, rfl, rfl⟩

variable (hblock : ∀ place, Recognizes (block place) (BlockAt n) Anywhere)

include hblock

theorem recognizes_processor (hf : form? block .processor = some form) :
    Recognizes form (FormAt n .processor) Anywhere := by
  obtain rfl := Option.some.inj hf
  have h := (recognizes_name (.afterKeyword .processor)).andThen fun p =>
    (recognizes_separator '(' .afterProcessorName).andThen fun _ =>
      (recognizes_parameters .inParameterList .afterParameterList).andThen fun params =>
        (hblock .afterParameterList).andThen fun body =>
          recognizes_pure (Stmt.processor p params body)
  refine h.congr ?_
  intro ls s
  constructor
  · intro h
    obtain ⟨ps, _, p, rfl, hp, as, _, _, rfl, ha, _, _, params, rfl, ⟨es, bs, rfl, he, hb⟩, ys,
      _, body, rfl, ⟨hy, hn⟩, rfl, rfl⟩ := h
    refine ⟨?_, hn⟩
    rw [List.append_nil, List.append_assoc]
    exact .processor hp ha he hb hy
  · intro h
    obtain ⟨h, hn⟩ := h
    cases h with
    | @processor p params body ps as es bs ys hp ha he hb hy =>
      exact ⟨ps, _, p, rfl, hp, as, _, (), rfl, ha, es ++ bs, ys, params, by simp,
        ⟨es, bs, rfl, he, hb⟩, ys, [], body, by simp, ⟨hy, hn⟩, rfl, rfl⟩

theorem recognizes_loop (hf : form? block .loop = some form) :
    Recognizes form (FormAt n .loop) Anywhere := by
  obtain rfl := Option.some.inj hf
  have h := (recognizes_condition .loop).andThen fun e =>
    (hblock (.afterCondition .loop)).andThen fun body => recognizes_pure (Stmt.loop e body)
  refine h.congr ?_
  intro ls s
  constructor
  · intro h
    obtain ⟨_, _, e, rfl, ⟨as, es, bs, rfl, ha, he, hb⟩, ys, _, body, rfl, ⟨hy, hn⟩, rfl, rfl⟩ := h
    refine ⟨?_, hn⟩
    rw [List.append_nil, List.append_assoc, List.append_assoc]
    exact .loop ha he hb hy
  · intro h
    obtain ⟨h, hn⟩ := h
    cases h with
    | @loop e body as es bs ys ha he hb hy =>
      exact ⟨as ++ (es ++ bs), ys, e, by simp, ⟨as, es, bs, rfl, ha, he, hb⟩, ys, [], body, by simp,
        ⟨hy, hn⟩, rfl, rfl⟩

/-- An `if` takes the `else` behind its block if there is one. -/
theorem recognizes_branch (hf : form? block .branch = some form) :
    Recognizes form (FormAt n .branch) NotElse := by
  obtain rfl := Option.some.inj hf
  have hno (e : Expr) (yes : List Stmt) :=
    recognizes_peek (F := NotElse) (P := fun t => t.isKeyword .otherwise)
      (by intro t ht; simp [kind_of_isKeyword ht])
      (fun _ _ => (hblock (.afterKeyword .otherwise)).andThen fun no =>
        (recognizes_pure (Stmt.branch e yes (some no))).mono fun _ _ => trivial)
      ((recognizes_pure (Stmt.branch e yes none)).mono fun _ _ => trivial) (by
        intro c d ls a _ hsp hS hF
        obtain ⟨rfl, _⟩ := hS
        exact Cursor.spans_nil.mp hsp ▸ hF)
  have h := (recognizes_condition .branch).andThen fun e =>
    (hblock (.afterCondition .branch)).andThen fun yes => hno e yes
  refine h.congr ?_
  intro ls s
  constructor
  · intro h
    obtain ⟨_, _, e, rfl, ⟨as, es, bs, rfl, ha, he, hb⟩, ys, _, yes, rfl, ⟨hy, hn⟩, h⟩ := h
    rcases h with ⟨t, _, rfl, ht, ns, _, no, rfl, ⟨hno', hn'⟩, rfl, rfl⟩ | ⟨rfl, rfl⟩
    · refine ⟨?_, ?_⟩
      · rw [List.append_nil, List.append_assoc, List.append_assoc]
        exact .branchElse ha he hb hy ht hno'
      · simp only [Stmt.blockDepth, blockDepthElse]
        omega
    · refine ⟨?_, ?_⟩
      · rw [List.append_nil, List.append_assoc, List.append_assoc]
        exact .branch ha he hb hy
      · simp only [Stmt.blockDepth, blockDepthElse]
        omega
  · intro h
    obtain ⟨h, hn⟩ := h
    cases h with
    | @branch e yes as es bs ys ha he hb hy =>
      simp only [Stmt.blockDepth, blockDepthElse] at hn
      exact ⟨as ++ (es ++ bs), ys, e, by simp, ⟨as, es, bs, rfl, ha, he, hb⟩, ys, [], yes, by simp,
        ⟨hy, by omega⟩, .inr ⟨rfl, rfl⟩⟩
    | @branchElse e yes no t as es bs ys ns ha he hb hy ht hn' =>
      simp only [Stmt.blockDepth, blockDepthElse] at hn
      exact ⟨as ++ (es ++ bs), ys ++ ⟨t, none⟩ :: ns, e, by simp, ⟨as, es, bs, rfl, ha, he, hb⟩,
        ys, _, yes, rfl, ⟨hy, by omega⟩,
        .inl ⟨t, ns, rfl, ht, ns, [], no, by simp, ⟨hn', by omega⟩, rfl, rfl⟩⟩

/-- Each statement form is recognized behind its keyword. -/
theorem recognizes_form {k : Keyword} (hf : form? block k = some form) :
    Recognizes form (FormAt n k) NotElse := by
  have anywhere : ∀ d, NotElse d → Anywhere d := fun _ _ => trivial
  cases k with
  | exit => exact (recognizes_exit hf).mono anywhere
  | print => exact (recognizes_print hf).mono anywhere
  | declare => exact (recognizes_declare hf).mono anywhere
  | assign => exact (recognizes_assign hf).mono anywhere
  | branch => exact recognizes_branch hblock hf
  | loop => exact (recognizes_loop hblock hf).mono anywhere
  | call => exact (recognizes_call hf).mono anywhere
  | processor => exact (recognizes_processor hblock hf).mono anywhere
  | otherwise => simp [form?] at hf

end Forms

end Parse

end ImpAsm

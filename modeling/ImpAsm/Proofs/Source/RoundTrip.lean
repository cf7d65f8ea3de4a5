import ImpAsm.Proofs.Source.Printer
import ImpAsm.Proofs.Stmt.Acceptance

namespace ImpAsm

theorem isSeparator_lexeme (c : Char) (p : Position) :
    IsSeparator c [(Word.separator c).lexeme p] :=
  ⟨_, rfl, by simp [Token.isSeparator]⟩

theorem operator?_lexeme {s : String} (h : s ∈ symbols) (p : Position) :
    ((Word.operator s).lexeme p).operator? = some s := by
  rcases Word.operator_cases h with ⟨a, _, _, hl⟩ | ⟨a, b, hs, _, _, _, _, hl⟩
  · simp [hl, Lexeme.operator?]
  · have htext : a.toString ++ b.toString = s := by
      rw [← String.toList_inj]
      simp [hs]
    simp only [hl, Lexeme.operator?, htext]

theorem BinOp.symbol_mem (op : BinOp) : op.symbol ∈ symbols := by
  cases op <;> decide

theorem UnOp.symbol_mem (op : UnOp) : op.symbol ∈ symbols := by
  cases op <;> decide

/-- Words in parentheses are their lexemes between parentheses. -/
theorem lexemesAt_inParens (p : Position) (ws vs : List Word) :
    ∃ as bs q r,
      lexemesAt p (inParens ws ++ vs) = as ++ (lexemesAt q ws ++ (bs ++ lexemesAt r vs)) ∧
      IsSeparator '(' as ∧ IsSeparator ')' bs := by
  have happend : inParens ws ++ vs = [.separator '('] ++ (ws ++ ([.separator ')'] ++ vs)) := by
    simp [inParens]
  rw [happend, lexemesAt_append, lexemesAt_append, lexemesAt_append]
  exact ⟨_, _, _, _, rfl, isSeparator_lexeme _ _, isSeparator_lexeme _ _⟩

namespace Expr

theorem derives_inParens {ws : List Word} {e : Expr} {n : Nat}
    (h : ∀ p, Derives 1 (lexemesAt p ws) e n) (p : Position) :
    Derives 8 (lexemesAt p (inParens ws)) e (n + 1) := by
  obtain ⟨_, _, q, r, heq, ⟨a, rfl, ha⟩, ⟨b, rfl, hb⟩⟩ := lexemesAt_inParens p ws []
  rw [List.append_nil] at heq
  rw [heq]
  exact .parens ha (h q) hb

/-- An operand stands at the level of unary operators, if its parentheses are not left out where
they are needed. -/
theorem derives_enclosed {e : Expr} {b : Bool}
    (h : ∀ p, Derives 1 (lexemesAt p e.words) e e.printedNesting)
    (hatom : e.isCompound = false → ∀ p, Derives 7 (lexemesAt p e.words) e e.printedNesting)
    (hb : e.isCompound → b) (p : Position) :
    Derives 7 (lexemesAt p (enclosed b e.words)) e (e.printedNesting + b.toNat) := by
  cases b with
  | true => exact (derives_inParens h p).looser (by omega) (by omega)
  | false => exact hatom (by simpa using hb) p

/-- Behind a minus there is no digit. -/
theorem head_enclosed (e : Expr) (p : Position) :
    ∀ l ∈ (lexemesAt p (enclosed (needsParens .neg e) e.words)).head?, l.token.kind ≠ .int := by
  cases e with
  | num w =>
    by_cases hw : w.toInt < 0
    · have hn : needsParens .neg (num w) = false := by
        simp [needsParens, isCompound, isNatural, hw]
      simp [hn, enclosed, words, hw, lexemesAt, Word.lexeme]
    · have hn : needsParens .neg (num w) = true := by
        simp [needsParens, isNatural, Int.not_lt.mp hw]
      simp [hn, enclosed, inParens, lexemesAt, Word.lexeme]
  | bool b => simp [needsParens, isCompound, isNatural, enclosed, words, lexemesAt, Word.lexeme]
  | ident x => simp [needsParens, isCompound, isNatural, enclosed, words, lexemesAt, Word.lexeme]
  | binary op l r => simp [needsParens, isCompound, enclosed, inParens, lexemesAt, Word.lexeme]
  | unary op e => simp [needsParens, isCompound, enclosed, inParens, lexemesAt, Word.lexeme]

theorem derives_num (w : Int32) (p : Position) :
    Derives 7 (lexemesAt p (num w).words) (num w) 0 := by
  by_cases hw : w.toInt < 0
  · simp only [words, if_pos hw]
    exact .signed (operator?_lexeme (by decide) p) rfl (readWord?_negative hw)
  · simp only [words, if_neg hw]
    exact .tighter (by omega) (.num rfl (readWord?_natural (Int.not_lt.mp hw)))

/-- The words of an expression spell it. -/
theorem derives_words (e : Expr) :
    (∀ p, Derives 1 (lexemesAt p e.words) e e.printedNesting) ∧
      (e.isCompound = false → ∀ p, Derives 7 (lexemesAt p e.words) e e.printedNesting) := by
  induction e with
  | num w =>
    exact ⟨fun p => (derives_num w p).looser (by omega) (by omega), fun _ p => derives_num w p⟩
  | bool b =>
    have hb (p : Position) : Derives 8 (lexemesAt p [.truth b]) (bool b) 0 := by
      cases b
      · exact .bool (t := ⟨.bool, "false", p⟩) rfl
      · exact .bool (t := ⟨.bool, "true", p⟩) rfl
    exact ⟨fun p => (hb p).looser (by omega) (by omega),
      fun _ p => (hb p).looser (by omega) (by omega)⟩
  | ident x =>
    have hx (p : Position) : Derives 8 (lexemesAt p [.name x]) (ident x) 0 :=
      .ident (t := ⟨.ident, x, p⟩) rfl
    exact ⟨fun p => (hx p).looser (by omega) (by omega),
      fun _ p => (hx p).looser (by omega) (by omega)⟩
  | binary op l r ihl ihr =>
    refine ⟨?_, by simp [isCompound]⟩
    intro p
    have hpower := op.power_range
    rw [words, lexemesAt_append, lexemesAt]
    have hl := (derives_enclosed ihl.1 ihl.2 id p).looser (m := op.power) (by omega) (by omega)
    have hr := (derives_enclosed ihr.1 ihr.2 id
      (((p.afterWords (enclosed l.isCompound l.words)).after op.symbol.toList).step ' ')).looser
        (m := op.power + 1) (by omega) (by omega)
    exact (Derives.chain (operator?_lexeme op.symbol_mem _) rfl hl hr).looser (by omega) (by omega)
  | unary op e ih =>
    refine ⟨?_, by simp [isCompound]⟩
    intro p
    rw [words, lexemesAt]
    have hneeds : e.isCompound → needsParens op e := by
      intro h
      simp [needsParens, h]
    have he := derives_enclosed ih.1 ih.2 hneeds ((p.after op.symbol.toList).step ' ')
    refine (Derives.unary (operator?_lexeme op.symbol_mem p) ?_ he).looser (by omega) (by omega)
    intro hop
    subst hop
    exact head_enclosed e _

theorem Printable.readable {e : Expr} (h : e.Printable) (p : Position) :
    Readable (lexemesAt p e.words) e :=
  ⟨e.printedNesting, (derives_words e).1 p, h.nesting, h.height⟩

end Expr

variable {ws vs : List Word}

/-- Words that can all be read back. -/
def Legible (ws : List Word) : Prop := ∀ w ∈ ws, w.Legible

@[simp] theorem legible_nil : Legible [] := by simp [Legible]

@[simp] theorem legible_cons {w : Word} : Legible (w :: ws) ↔ w.Legible ∧ Legible ws := by
  simp [Legible]

@[simp] theorem legible_append : Legible (ws ++ vs) ↔ Legible ws ∧ Legible vs := by
  simp [Legible, or_imp, forall_and]

@[simp] theorem legible_inParens : Legible (inParens ws) ↔ Legible ws := by
  have ho : '(' ∈ separators := by decide
  have hc : ')' ∈ separators := by decide
  simp [inParens, Word.Legible, ho, hc]

@[simp] theorem legible_inBraces : Legible (inBraces ws) ↔ Legible ws := by
  have ho : '\x7b' ∈ separators := by decide
  have hc : '\x7d' ∈ separators := by decide
  simp [inBraces, Word.Legible, ho, hc]

theorem semicolon_mem : ';' ∈ separators := by decide

theorem equals_mem : "=" ∈ symbols := by decide

theorem legible_commaWords {wss : List (List Word)} (h : ∀ ws ∈ wss, Legible ws) :
    Legible (commaWords wss) := by
  have hcomma : ',' ∈ separators := by decide
  induction wss with
  | nil => exact legible_nil
  | cons ws wss ih =>
    have hw := h ws (by simp)
    cases wss with
    | nil => exact hw
    | cons vs wss =>
      have hr := ih fun us hu => h us (by simp [hu])
      simp [commaWords, Word.Legible, hw, hcomma, hr]

theorem Expr.legible_words {e : Expr} (h : ∀ x ∈ e.names, IsIdentifier x) : Legible e.words := by
  induction e with
  | num w =>
    have hminus : "-" ∈ symbols := by decide
    simp only [words]
    split <;> simp [hminus, Word.Legible]
  | bool b => simp [words, Word.Legible]
  | ident x => simpa [words, Word.Legible] using h x (by simp [names])
  | binary op l r ihl ihr =>
    have hop : (Word.operator op.symbol).Legible := op.symbol_mem
    have hl := ihl fun x hx => h x (by simp [names, hx])
    have hr := ihr fun x hx => h x (by simp [names, hx])
    simp only [words, enclosed, legible_append, legible_cons]
    refine ⟨?_, hop, ?_⟩
    · split <;> simpa using hl
    · split <;> simpa using hr
  | unary op e ih =>
    have hop : (Word.operator op.symbol).Legible := op.symbol_mem
    have he := ih fun x hx => h x (by simp [names, hx])
    simp only [words, enclosed, legible_cons]
    refine ⟨hop, ?_⟩
    split <;> simpa using he

mutual

theorem Stmt.legible_tailWords : ∀ {s : Stmt}, s.Printable → Legible s.tailWords
  | .exit e, h => by simp [Stmt.tailWords, Expr.legible_words h.names, Word.Legible, semicolon_mem]
  | .printText t, h => by
    have ht : '"' ∉ t.toList := h
    simp [Stmt.tailWords, Word.Legible, semicolon_mem, ht]
  | .printValue e, h => by
    simp [Stmt.tailWords, Expr.legible_words h.names, Word.Legible, semicolon_mem]
  | .declare x e, h => by
    simp [Stmt.tailWords, Expr.legible_words h.2.names, Word.Legible, semicolon_mem,
      equals_mem, h.1]
  | .assign x e, h => by
    simp [Stmt.tailWords, Expr.legible_words h.2.names, Word.Legible, semicolon_mem,
      equals_mem, h.1]
  | .branch e yes no, h => by
    simp [Stmt.tailWords, Expr.legible_words h.1.names, legible_stmtsWords h.2.1,
      legible_elseWords h.2.2]
  | .loop e body, h => by
    simp [Stmt.tailWords, Expr.legible_words h.1.names, legible_stmtsWords h.2]
  | .call f args, h => by
    have hargs : Legible (commaWords (args.map Expr.words)) := by
      apply legible_commaWords
      intro ws hws
      obtain ⟨e, he, rfl⟩ := List.mem_map.mp hws
      exact Expr.legible_words (h.2 e he).names
    simp [Stmt.tailWords, hargs, semicolon_mem, Word.Legible, h.1]
  | .processor p params body, h => by
    have hparams : Legible (commaWords (params.map fun x => [.name x])) := by
      apply legible_commaWords
      intro ws hws
      obtain ⟨x, hx, rfl⟩ := List.mem_map.mp hws
      simpa [Word.Legible] using h.2.1 x hx
    simp [Stmt.tailWords, hparams, legible_stmtsWords h.2.2, Word.Legible, h.1]

theorem legible_stmtsWords : ∀ {ss : List Stmt}, StmtsPrintable ss → Legible (stmtsWords ss)
  | [], _ => legible_nil
  | s :: ss, h => by
    simp [stmtsWords, Word.Legible, Stmt.legible_tailWords h.1, legible_stmtsWords h.2]

theorem legible_elseWords : ∀ {no : Option (List Stmt)}, ElsePrintable no → Legible (elseWords no)
  | none, _ => legible_nil
  | some ss, h => by simp [elseWords, Word.Legible, legible_stmtsWords h]

end

theorem lexemesAt_name (p : Position) (x : String) (ws : List Word) :
    ∃ xs q, lexemesAt p (.name x :: ws) = xs ++ lexemesAt q ws ∧ IsName xs x :=
  ⟨[_], _, rfl, _, rfl, rfl, rfl⟩

/-- A binding is a name, an equals sign, what stands for the value, and a semicolon. -/
theorem lexemesAt_binding (p : Position) (x : String) (ws : List Word) :
    ∃ xs as q r, lexemesAt p (.name x :: .operator "=" :: (ws ++ [.separator ';'])) =
        xs ++ (as ++ (lexemesAt q ws ++ [(Word.separator ';').lexeme r])) ∧
      IsName xs x ∧ IsEquals as := by
  have happend : Word.name x :: .operator "=" :: (ws ++ [.separator ';']) =
      [.name x] ++ ([.operator "="] ++ (ws ++ [.separator ';'])) := rfl
  rw [happend, lexemesAt_append, lexemesAt_append, lexemesAt_append]
  exact ⟨_, _, _, _, rfl, ⟨_, rfl, rfl, rfl⟩, ⟨_, rfl, operator?_lexeme equals_mem _⟩⟩

theorem commaSeparated_commaWords {α : Type} {R : List Lexeme → α → Prop} {f : α → List Word}
    {as : List α} (h : ∀ a ∈ as, ∀ p, R (lexemesAt p (f a)) a) (p : Position) :
    CommaSeparated R (lexemesAt p (commaWords (as.map f))) as := by
  induction as generalizing p with
  | nil => exact .nil
  | cons a as ih =>
    have ha := h a (by simp)
    cases as with
    | nil => exact .one (ha p)
    | cons b as =>
      have hb := ih fun c hc => h c (by simp [hc])
      rw [List.map_cons, List.map_cons, commaWords, lexemesAt_append, lexemesAt]
      exact .cons (ha p) (by simp [Token.isSeparator]) (hb _)

theorem spells_inBraces {ss : List Stmt}
    (h : ∀ p, Spells Readable (lexemesAt p (stmtsWords ss)) (.stmts ss)) (p : Position) :
    Spells Readable (lexemesAt p (inBraces (stmtsWords ss))) (.block ss) := by
  have happend : inBraces (stmtsWords ss) =
      [.separator '\x7b'] ++ (stmtsWords ss ++ [.separator '\x7d']) := rfl
  rw [happend, lexemesAt_append, lexemesAt_append]
  exact .block (isSeparator_lexeme _ _) (h _) (isSeparator_lexeme _ _)

mutual

/-- What is written behind the keyword of a statement spells it. -/
theorem Stmt.spells_tailWords : ∀ (s : Stmt), s.Printable → ∀ p,
    Spells Readable (lexemesAt p s.tailWords) (.after s.keyword s)
  | .exit e, h, p => by
    obtain ⟨as, bs, q, r, heq, ha, hb⟩ := lexemesAt_inParens p e.words [.separator ';']
    rw [Stmt.tailWords, heq]
    exact .exit ha (Expr.Printable.readable h q) hb (isSeparator_lexeme _ _)
  | .printText t, h, p => by
    obtain ⟨as, bs, q, r, heq, ha, hb⟩ := lexemesAt_inParens p [.quoted t] [.separator ';']
    rw [Stmt.tailWords, heq, lexemesAt, lexemesAt, List.singleton_append]
    exact .printText (t := ⟨.str, t, q⟩) ha rfl hb (isSeparator_lexeme _ _)
  | .printValue e, h, p => by
    obtain ⟨as, bs, q, r, heq, ha, hb⟩ := lexemesAt_inParens p e.words [.separator ';']
    rw [Stmt.tailWords, heq]
    exact .printValue ha (Expr.Printable.readable h q) hb (isSeparator_lexeme _ _)
  | .declare x e, h, p => by
    obtain ⟨xs, as, q, r, heq, hx, ha⟩ := lexemesAt_binding p x e.words
    exact heq ▸ .declare hx ha (h.2.readable q) (isSeparator_lexeme _ r)
  | .assign x e, h, p => by
    obtain ⟨xs, as, q, r, heq, hx, ha⟩ := lexemesAt_binding p x e.words
    exact heq ▸ .assign hx ha (h.2.readable q) (isSeparator_lexeme _ r)
  | .branch e yes none, h, p => by
    obtain ⟨as, bs, q, r, heq, ha, hb⟩ :=
      lexemesAt_inParens p e.words (inBraces (stmtsWords yes) ++ elseWords none)
    rw [Stmt.tailWords, heq, elseWords, List.append_nil]
    exact .branch ha (h.1.readable q) hb (spells_inBraces (spells_stmtsWords yes h.2.1) r)
  | .branch e yes (some no), h, p => by
    obtain ⟨as, bs, q, r, heq, ha, hb⟩ :=
      lexemesAt_inParens p e.words (inBraces (stmtsWords yes) ++ elseWords (some no))
    rw [Stmt.tailWords, heq, lexemesAt_append, elseWords, lexemesAt]
    exact .branchElse ha (h.1.readable q) hb (spells_inBraces (spells_stmtsWords yes h.2.1) r)
      (by simp [Token.isKeyword]) (spells_inBraces (spells_stmtsWords no h.2.2) _)
  | .loop e body, h, p => by
    obtain ⟨as, bs, q, r, heq, ha, hb⟩ := lexemesAt_inParens p e.words (inBraces (stmtsWords body))
    rw [Stmt.tailWords, heq]
    exact .loop ha (h.1.readable q) hb (spells_inBraces (spells_stmtsWords body h.2) r)
  | .call f args, h, p => by
    obtain ⟨fs, q, heq, hf⟩ := lexemesAt_name p f
      (inParens (commaWords (args.map Expr.words)) ++ [.separator ';'])
    obtain ⟨as, bs, q', r, heq', ha, hb⟩ := lexemesAt_inParens q _ [.separator ';']
    have hargs := commaSeparated_commaWords (fun e he => (h.2 e he).readable) q'
    rw [Stmt.tailWords, heq, heq']
    exact .call hf ha hargs hb (isSeparator_lexeme _ _)
  | .processor f params body, h, p => by
    obtain ⟨fs, q, heq, hf⟩ := lexemesAt_name p f
      (inParens (commaWords (params.map fun x => [.name x])) ++ inBraces (stmtsWords body))
    obtain ⟨as, bs, q', r, heq', ha, hb⟩ := lexemesAt_inParens q _ (inBraces (stmtsWords body))
    have hparams := commaSeparated_commaWords (R := IsName) (f := fun x => [.name x])
      (fun x (_ : x ∈ params) p => ⟨⟨.ident, x, p⟩, rfl, rfl, rfl⟩) q'
    rw [Stmt.tailWords, heq, heq']
    exact .processor hf ha hparams hb (spells_inBraces (spells_stmtsWords body h.2.2) r)

theorem spells_stmtsWords : ∀ (ss : List Stmt), StmtsPrintable ss → ∀ p,
    Spells Readable (lexemesAt p (stmtsWords ss)) (.stmts ss)
  | [], _, _ => .nil
  | s :: ss, h, p => by
    rw [stmtsWords, lexemesAt, lexemesAt_append]
    exact .cons (by simp [Token.isKeyword]) (s.spells_tailWords h.1 _) (spells_stmtsWords ss h.2 _)

end

/-- A program that is written and read again is the same program, if its names are words that are
not reserved, its strings have no quotes, and the limits on height and nesting are kept. -/
theorem parse_sourceText (p : Program) (h : StmtsPrintable p) (hd : blockDepth p ≤ nestingLimit) :
    ∃ ts, tokenize (sourceText p) = .ok ts ∧ parse ts = .ok p := by
  have hw := legible_stmtsWords h
  obtain ⟨q, hscan⟩ := scan_spacedText hw .start
  have htokenize := tokenize_eq_ok.mpr hscan
  refine ⟨_, htokenize, ?_⟩
  obtain ⟨us, q', htokens, hus⟩ := tokenize_getLast htokenize
  obtain rfl := List.append_inj_left' htokens rfl
  refine (parse_concat_eq_ok rfl hus).mpr ⟨?_, hd⟩
  rw [lexemes_lexemesAt hw]
  exact spells_stmtsWords p h .start

/-- Numbers and negations of numbers, and a string that holds what looks like a comment. -/
def negations : Program :=
  [.declare "x" (.unary .neg (.num 5)), .printText "//\n",
    .exit (.binary .sub (.num (-5)) (.unary .neg (.num (-2147483648))))]

theorem parse_negations :
    sourceText negations =
        "let x = - ( 5 ) ; print ( \"//\n\" ) ; exit ( - 5 - ( - - 2147483648 ) ) ;" ∧
      ∃ ts, tokenize (sourceText negations) = .ok ts ∧ parse ts = .ok negations := by
  have hx : IsIdentifier "x" :=
    ⟨⟨by decide, by decide⟩, by intro k; cases k <;> decide, by decide, by decide⟩
  have hdeclare : (Expr.unary .neg (.num 5)).Printable :=
    ⟨by simp [Expr.names], by decide, by decide⟩
  have hexit : (Expr.binary .sub (.num (-5)) (.unary .neg (.num (-2147483648)))).Printable :=
    ⟨by simp [Expr.names], by decide, by decide⟩
  have hprint : '"' ∉ "//\n".toList := by decide
  have hall : StmtsPrintable negations := ⟨⟨hx, hdeclare⟩, hprint, hexit, trivial⟩
  exact ⟨by cbv, parse_sourceText negations hall (by decide)⟩

end ImpAsm

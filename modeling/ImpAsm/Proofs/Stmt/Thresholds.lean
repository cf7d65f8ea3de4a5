import ImpAsm.Proofs.Source.RoundTrip
import ImpAsm.Proofs.Stmt.FirstFault
import ImpAsm.Proofs.Stmt.Limits
import ImpAsm.Proofs.Stmt.Unambiguous

namespace ImpAsm

/-- The expressions in which no lexeme stands inside more than `n` unary operators and
parentheses. -/
def NestedWithin (n : Nat) (ls : List Lexeme) (e : Expr) : Prop := ∃ m ≤ n, Derives 1 ls e m

/-- In the text `ls` of the program `p`, some lexeme stands inside `n` unary operators and
parentheses of one expression, and none stands inside more. -/
def IsNesting (ls : List Lexeme) (p : Program) (n : Nat) : Prop :=
  IsLeast {m | Spells (NestedWithin m) ls (.stmts p)} n

theorem Derives.nesting_le_length {k n : Nat} {ls : List Lexeme} {e : Expr} (h : Derives k ls e n) :
    n ≤ ls.length := by
  induction h with
  | tighter hk h ih => exact ih
  | chain ho hp hl hr ihl ihr =>
    simp only [List.length_append, List.length_cons]
    omega
  | unary ho hi h ih =>
    simp only [List.length_cons]
    omega
  | parens ha h hb ih =>
    simp only [List.length_cons, List.length_append]
    omega
  | signed | num | bool | ident => omega

/-- The expressions of a part of a program. -/
def Phrase.expressions : Phrase → List Expr
  | .stmts ss | .block ss => stmtsExpressions ss
  | .after _ s => s.expressions

section Replacement

variable {α : Type} {R R' : List Lexeme → α → Prop} {E E' : List Lexeme → Expr → Prop}
  {ls : List Lexeme} {m n : Nat} {as bs : List α}

/-- What the rule `R` reads as one of `as` is read so by `R'` too. Only texts of up to `n` lexemes
count. -/
def Replaces (R R' : List Lexeme → α → Prop) (n : Nat) (as : List α) : Prop :=
  ∀ ms a, ms.length ≤ n → a ∈ as → R ms a → R' ms a

theorem Replaces.part (h : Replaces R R' n as) (hm : m ≤ n) (hbs : bs ⊆ as) :
    Replaces R R' m bs := by
  intro ms a hlen ha
  exact h ms a (hlen.trans hm) (hbs ha)

theorem CommaSeparated.imp (h : CommaSeparated R ls as) (hR : Replaces R R' ls.length as) :
    CommaSeparated R' ls as := by
  induction h with
  | nil => exact .nil
  | one h => exact .one (hR _ _ (Nat.le_refl _) (by simp) h)
  | cons h ht hs ih =>
    exact .cons (hR _ _ (by simp) (by simp) h) ht (ih (hR.part (by grind) (by simp)))

/-- One grammar of expressions can take the place of another one, if it has the expressions of the
part of a program that is spelled. -/
theorem Spells.imp {ph : Phrase} (h : Spells E ls ph)
    (hE : Replaces E E' ls.length ph.expressions) :
    Spells E' ls ph := by
  induction h with
  | nil => exact .nil
  | cons hk _ _ ih ihs =>
    apply Spells.cons hk
    · exact ih (hE.part (by grind) (List.subset_append_left _ _))
    · exact ihs (hE.part (by grind) (List.subset_append_right _ _))
  | block ha _ hb ih => exact .block ha (ih (hE.part (by grind) (List.Subset.refl _))) hb
  | exit ha he hb hc =>
    exact .exit ha (hE _ _ (by grind) (by simp [Phrase.expressions, Stmt.expressions]) he) hb hc
  | printText ha ht hb hc => exact .printText ha ht hb hc
  | printValue ha he hb hc =>
    exact .printValue ha
      (hE _ _ (by grind) (by simp [Phrase.expressions, Stmt.expressions]) he) hb hc
  | declare hx ha he hc =>
    exact .declare hx ha (hE _ _ (by grind) (by simp [Phrase.expressions, Stmt.expressions]) he) hc
  | assign hx ha he hc =>
    exact .assign hx ha (hE _ _ (by grind) (by simp [Phrase.expressions, Stmt.expressions]) he) hc
  | branch ha he hb _ ih =>
    apply Spells.branch ha
      (hE _ _ (by grind) (by simp [Phrase.expressions, Stmt.expressions]) he) hb
    exact ih (hE.part (by grind) (by simp [Phrase.expressions, Stmt.expressions]))
  | branchElse ha he hb _ ht _ ihy ihn =>
    have hvalue := hE _ _ (by grind) (by simp [Phrase.expressions, Stmt.expressions]) he
    apply Spells.branchElse ha hvalue hb _ ht
    · exact ihn
        (hE.part (by grind) (by simp [Phrase.expressions, Stmt.expressions, elseExpressions]))
    · exact ihy (hE.part (by grind) (by simp [Phrase.expressions, Stmt.expressions]))
  | loop ha he hb _ ih =>
    apply Spells.loop ha (hE _ _ (by grind) (by simp [Phrase.expressions, Stmt.expressions]) he) hb
    exact ih (hE.part (by grind) (by simp [Phrase.expressions, Stmt.expressions]))
  | call hf ha he hb hc =>
    exact .call hf ha (he.imp (hE.part (by grind) (List.Subset.refl _))) hb hc
  | processor hp ha he hb _ ih =>
    exact .processor hp ha he hb (ih (hE.part (by grind) (List.Subset.refl _)))

theorem Spells.mono {ph : Phrase} (h : Spells E ls ph) (hE : ∀ ms e, E ms e → E' ms e) :
    Spells E' ls ph :=
  h.imp fun ms e _ _ => hE ms e

theorem CommaSeparated.forall_mem {P : α → Prop} (h : CommaSeparated R ls as)
    (hR : ∀ ms a, R ms a → P a) :
    ∀ a ∈ as, P a := by
  induction h with
  | nil => simp
  | one h => simpa using hR _ _ h
  | cons h _ _ ih => simpa [hR _ _ h] using ih

/-- What a grammar of expressions ensures holds of all expressions of a program. -/
theorem Spells.forall_expressions {P : Expr → Prop} {ph : Phrase} (h : Spells E ls ph)
    (hE : ∀ ms e, E ms e → P e) : ∀ e ∈ ph.expressions, P e := by
  induction h with
  | nil => simp [Phrase.expressions, stmtsExpressions]
  | cons _ _ _ ih ihs =>
    intro e he
    rcases List.mem_append.mp he with he | he
    · exact ih e he
    · exact ihs e he
  | block _ _ _ ih => exact ih
  | exit _ he | printValue _ he | declare _ _ he | assign _ _ he =>
    simpa [Phrase.expressions, Stmt.expressions] using hE _ _ he
  | printText => simp [Phrase.expressions, Stmt.expressions]
  | branch _ he _ _ ih =>
    simpa [Phrase.expressions, Stmt.expressions, elseExpressions, hE _ _ he] using ih
  | branchElse _ he _ _ _ _ ihy ihn =>
    intro e' he'
    simp only [Phrase.expressions, Stmt.expressions, elseExpressions, List.mem_cons,
      List.mem_append] at he'
    rcases he' with rfl | he' | he'
    · exact hE _ _ he
    · exact ihy e' he'
    · exact ihn e' he'
  | loop _ he _ _ ih => simpa [Phrase.expressions, Stmt.expressions, hE _ _ he] using ih
  | call _ _ he => exact he.forall_mem hE
  | processor _ _ _ _ _ ih => exact ih

end Replacement

section Sentences

variable {us : List Token} {t : Token} {p : Program} {n : Nat}

/-- Every program text has a nesting. It is at most the number of its lexemes. -/
theorem exists_isNesting {ls : List Lexeme} (hp : Spells Unlimited ls (.stmts p)) :
    ∃ n, IsNesting ls p n := by
  have hbound : Spells (NestedWithin ls.length) ls (.stmts p) := by
    apply hp.imp
    intro ms e hlen _ he
    obtain ⟨m, hd⟩ := he
    exact ⟨m, hd.nesting_le_length.trans hlen, hd⟩
  have hex : ∃ n, Spells (NestedWithin n) ls (.stmts p) := ⟨_, hbound⟩
  classical
  exact ⟨Nat.find hex, Nat.find_spec hex, fun m hm => Nat.find_min' hex hm⟩

theorem IsNesting.le_iff {ls : List Lexeme} (hn : IsNesting ls p n) {m : Nat} :
    n ≤ m ↔ Spells (NestedWithin m) ls (.stmts p) := by
  constructor
  · intro hm
    apply hn.1.mono
    intro ms e he
    obtain ⟨i, hi, hd⟩ := he
    exact ⟨i, hi.trans hm, hd⟩
  · intro h
    exact hn.2 h

/-- A program text is within the limits exactly if its nesting is below the limit and no tree is
higher and no block deeper than the limit. -/
theorem isProgram_iff (hn : IsNesting (lexemes us) p n) :
    IsProgram us p ↔
      n < nestingLimit ∧ (∀ e ∈ stmtsExpressions p, e.height ≤ nestingLimit) ∧
        blockDepth p ≤ nestingLimit := by
  constructor
  · intro h
    obtain ⟨hreadable, hdepth⟩ := h
    have hwithin : Spells (NestedWithin (nestingLimit - 1)) (lexemes us) (.stmts p) := by
      apply hreadable.mono
      intro ms e he
      obtain ⟨m, hd, hm, _⟩ := he
      exact ⟨m, by omega, hd⟩
    have hle := hn.le_iff.mpr hwithin
    have hpos : 0 < nestingLimit := by decide
    have hheights : ∀ e ∈ stmtsExpressions p, e.height ≤ nestingLimit :=
      hreadable.forall_expressions fun _ _ ⟨_, _, _, hheight⟩ => hheight
    exact ⟨by omega, hheights, hdepth⟩
  · intro h
    obtain ⟨hlt, hheights, hdepth⟩ := h
    refine ⟨?_, hdepth⟩
    apply hn.1.imp
    intro ms e _ he hnested
    obtain ⟨m, hm, hd⟩ := hnested
    exact ⟨m, hd, by omega, hheights e he⟩

/-- A text of the grammar can only be refused for a limit. -/
theorem parse_sentence_error {e : CompileError} (ht : t.kind = .eof)
    (hus : lexemes us ∈ programText) (he : parse (us ++ [t]) = .error e) :
    ∃ err, e = .syntactic err ∧ err.fault.IsLimit := by
  obtain ⟨err, s, rfl, hrun⟩ := parse_eq_error.mp he
  have hmiss := Parse.decides_program.outcome (s := ⟨.ofTokens (us ++ [t]) 0, #[]⟩)
    (Cursor.ofTokens_proper _ 0)
  rw [hrun] at hmiss
  rcases hmiss with hlimit | ⟨ls, d, hsp, _, _, hdead⟩
  · exact ⟨err, rfl, hlimit⟩
  · -- The lexemes before the end of the input are a program, so no token rules one out.
    have hlex : lexemes (us ++ [t]) = ls ++ d.rest := hsp.rest
    rw [lexemes_concat_of_not_operator (by simp [ht])] at hlex
    have hopens : Opens programText Parse.EndNext (ls ++ d.rest) (lexemes us) := by
      refine ⟨[⟨t, none⟩], hlex.symm, hus, ?_⟩
      intro l hl
      obtain rfl : ⟨t, none⟩ = l := by simpa using hl
      exact ht
    exact absurd hopens (hdead d.rest rfl (lexemes us))

theorem parse_sentence (ht : t.kind = .eof) (hus : ∀ u ∈ us, u.kind ≠ .eof)
    (hp : Spells Unlimited (lexemes us) (.stmts p)) (hn : IsNesting (lexemes us) p n) :
    (n < nestingLimit ∧ (∀ e ∈ stmtsExpressions p, e.height ≤ nestingLimit) ∧
      blockDepth p ≤ nestingLimit →
      parse (us ++ [t]) = .ok p) ∧
    ((∃ err, parse (us ++ [t]) = .error (.syntactic err) ∧ err.fault.IsLimit) ↔
      nestingLimit ≤ n ∨ (∃ e ∈ stmtsExpressions p, nestingLimit < e.height) ∨
        nestingLimit < blockDepth p) := by
  have hok (q : Program) := parse_concat_eq_ok (p := q) ht hus
  constructor
  · intro h
    exact (hok p).mpr ((isProgram_iff hn).mpr h)
  · constructor
    · intro h
      obtain ⟨err, herr, _⟩ := h
      by_contra hwithin
      push Not at hwithin
      have hparse := (hok p).mpr ((isProgram_iff hn).mpr hwithin)
      rw [herr] at hparse
      cases hparse
    · intro h
      cases hparse : parse (us ++ [t]) with
      | ok q =>
        have hq := (hok q).mp hparse
        -- The program that is read is `p`, since the grammar is unambiguous.
        have hqp : q = p := by
          apply Spells.program_unique _ hp
          apply hq.1.mono
          intro ms e he
          obtain ⟨m, hd, _⟩ := he
          exact ⟨m, hd⟩
        obtain ⟨hlt, hheights, hdepth⟩ := (isProgram_iff hn).mp (hqp ▸ hq)
        rcases h with h | ⟨e, he, h⟩ | h
        · omega
        · have := hheights e he
          omega
        · omega
      | error e =>
        obtain ⟨err, rfl, hlimit⟩ := parse_sentence_error ht ⟨p, hp⟩ hparse
        exact ⟨err, rfl, hlimit⟩

end Sentences

/-- Where the limits on nesting lie. A text whose tokens spell a program of the grammar is read as
that program or refused for a limit. It is refused exactly if a token stands inside more than 511
unary operators and parentheses of an expression, a tree is higher than 512, or a block is deeper
than 512. -/
theorem parse_limits (s : String) (ts : List Token) (p : Program) (h : tokenize s = .ok ts)
    (hp : Spells Unlimited (lexemes ts.dropLast) (.stmts p)) :
    ∃ n, IsNesting (lexemes ts.dropLast) p n ∧
      (n ≤ 511 ∧ (∀ e ∈ stmtsExpressions p, e.height ≤ 512) ∧ blockDepth p ≤ 512 →
        parse ts = .ok p) ∧
      ((∃ err, parse ts = .error (.syntactic err) ∧ err.fault.IsLimit) ↔
        511 < n ∨ (∃ e ∈ stmtsExpressions p, 512 < e.height) ∨ 512 < blockDepth p) := by
  obtain ⟨us, q, rfl, hus⟩ := tokenize_getLast h
  rw [List.dropLast_concat] at hp ⊢
  obtain ⟨n, hn⟩ := exists_isNesting hp
  obtain ⟨hok, herror⟩ := parse_sentence (t := ⟨.eof, "", q⟩) rfl hus hp hn
  refine ⟨n, hn, ?_, ?_⟩
  · intro hwithin
    exact hok ⟨Nat.lt_succ_of_le hwithin.1, hwithin.2⟩
  · exact herror

section Nested

/-- The words of `exit ( 0 ) ;` with `n` more parentheses around the number. -/
def nestedExit (n : Nat) : List Word :=
  .keyword .exit :: (inParens (inParens^[n] [.digits 0]) ++ [.separator ';'])

theorem derives_nested (n : Nat) (p : Position) :
    Derives 1 (lexemesAt p (inParens^[n] [.digits 0])) (.num 0) n := by
  induction n generalizing p with
  | zero =>
    have hzero : readWord? (Nat.repr 0).toList = some 0 := by decide
    exact (Derives.num rfl hzero).looser (by omega) (by omega)
  | succ n ih =>
    rw [Function.iterate_succ_apply']
    exact (Expr.derives_inParens ih p).looser (by omega) (by omega)

theorem legible_nestedExit (n : Nat) : Legible (nestedExit n) := by
  have hinner : Legible (inParens^[n] [.digits 0]) := by
    induction n with
    | zero => simp [Word.Legible]
    | succ n ih => simpa [Function.iterate_succ_apply'] using ih
  simp [nestedExit, hinner, Word.Legible, semicolon_mem]

/-- The one expression of an exit statement is the one that its text shows. -/
theorem Spells.exit_value {E : List Lexeme → Expr → Prop} {t : Token}
    {as es bs cs : List Lexeme} {e : Expr} {p : Program} (hE : ∀ ms e, E ms e → Unlimited ms e)
    (hk : t.isKeyword .exit) (ha : IsSeparator '(' as) (he : Unlimited es e)
    (hb : IsSeparator ')' bs) (h : Spells E (⟨t, none⟩ :: (as ++ (es ++ (bs ++ cs)))) (.stmts p)) :
    E es e := by
  generalize hls : Lexeme.mk t none :: (as ++ (es ++ (bs ++ cs))) = ls at h
  cases h with
  | nil => simp at hls
  | @cons k t' s ss ls ms hk' h hs =>
    obtain ⟨rfl, heq⟩ : t = t' ∧ as ++ (es ++ (bs ++ cs)) = ls ++ ms := by simpa using hls
    obtain rfl : k = .exit := by
      simpa [Parse.kind_of_isKeyword hk'] using Parse.kind_of_isKeyword hk
    cases h with
    | exit ha' he' hb' hc' =>
      simp only [List.append_assoc] at heq
      obtain ⟨_, rfl, rfl, _⟩ := inParens_cancel ha he hb ha' (hE _ _ he') hb' heq
      exact he'

theorem isNesting_nestedExit (n : Nat) (p : Position) :
    IsNesting (lexemesAt p (nestedExit n)) [.exit (.num 0)] n := by
  obtain ⟨as, bs, q, r, heq, ha, hb⟩ :=
    lexemesAt_inParens ((p.after "exit".toList).step ' ') (inParens^[n] [.digits 0])
      [.separator ';']
  have hk : Token.isKeyword ⟨.keyword .exit, Keyword.exit.spelling, p⟩ .exit := by
    simp [Token.isKeyword]
  have hd := derives_nested n q
  have hls : lexemesAt p (nestedExit n) = _ :: _ := congrArg _ heq
  rw [hls]
  constructor
  · have hexit : Spells (NestedWithin n) _ _ :=
      .exit ha ⟨n, le_rfl, hd⟩ hb (isSeparator_lexeme ';' r)
    have hstmts := Spells.cons hk hexit .nil
    rw [List.append_nil] at hstmts
    exact hstmts
  · intro m hm
    have hvalue := hm.exit_value (fun ms e he => ⟨he.choose, he.choose_spec.2⟩) hk ha ⟨n, hd⟩ hb
    obtain ⟨i, hi, hd'⟩ := hvalue
    obtain ⟨_, _, rfl⟩ := derives_unique _ (by omega) (by omega) le_rfl hd hd' rfl
      (show Ends 1 [] from by simp [Ends]) (show Ends 1 [] from by simp [Ends])
    exact hi

theorem tokenize_nestedExit (n : Nat) :
    ∃ ts, tokenize (spacedText (nestedExit n)) = .ok ts ∧
      lexemes ts.dropLast = lexemesAt .start (nestedExit n) := by
  obtain ⟨q, hscan⟩ := scan_spacedText (legible_nestedExit n) .start
  refine ⟨_, tokenize_eq_ok.mpr hscan, ?_⟩
  rw [List.dropLast_concat, lexemes_lexemesAt (legible_nestedExit n)]

/-- The limits at their edges: 511 parentheses inside those of the statement are accepted. -/
theorem limits_nestedExit :
    ∃ ts, tokenize (spacedText (nestedExit 511)) = .ok ts ∧ parse ts = .ok [.exit (.num 0)] := by
  obtain ⟨ts, hts, hlex⟩ := tokenize_nestedExit 511
  have hnesting := isNesting_nestedExit 511 .start
  rw [← hlex] at hnesting
  have hp := hnesting.1.mono fun _ _ ⟨m, _, hd⟩ => show Unlimited _ _ from ⟨m, hd⟩
  obtain ⟨n, hn, hok, _⟩ := parse_limits _ ts _ hts hp
  obtain rfl := hn.unique hnesting
  refine ⟨ts, hts, hok ⟨le_rfl, ?_, by decide⟩⟩
  simp [stmtsExpressions, Stmt.expressions, Expr.height]

/-- One more pair is refused, although no token stands inside more than 512 of them. -/
theorem limits_refused :
    ∃ ts err, tokenize (spacedText (nestedExit 512)) = .ok ts ∧
      Spells (NestedWithin 512) (lexemes ts.dropLast) (.stmts [.exit (.num 0)]) ∧
      (∀ e ∈ stmtsExpressions [.exit (.num 0)], e.height ≤ 512) ∧
        blockDepth [.exit (.num 0)] ≤ 512 ∧
      parse ts = .error (.syntactic err) ∧ err.fault.IsLimit := by
  obtain ⟨ts, hts, hlex⟩ := tokenize_nestedExit 512
  have hnesting := isNesting_nestedExit 512 .start
  rw [← hlex] at hnesting
  have hp := hnesting.1.mono fun _ _ ⟨m, _, hd⟩ => show Unlimited _ _ from ⟨m, hd⟩
  obtain ⟨us, q, rfl, hus⟩ := tokenize_getLast hts
  rw [List.dropLast_concat] at hnesting hp
  obtain ⟨_, hrefused⟩ := parse_sentence (t := ⟨.eof, "", q⟩) rfl hus hp hnesting
  obtain ⟨err, herr, hlimit⟩ := hrefused.mpr (.inl le_rfl)
  refine ⟨_, err, hts, ?_, ?_, by decide, herr, hlimit⟩
  · rw [List.dropLast_concat]
    exact hnesting.1
  · simp [stmtsExpressions, Stmt.expressions, Expr.height]

end Nested

end ImpAsm

import ImpAsm.Proofs.Expr.Acceptance
import ImpAsm.Proofs.Lookahead

namespace ImpAsm

/-- The texts of the expressions of a level. -/
def expressions (k : Nat) : Language Lexeme := {ls | ∃ e n, Derives k ls e n}

/-- No operator of power `k` or more comes next. -/
def EndsBefore (k : Nat) (next : Option Lexeme) : Prop :=
  ∀ l ∈ next, ∀ op : BinOp, l.operator? = some op.symbol → op.power < k

theorem endsBefore_separator {k : Nat} {l : Lexeme} (hl : l.second = none)
    (hk : l.token.kind = .separator) : EndsBefore k (some l) := by
  intro l' hl' op hop
  obtain rfl : l = l' := by simpa using hl'
  simp [Lexeme.operator?, hl, hk] at hop

/-- An expression may end before a separator. -/
theorem continues_separator (c : Char) (k : Nat) (G : Option Lexeme → Prop) :
    Continues (separatorText c) G (EndsBefore k) :=
  continues_single fun _ hl => endsBefore_separator hl.1 (Derives.kind_of_isSeparator hl.2)

theorem continues_separator_mul (c : Char) (M : Language Lexeme) (k : Nat)
    (G : Option Lexeme → Prop) :
    Continues (separatorText c * M) G (EndsBefore k) :=
  continues_single_mul fun _ hl => endsBefore_separator hl.1 (Derives.kind_of_isSeparator hl.2)

theorem expressions_le {k m : Nat} (hm : m ≤ k) (hk : k ≤ 8) : expressions k ≤ expressions m := by
  intro ls h
  obtain ⟨e, n, h⟩ := h
  exact ⟨e, n, h.looser hm hk⟩

/-- A name is an expression. -/
theorem made_mem_expressions {k : Nat} (hk : k ≤ 8) : [Lexeme.made .ident "x"] ∈ expressions k :=
  expressions_le hk (Nat.le_refl 8) ⟨_, _, .ident rfl⟩

theorem viable_expressions {k : Nat} (hk : k ≤ 8) : Viable (expressions k) [] :=
  ⟨[.made .ident "x"], by simp [Lexeme.loose_made], made_mem_expressions hk⟩

/-- Behind an operator of the power of a chain stands the right operand that it takes. -/
theorem Links.right_operand {k i j : Nat} {bs bs' rest ms : List Lexeme}
    {l l' e e' : Expr} {o : Lexeme} {op : BinOp} (h1 : 1 ≤ k) (h6 : k ≤ 6) (h : Links k bs l e i)
    (h' : Links k bs' l' e' j) (hrest : Ends k rest) (ho : o.operator? = some op.symbol)
    (hp : op.power = k) (heq : bs ++ rest = bs' ++ o :: ms) :
    ∃ rs r n ms', ms = rs ++ ms' ∧ Derives (k + 1) rs r n ∧ Ends (k + 1) ms' := by
  -- An operator of power `k` is at hand, so the first chain goes on.
  have next {o : Lexeme} {op : BinOp} {bs ms : List Lexeme} {l e : Expr} {i : Nat}
      (h : Links k bs l e i) (ho : o.operator? = some op.symbol) (hp : op.power = k)
      (heq : bs ++ rest = o :: ms) :
      ∃ rs r n bs' l' i', ms = rs ++ (bs' ++ rest) ∧ Derives (k + 1) rs r n ∧
        Links k bs' l' e i' := by
    cases h with
    | nil =>
      have hlt := hrest o (by simp [show rest = _ from heq]) op ho
      omega
    | cons ho' hp' hr h =>
      rw [List.cons_append, List.append_assoc] at heq
      exact ⟨_, _, _, _, _, _, (List.cons.inj heq).2.symm, hr, h⟩
  induction h' generalizing bs l i with
  | nil =>
    obtain ⟨rs, r, n, bs', l', i', rfl, hr, h⟩ := next h ho hp heq
    exact ⟨rs, r, n, bs' ++ rest, rfl, hr, h.ends (hrest.mono (by omega))⟩
  | @cons m j rs' bs' l' r' e' o' op' ho' hp' hr' h' ih =>
    rw [List.cons_append, List.append_assoc] at heq
    obtain ⟨rs, r, n, bs'', l'', i', hms, hr, h⟩ := next h ho' hp' heq
    have hends : Ends (k + 1) (o :: ms) := by
      intro o'' ho'' op'' hop
      obtain rfl : o = o'' := by simpa using ho''
      obtain rfl : op = op'' := BinOp.symbol_injective (by simpa [ho] using hop)
      omega
    obtain ⟨rfl, _⟩ := derives_unique _ (by omega) (by omega) (Nat.le_refl _) hr' hr hms
      (h'.ends hends) (h.ends (hrest.mono (by omega)))
    exact ih h (List.append_cancel_left hms).symm

/-- An operator that is taken after an expression has its right operand behind it, in whatever
larger expression it stands. -/
theorem Derives.right_operand {k p i j : Nat} {ls ls' rest ms : List Lexeme}
    {e l : Expr} {o : Lexeme} {op : BinOp} (h1 : 1 ≤ k) (hkp : k ≤ p) (h : Derives k ls e i)
    (hrest : Ends k rest) (h' : Derives p ls' l j) (ho : o.operator? = some op.symbol)
    (hp : op.power = p) (heq : ls ++ rest = ls' ++ o :: ms) :
    ∃ rs r n ms', ms = rs ++ ms' ∧ Derives (p + 1) rs r n ∧ Ends (p + 1) ms' := by
  have hp6 := op.power_range.2
  -- The induction goes down to the level of the operator, each time into the first operand.
  induction hd : p - k generalizing k ls rest e i with
  | zero =>
    obtain rfl : k = p := by omega
    obtain ⟨as, bs, l₁, _, _, rfl, ha, hb, _⟩ := h.first_links (by omega)
    obtain ⟨as', bs', l₂, _, _, rfl, ha', hb', _⟩ := h'.first_links (by omega)
    have hends : Ends (k + 1) (o :: ms) := by
      intro o' ho' op' hop
      obtain rfl : o = o' := by simpa using ho'
      obtain rfl : op = op' := BinOp.symbol_injective (by simpa [ho] using hop)
      omega
    rw [List.append_assoc, List.append_assoc] at heq
    obtain ⟨rfl, _⟩ := derives_unique _ (by omega) (by omega) (Nat.le_refl _) ha ha' heq
      (hb.ends (hrest.mono (by omega))) (hb'.ends hends)
    exact hb.right_operand h1 (by omega) hb' hrest ho hp (List.append_cancel_left heq)
  | succ d ih =>
    obtain ⟨as, bs, l₁, _, _, rfl, ha, hb, _⟩ := h.first_links (by omega)
    rw [List.append_assoc] at heq
    exact ih (by omega) (by omega) ha (hb.ends (hrest.mono (by omega))) heq (by omega)

theorem Derives.first_unary {k n : Nat} {ls : List Lexeme} {e : Expr} (h : Derives k ls e n)
    (hk : k ≤ 7) : ∃ as bs l i, ls = as ++ bs ∧ Derives 7 as l i := by
  induction hd : 7 - k generalizing k ls e n with
  | zero =>
    obtain rfl : k = 7 := by omega
    exact ⟨ls, [], e, n, by simp, h⟩
  | succ d ih =>
    obtain ⟨as, bs, l, i, _, rfl, ha, _⟩ := h.first_links (by omega)
    obtain ⟨as', bs', l', i', rfl, ha'⟩ := ih ha (by omega) (by omega)
    exact ⟨as', bs' ++ bs, l', i', by simp, ha'⟩

/-- What an expression opens, one of the unary level opens. -/
theorem opens_unary {k : Nat} {F : Option Lexeme → Prop} {w ls : List Lexeme} (hk : k ≤ 7)
    (h : Opens (expressions k) F w ls) : ∃ ls', Opens (expressions 7) anyNext w ls' := by
  obtain ⟨rest, rfl, ⟨e, n, h⟩, _⟩ := h
  obtain ⟨as, bs, l, i, rfl, ha⟩ := h.first_unary hk
  exact ⟨as, bs ++ rest, List.append_assoc as bs rest, ⟨l, i, ha⟩, trivial⟩

namespace Operand

variable {r : Reader} {c d : Cursor} {o left : Operand} {least bound level : Nat} {e : SyntaxError}

theorem stops_iff_ends {k : Nat} : Stops k c ↔ Ends k c.rest := by
  constructor
  · intro h l hl op ho
    exact h op (binOp?_of_head? hl ho)
  · intro h op hop
    obtain ⟨l, hl, ho⟩ := head?_of_binOp? hop
    exact h l hl op ho

theorem stops_of_seven (c : Cursor) : Stops (7 + 1) c := by
  intro op _
  have := op.power_range.2
  omega

/-- Where an expression stops, the grammar leaves no other choice. -/
theorem finds_of_spelled (h1 : 1 ≤ level) (h8 : level ≤ 8) (h : Spelled level bound c o d)
    (hs : Stops level d) : Finds (expressions level) (EndsBefore level) c d := by
  obtain ⟨ls, n, hsp, hd, _⟩ := h
  refine ⟨ls, hsp, ⟨o.expr, n, hd⟩, ?_⟩
  intro w hw ls' hopens
  obtain ⟨rest, heq, ⟨e', n', hd'⟩, hrest⟩ := hopens
  have hends : Ends level w := by
    have hends := stops_iff_ends.mp hs
    rw [Ends, ← hw] at hends
    exact hends
  exact (derives_unique _ h1 h8 (Nat.le_refl _) hd hd' heq hends hrest).1.symm

theorem climb_eq_error (h : climb r least c = .error e) :
    r c = .error e ∨ ∃ left m, Reads r c left m ∧ extend r least left m = .error e := by
  simp only [climb] at h
  cases hr : r c with
  | error e' =>
    simp only [hr, Except.error.injEq] at h
    exact .inl (congrArg _ h)
  | ok x =>
    obtain ⟨left, m, hm⟩ := x
    simp only [hr] at h
    cases he : extend r least left m with
    | error e' =>
      simp only [he, Except.error.injEq] at h
      exact .inr ⟨left, m, ⟨hm, hr⟩, h ▸ he⟩
    | ok y => simp [he] at h

/-- Extending fails in a right operand, at the limit on height, or behind a right operand. -/
theorem extend_eq_error (h : extend r least left c = .error e) :
    ∃ op, binOp? c = some op ∧ least ≤ op.power ∧
      (climb r (op.power + 1) c.next = .error e ∨
        ∃ right m, Reads (climb r (op.power + 1)) c.next right m ∧
          (nestingLimit < max left.height right.height + 1 ∧ e = m.error .expressionTooDeep ∨
            max left.height right.height + 1 ≤ nestingLimit ∧
              extend r least ⟨.binary op left.expr right.expr, max left.height right.height + 1⟩ m =
                .error e)) := by
  rw [extend] at h
  cases hb : binOp? c with
  | none => simp [hb] at h
  | some op =>
    simp only [hb] at h
    by_cases hp : op.power < least
    · simp [hp] at h
    simp only [hp, if_false] at h
    refine ⟨op, rfl, Nat.le_of_not_lt hp, ?_⟩
    cases hr : r c.next with
    | error e' =>
      simp only [hr, Except.error.injEq] at h
      exact .inl (by simp [climb, hr, h])
    | ok x =>
      obtain ⟨first, m, hm⟩ := x
      simp only [hr] at h
      cases he : extend r (op.power + 1) first m with
      | error e' =>
        simp only [he, Except.error.injEq] at h
        exact .inl (by simp [climb, hr, he, h])
      | ok y =>
        obtain ⟨right, m', hm'⟩ := y
        simp only [he, node] at h
        refine .inr ⟨right, m', reads_climb.mpr ⟨first, m, ⟨hm, hr⟩, hm', he⟩, ?_⟩
        by_cases hn : nestingLimit < max left.height right.height + 1
        · simp only [hn, if_true, Except.error.injEq] at h
          exact .inl ⟨hn, h.symm⟩
        simp only [hn, if_false] at h
        refine .inr ⟨Nat.le_of_not_lt hn, ?_⟩
        cases ht : extend r least ⟨.binary op left.expr right.expr,
            max left.height right.height + 1⟩ m' with
        | error e' =>
          simp only [ht, Except.error.injEq] at h
          rw [h]
        | ok z => simp [ht] at h

/-- An operand fails behind its unary operator, or at the limit on height. -/
theorem applied_eq_error {op : UnOp} (h : applied op r c = .error e) :
    r c.next = .error e ∨ ∃ inner m, Reads r c.next inner m ∧ nestingLimit < inner.height + 1 ∧
      e = m.error .expressionTooDeep := by
  simp only [applied] at h
  cases hr : r c.next with
  | error e' =>
    simp only [hr, Except.error.injEq] at h
    exact .inl (congrArg _ h)
  | ok x =>
    obtain ⟨inner, m, hlt⟩ := x
    by_cases hn : nestingLimit < inner.height + 1
    · simp only [hr, node, hn, if_true, Except.error.injEq] at h
      exact .inr ⟨inner, m, ⟨hlt, hr⟩, hn, h.symm⟩
    · simp [hr, node, hn] at h

section Climbing

variable (hr : ∀ c o d, c.Proper → Reads r c o d → Spelled 7 bound c o d)
  (hm : ∀ c e, c.Proper → r c = .error e → Misses (expressions 7) anyNext c e)

include hm in
/-- An operand that cannot be read is the first one of the expression. -/
theorem misses_operand (hc : c.Proper) (h7 : least ≤ 7) (h : r c = .error e) :
    Misses (expressions least) (EndsBefore least) c e := by
  refine (hm c e hc h).widen (expressions_le h7 (by omega)) ?_
  intro w ls _ hopens
  exact opens_unary h7 hopens

/-- An error in the right operand of an operator is one of the whole expression. -/
theorem misses_rightOperand {op : BinOp} (h1 : 1 ≤ least) (hle : least ≤ op.power)
    (hl : Spelled op.power bound c left d) (hop : binOp? d = some op)
    (h : Misses (expressions (op.power + 1)) (EndsBefore (op.power + 1)) d.next e) :
    Misses (expressions least) (EndsBefore least) c e := by
  have hp6 := op.power_range.2
  obtain ⟨ls, n, hls, hd, _⟩ := hl
  obtain ⟨lx, hlx, ho⟩ := head?_of_binOp? hop
  have hnext : d.Spans [lx] d.next := Cursor.spans_singleton.mpr ⟨hlx, rfl⟩
  refine h.imp_right ?_
  intro hall
  obtain ⟨ms, m, hms, htoken, ⟨ns, hns, e', i, hright⟩, hdead⟩ := hall
  refine ⟨ls ++ lx :: ms, m, hls.trans (hnext.trans hms), htoken, ⟨ns, hns, ?_⟩, ?_⟩
  · have hchain := Derives.chain ho rfl hd hright
    rw [List.append_assoc, List.cons_append]
    exact expressions_le hle (by omega) ⟨_, _, hchain⟩
  · intro w hw ls' hopens
    obtain ⟨rest, heq, ⟨e', i, hd'⟩, hrest⟩ := hopens
    rw [List.append_assoc, List.cons_append] at heq
    obtain ⟨rs, r', j, ms', hsplit, hr, hends⟩ :=
      Derives.right_operand h1 hle hd' hrest hd ho rfl heq.symm
    exact hdead w hw rs ⟨ms', hsplit, ⟨r', j, hr⟩, hends⟩

include hr hm

/-- The induction is the one of reading: on what is left behind the operand. -/
theorem misses_extend {c₀ : Cursor} (hc₀ : c₀.Proper) (hl : Spelled level bound c₀ left c)
    (h1 : 1 ≤ least) (hle : least ≤ level) (h7 : level ≤ 7) (hs : Stops (level + 1) c)
    (he : extend r least left c = .error e) :
    Misses (expressions least) (EndsBefore least) c₀ e := by
  induction hn : c.rest.length using Nat.strongRecOn generalizing c₀ c left least level with
  | ind len ih =>
    subst hn
    obtain ⟨op, hop, hp, he⟩ := extend_eq_error he
    obtain ⟨ls, n, hsp, hd, hb, hh, hlim⟩ := hl
    have hpl : op.power ≤ level := Nat.le_of_lt_succ (hs op hop)
    have hp6 := op.power_range.2
    obtain ⟨lx, hlx, hsym⟩ := head?_of_binOp? hop
    have hcn : c.Spans [lx] c.next := Cursor.spans_singleton.mpr ⟨hlx, rfl⟩
    have hprop : c.next.Proper := (hc₀.of_spans hsp).of_spans hcn
    have hlt : c.next.rest.length < c.rest.length := hcn.length_lt (by simp)
    have hleft : Spelled op.power bound c₀ left c :=
      ⟨ls, n, hsp, hd.looser hpl (by omega), hb, hh, hlim⟩
    rcases he with he | ⟨right, m, hread, he⟩
    · refine misses_rightOperand h1 hp hleft hop ?_
      rcases climb_eq_error he with he | ⟨first, m, hfirst, he⟩
      · exact misses_operand hm hprop (by omega) he
      · have hsp₁ := hr c.next first m hprop hfirst
        have hlt' : m.rest.length < c.rest.length := by
          obtain ⟨_, _, h2, _⟩ := hsp₁
          have h3 := h2.length_le
          omega
        exact ih _ hlt' hprop hsp₁ (by omega) (by omega) (by omega) (stops_of_seven m) he rfl
    · obtain ⟨hright, hstop⟩ := climb_sound hr hprop (by omega) hread
      rcases he with ⟨_, rfl⟩ | ⟨hheight, he⟩
      · exact .inl (.inl rfl)
      obtain ⟨rs, k, hsp₂, hdr, hbr, hhr, _⟩ := hright
      have hwhole : Spelled op.power bound c₀
          ⟨.binary op left.expr right.expr, max left.height right.height + 1⟩ m := by
        refine ⟨ls ++ lx :: rs, max n k, hsp.trans (hcn.trans hsp₂), ?_, by omega, ?_, hheight⟩
        · exact .chain hsym rfl (hd.looser hpl (by omega)) hdr
        · simp [Expr.height, hh, hhr]
      have hlt' : m.rest.length < c.rest.length := Nat.lt_of_le_of_lt hsp₂.length_le hlt
      exact ih _ hlt' hc₀ hwhole h1 hp (by omega) hstop he rfl

theorem misses_climb (hc : c.Proper) (h1 : 1 ≤ least) (h7 : least ≤ 7)
    (h : climb r least c = .error e) : Misses (expressions least) (EndsBefore least) c e := by
  rcases climb_eq_error h with h | ⟨left, m, hl, h⟩
  · exact misses_operand hm hc h7 h
  · exact misses_extend hr hm hc (hr c left m hc hl) h1 h7 (by omega) (stops_of_seven m) h

end Climbing

end Operand

/-- The lexemes that start an expression of the unary level. -/
def StartsUnary (l : Lexeme) : Prop :=
  (∃ op : UnOp, l.operator? = some op.symbol) ∨
    ∃ t : Token, l = ⟨t, none⟩ ∧
      (t.kind = .int ∧ readWord? t.text.toList ≠ none ∨ t.kind = .bool ∨ t.kind = .ident ∨
        t.isSeparator '(')

theorem Derives.startsUnary {n : Nat} {ls : List Lexeme} {e : Expr} (h : Derives 7 ls e n) :
    ∃ l ms, ls = l :: ms ∧ StartsUnary l := by
  cases h.prefixed with
  | primary h =>
    cases h.primary with
    | @num t w hk hw => exact ⟨_, _, rfl, .inr ⟨t, rfl, .inl ⟨hk, by simp [hw]⟩⟩⟩
    | @bool t hk => exact ⟨_, _, rfl, .inr ⟨t, rfl, .inr (.inl hk)⟩⟩
    | @ident t hk => exact ⟨_, _, rfl, .inr ⟨t, rfl, .inr (.inr (.inl hk))⟩⟩
    | @parens n ls e a b ha h hb => exact ⟨_, _, rfl, .inr ⟨a, rfl, .inr (.inr (.inr ha))⟩⟩
  | signed ho hk hw => exact ⟨_, _, rfl, .inl ⟨.neg, ho⟩⟩
  | @unary n ls e o op ho hi h => exact ⟨_, _, rfl, .inl ⟨op, ho⟩⟩

/-- Where no expression starts, the first lexeme is at fault. -/
theorem misses_start {c : Cursor} {e : SyntaxError} (htoken : e.token = c.peek)
    (h : ∀ l ∈ c.rest.head?, ¬ StartsUnary l) : Misses (expressions 7) anyNext c e := by
  refine .of_breaks htoken ⟨viable_expressions (by omega), ?_⟩
  intro w hw ls' hopens
  obtain ⟨rest, heq, ⟨e', n, hd⟩, _⟩ := hopens
  obtain ⟨l, ms, rfl, hl⟩ := hd.startsUnary
  apply h l _ hl
  rw [← hw, show w = _ from heq]
  rfl

/-- The texts of an expression in parentheses. -/
def parenthesizedText : Language Lexeme :=
  separatorText '(' * (expressions 1 * separatorText ')')

theorem parenthesizedText_le : parenthesizedText ≤ expressions 7 := by
  intro ls h
  obtain ⟨_, ⟨⟨a, _⟩, ⟨rfl, ha⟩, rfl⟩, _, hinner, rfl⟩ := Language.mem_mul.mp h
  obtain ⟨ms, ⟨e, n, hd⟩, _, ⟨⟨b, _⟩, ⟨rfl, hb⟩, rfl⟩, rfl⟩ := Language.mem_mul.mp hinner
  exact expressions_le (by omega) (Nat.le_refl 8) ⟨e, n + 1, .parens ha hd hb⟩

/-- An expression that starts with a parenthesis is one in parentheses. -/
theorem opens_parenthesized {F : Option Lexeme → Prop} {w ls : List Lexeme} {a : Token}
    (hw : w.head? = some ⟨a, none⟩) (ha : a.isSeparator '(') (h : Opens (expressions 7) F w ls) :
    Opens parenthesizedText F w ls := by
  have hk := Derives.kind_of_isSeparator ha
  obtain ⟨rest, rfl, ⟨e, n, h⟩, hF⟩ := h
  refine ⟨rest, rfl, ?_, hF⟩
  cases h.prefixed with
  | primary h =>
    cases h.primary with
    | num hk' hw' => simp_all
    | bool hk' => simp_all
    | ident hk' => simp_all
    | @parens n ls e a' b ha' hd hb =>
      have hclose : ls ++ [⟨b, none⟩] ∈ expressions 1 * separatorText ')' :=
        Language.append_mem_mul ⟨e, n, hd⟩ (mem_single ⟨rfl, hb⟩)
      have hopen : [⟨a', none⟩] ∈ separatorText '(' := mem_single ⟨rfl, ha'⟩
      exact Language.append_mem_mul hopen hclose
  | @signed o t w ho hk' hw' =>
    obtain rfl : o = ⟨a, none⟩ := by simpa using hw
    simp [Lexeme.operator?, hk] at ho
  | @unary n ls e o op ho hi h =>
    obtain rfl : o = ⟨a, none⟩ := by simpa using hw
    simp [Lexeme.operator?, hk] at ho

/-- The texts behind a unary operator. A minus takes an integer with the range of a negative one. -/
def operandText (op : UnOp) : Language Lexeme :=
  {ls | (ls ∈ expressions 7 ∧ (op = .neg → ∀ l ∈ ls.head?, l.token.kind ≠ .int)) ∨
    op = .neg ∧ ∃ (t : Token) (w : Int32), ls = [⟨t, none⟩] ∧ t.kind = .int ∧
      readWord? ("-" ++ t.text).toList = some w}

theorem viable_operandText (op : UnOp) : Viable (operandText op) [] :=
  ⟨[.made .ident "x"], by simp [Lexeme.loose_made],
    .inl ⟨made_mem_expressions (by omega), by simp [Lexeme.made]⟩⟩

/-- The texts of an operand with its operator. -/
def appliedText (op : UnOp) : Language Lexeme :=
  single (fun l => l.operator? = some op.symbol) * operandText op

theorem appliedText_le (op : UnOp) : appliedText op ≤ expressions 7 := by
  intro ls h
  obtain ⟨_, ⟨o, ho, rfl⟩, ms, hms, rfl⟩ := Language.mem_mul.mp h
  rcases hms with ⟨⟨e, n, hd⟩, hi⟩ | ⟨rfl, t, w, rfl, hk, hw⟩
  · exact ⟨.unary op e, n + 1, .unary ho hi hd⟩
  · exact ⟨.num w, 0, .signed ho hk hw⟩

/-- An expression that starts with a unary operator is one that it is applied in. -/
theorem opens_applied {op : UnOp} {F : Option Lexeme → Prop} {w ls : List Lexeme} {o : Lexeme}
    (hw : w.head? = some o) (ho : o.operator? = some op.symbol) (h : Opens (expressions 7) F w ls) :
    Opens (appliedText op) F w ls := by
  have hsingle : [o] ∈ single fun l => l.operator? = some op.symbol := mem_single ho
  obtain ⟨rest, rfl, ⟨e, n, h⟩, hF⟩ := h
  refine ⟨rest, rfl, ?_, hF⟩
  cases h.prefixed with
  | primary h =>
    obtain ⟨t, ms, rfl, hk⟩ := h.primary_head
    obtain rfl : ⟨t, none⟩ = o := by simpa using hw
    simp [Lexeme.operator?, hk] at ho
  | @signed o' t w ho' hk hw' =>
    obtain rfl : o' = o := by simpa using hw
    obtain rfl : UnOp.neg = op := UnOp.symbol_injective (Option.some.inj (ho'.symm.trans ho))
    exact Language.append_mem_mul hsingle (.inr ⟨rfl, t, w, rfl, hk, hw'⟩)
  | @unary n ls e o' op' ho' hi hd =>
    obtain rfl : o' = o := by simpa using hw
    obtain rfl : op' = op := UnOp.symbol_injective (Option.some.inj (ho'.symm.trans ho))
    exact Language.append_mem_mul hsingle (.inl ⟨⟨e, n, hd⟩, hi⟩)

namespace Operand

variable {r : Reader} {c d : Cursor} {o : Operand} {e : SyntaxError}

/-- An error behind a unary operator is one of the whole operand. -/
theorem misses_behind {op : UnOp} (ho : c.operator? = some op.symbol)
    (h : Misses (operandText op) anyNext c.next e) : Misses (expressions 7) anyNext c e := by
  obtain ⟨l, hl, hsym⟩ := operator_eq_head? ho
  have happlied : Misses (appliedText op) anyNext c e :=
    .right (finds_single hl hsym) h continues_any
  refine happlied.widen (appliedText_le op) ?_
  intro w ls hw hopens
  exact ⟨ls, opens_applied (hw.trans hl) hsym hopens⟩

theorem misses_applied (op : UnOp)
    (hm : ∀ c e, c.Proper → r c = .error e → Misses (expressions 7) anyNext c e) (hc : c.Proper)
    (ho : c.operator? = some op.symbol)
    (hi : op = .neg → ∀ l ∈ c.next.rest.head?, l.token.kind ≠ .int)
    (h : applied op r c = .error e) : Misses (expressions 7) anyNext c e := by
  obtain ⟨l, hl, _⟩ := operator_eq_head? ho
  have hprop : c.next.Proper := hc.of_spans (Cursor.spans_singleton.mpr ⟨hl, rfl⟩)
  rcases applied_eq_error h with hr | ⟨_, _, _, _, rfl⟩
  · refine misses_behind ho ((hm c.next e hprop hr).imp_right ?_)
    intro hall
    obtain ⟨ls, d, hsp, htoken, hviable, hdead⟩ := hall
    refine ⟨ls, d, hsp, htoken, ?_, ?_⟩
    · cases ls with
      | nil => exact viable_operandText op
      | cons l ls =>
        obtain ⟨ms, hms, hexpr⟩ := hviable
        refine ⟨ms, hms, .inl ⟨hexpr, ?_⟩⟩
        intro hneg l' hl'
        apply hi hneg l'
        rw [hsp.rest]
        exact hl'
    · intro w hw ls' hopens
      obtain ⟨rest, heq, hoperand, _⟩ := hopens
      rcases hoperand with ⟨hexpr, _⟩ | ⟨hneg, t, _, rfl, hk, _⟩
      · exact hdead w hw ls' ⟨rest, heq, hexpr, trivial⟩
      · have hhead : c.next.rest.head? = some ⟨t, none⟩ := by
          rw [← hsp.head?_append hw, heq]
          rfl
        exact hi hneg _ hhead hk
  · exact .inl (.inl rfl)

theorem integer_eq_error {sign : String} {hrest : c.rest ≠ []}
    (h : integer sign c hrest = .error e) :
    e.token = c.peek ∧ readWord? (sign ++ c.peek.text).toList = none := by
  unfold integer at h
  cases hw : readWord? (sign ++ c.peek.text).toList with
  | none =>
    simp only [hw, Except.error.injEq] at h
    exact ⟨by rw [← h]; rfl, rfl⟩
  | some w =>
    rw [hw] at h
    simp at h

theorem misses_negated (hm : ∀ c e, c.Proper → r c = .error e → Misses (expressions 7) anyNext c e)
    (hc : c.Proper) (ho : c.operator? = some "-") (h : negated r c = .error e) :
    Misses (expressions 7) anyNext c e := by
  have ho' : c.operator? = some UnOp.neg.symbol := ho
  obtain ⟨l, hl, _⟩ := operator_eq_head? ho
  have hprop : c.next.Proper := hc.of_spans (Cursor.spans_singleton.mpr ⟨hl, rfl⟩)
  simp only [negated] at h
  by_cases hint : c.next.rest ≠ [] ∧ c.next.peek.kind = .int
  · rw [dif_pos hint] at h
    cases hi : integer "-" c.next hint.1 with
    | ok x => simp [hi] at h
    | error e' =>
      simp only [hi, Except.error.injEq] at h
      subst h
      obtain ⟨htoken, hnone⟩ := integer_eq_error hi
      have hhead := hprop.head?_eq (by simp [hint.2]) (by simp [hint.2])
      -- The integer is out of range, and no operand of a minus starts with it otherwise.
      refine misses_behind ho' (.of_breaks htoken ⟨viable_operandText .neg, ?_⟩)
      intro w hw ls' hopens
      obtain ⟨rest, heq, hoperand, _⟩ := hopens
      rw [hhead, show w = _ from heq] at hw
      rcases hoperand with ⟨⟨e, n, hd⟩, hno⟩ | ⟨_, t, v, rfl, hk, hv⟩
      · obtain ⟨l, ms, rfl⟩ := List.exists_cons_of_ne_nil hd.ne_nil
        obtain rfl : l = ⟨c.next.peek, none⟩ := by simpa using hw
        exact hno rfl _ rfl hint.2
      · obtain rfl : t = c.next.peek := by simpa using hw
        rw [hnone] at hv
        simp at hv
  · rw [dif_neg hint] at h
    refine misses_applied .neg hm hc ho' ?_ h
    intro _ l' hl' hk
    refine hint ⟨?_, ?_⟩
    · intro hnil
      simp [hnil] at hl'
    · rw [Cursor.peek_of_head? hl', hk]

theorem misses_parenthesized
    (hr : ∀ c o d, c.Proper → Reads r c o d → Finds (expressions 1) (EndsBefore 1) c d)
    (hm : ∀ c e, c.Proper → r c = .error e → Misses (expressions 1) (EndsBefore 1) c e)
    (hc : c.Proper) (hopen : c.peek.isSeparator '(') (h : parenthesized r c = .error e) :
    Misses (expressions 7) anyNext c e := by
  have hk := Derives.kind_of_isSeparator hopen
  have hhead := hc.head?_eq (by simp [hk]) (by simp [hk])
  have hprop : c.next.Proper := hc.of_spans (hc.spans_peek (by simp [hk]) (by simp [hk]))
  have hclose := continues_separator ')' 1 anyNext
  have hinner : Misses (expressions 1 * separatorText ')') anyNext c.next e := by
    simp only [parenthesized] at h
    cases hx : r c.next with
    | error e' =>
      simp only [hx, Except.error.injEq] at h
      subst h
      exact (hm c.next e' hprop hx).left (viable_separatorText ')') hclose
    | ok x =>
      obtain ⟨inner, m, hlt⟩ := x
      by_cases hs : m.peek.isSeparator ')'
      · simp [hx, hs] at h
      obtain rfl : m.error (.expected ')' .closingParenthesis) = e := by simpa [hx, hs] using h
      exact .right (hr c.next inner m hprop ⟨hlt, hx⟩) (misses_separator rfl hs) hclose
  have hwhole : Misses parenthesizedText anyNext c e :=
    .right (finds_separator hc hopen) hinner continues_any
  refine hwhole.widen parenthesizedText_le ?_
  intro w ls hw hopens
  exact ⟨ls, opens_parenthesized (hw.trans hhead) hopen hopens⟩

theorem misses_primary
    (hr : ∀ c o d, c.Proper → Reads r c o d → Finds (expressions 1) (EndsBefore 1) c d)
    (hm : ∀ c e, c.Proper → r c = .error e → Misses (expressions 1) (EndsBefore 1) c e)
    (hc : c.Proper) (hop : ∀ op : UnOp, c.operator? ≠ some op.symbol) (h : primary r c = .error e) :
    Misses (expressions 7) anyNext c e := by
  -- The lexeme at the cursor starts an expression only if its token does.
  have hstart {l : Lexeme} (hl : c.rest.head? = some l) (hs : StartsUnary l) :
      c.peek.kind = .int ∧ readWord? c.peek.text.toList ≠ none ∨ c.peek.kind = .bool ∨
        c.peek.kind = .ident ∨ c.peek.isSeparator '(' := by
    rcases hs with ⟨op, ho⟩ | ⟨t, rfl, ht⟩
    · exact absurd ((Cursor.operator?_of_head? hl).trans ho) (hop op)
    · rwa [Cursor.peek_of_head? hl]
  unfold primary at h
  by_cases hrest : c.rest = []
  · simp only [hrest, dite_true, Except.error.injEq] at h
    exact misses_start (by rw [← h]; rfl) (by simp [hrest])
  simp only [hrest, dite_false] at h
  split at h
  · next hk =>
    obtain ⟨htoken, hnone⟩ := integer_eq_error h
    refine misses_start htoken ?_
    intro l hl hs
    have hcases := hstart hl hs
    simp [hk, Token.isSeparator,
      show readWord? c.peek.text.toList = none by simpa using hnone] at hcases
  · simp at h
  · simp at h
  · next hint hbool hident =>
    split at h
    · next hs => exact misses_parenthesized hr hm hc hs h
    · next hs =>
      obtain rfl : c.error .expectedExpression = e := by simpa using h
      refine misses_start rfl ?_
      intro l hl hstarts
      have hcases := hstart hl hstarts
      simp_all

/-- An operand with its unary operators is missed at the first lexeme that no such operand can have
at its place. -/
theorem misses_unary (n : Nat) (hc : c.Proper) (h : unary n c = .error e) :
    Misses (expressions 7) anyNext c e := by
  induction n generalizing c e with
  | zero =>
    obtain rfl : c.error .expressionTooDeep = e := by simpa [unary] using h
    exact .inl (.inl rfl)
  | succ n ih =>
    have hm : ∀ c e, c.Proper → unary n c = .error e → Misses (expressions 7) anyNext c e :=
      fun c e hc h => ih hc h
    have hr : ∀ c o d, c.Proper → Reads (unary n) c o d → Spelled 7 n c o d :=
      fun c o d hc h => unary_sound n hc h
    unfold unary at h
    by_cases hminus : c.operator? = some "-"
    · simp only [hminus, if_true] at h
      exact misses_negated hm hc hminus h
    by_cases hnot : c.operator? = some "!"
    · simp only [hnot, if_true] at h
      exact misses_applied .not hm hc hnot (by simp) h
    simp only [hminus, hnot, if_false] at h
    refine misses_primary ?_ ?_ hc ?_ h
    · intro c o d hc hread
      obtain ⟨hspelled, hstop⟩ := climb_sound hr hc (by omega) hread
      exact finds_of_spelled (by omega) (by omega) hspelled hstop
    · intro c e hc herror
      exact misses_climb hr hm hc (by omega) (by omega) herror
    · intro op
      cases op with
      | neg => exact hminus
      | not => exact hnot

end Operand

open Operand

variable {c d : Cursor}

/-- What is read as an expression is the only expression that can stand there. -/
theorem finds_readExpr {o : Operand} (hc : c.Proper) (h : Reads readExpr c o d) :
    Finds (expressions 1) (EndsBefore 1) c d := by
  obtain ⟨hspelled, hstop⟩ :=
    climb_sound (fun c o d hc h => unary_sound nestingLimit hc h) hc (by omega) h
  exact finds_of_spelled (by omega) (by omega) hspelled hstop

/-- An expression that is not read within the limits is missed at its first impossible lexeme. -/
theorem misses_readExpr {e : SyntaxError} (hc : c.Proper) (h : readExpr c = .error e) :
    Misses (expressions 1) (EndsBefore 1) c e :=
  misses_climb (fun c o d hc h => unary_sound nestingLimit hc h)
    (fun c e hc h => misses_unary nestingLimit hc h) hc (by omega) (by omega) h

end ImpAsm

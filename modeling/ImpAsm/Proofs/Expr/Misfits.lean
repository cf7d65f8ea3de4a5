import ImpAsm.Proofs.Expr.Faults
import ImpAsm.Proofs.Expr.Roles

namespace ImpAsm

open Turn

/-- What an expression looks for in a lexeme that it has not taken yet: an operator, or an integer
that a minus may belong to. -/
def Lexeme.look (l : Lexeme) : Option String × Bool := (l.operator?, l.token.kind = .int)

namespace Cursor

variable {c c' d d' : Cursor} {ls : List Lexeme}

/-- What an expression sees at a place without taking it. -/
def look? (c : Cursor) : Option (Option String × Bool) := c.rest.head?.map Lexeme.look

theorem operator?_of_look? (h : c'.look? = c.look?) : c'.operator? = c.operator? := by
  have hlook := congrArg (Option.bind · Prod.fst) h
  simpa [look?, Lexeme.look, operator?, Option.bind_map, Function.comp_def] using hlook

theorem integer_of_look? (h : c'.look? = c.look?) :
    (c'.rest ≠ [] ∧ c'.peek.kind = .int) ↔ (c.rest ≠ [] ∧ c.peek.kind = .int) := by
  have hlook (c : Cursor) :
      (c.rest ≠ [] ∧ c.peek.kind = .int) ↔ ∃ x ∈ c.look?, x.2 = true := by
    cases hrest : c.rest <;> simp [look?, peek, hrest, Lexeme.look]
  rw [hlook, hlook, h]

/-- The lexemes between two places hide what lies behind them. -/
theorem look?_of_spans (h : c.Spans ls d) (h' : c'.Spans ls d') (hlook : d'.look? = d.look?) :
    c'.look? = c.look? := by
  cases ls with
  | nil =>
    obtain rfl := spans_nil.mp h
    obtain rfl := spans_nil.mp h'
    exact hlook
  | cons l ls =>
    rw [look?, look?, (spans_cons.mp h).1, (spans_cons.mp h').1]

end Cursor

/-- What is wrong with a token that cannot stand where something else is due. -/
def Turn.fault : Turn → Token → SyntaxFault
  | operand _, t => if t.kind = .int then .literalOutOfRange else .expectedExpression
  | operator, _ => .expected ')' .closingParenthesis

/-- An error is found behind lexemes that can stand where they do. Either the next one cannot, or a
limit is passed; then it is so wherever these lexemes stand before a like place, which is told by
`P`. -/
def Misfit (P : Cursor → Prop) (turn : Turn) (c : Cursor) (e : SyntaxError) : Prop :=
  ∃ ls d roles next, c.Spans ls d ∧ turn.Takes ls roles next ∧ e.token = d.peek ∧
    (e.fault = next.fault d.peek ∧ (∀ l ∈ d.rest.head?, next.roles? l = none) ∨
      e.fault = .expressionTooDeep ∧ ∀ c' d', c'.Spans ls d' → d'.look? = d.look? → P c')

namespace Misfit

variable {P P' : Cursor → Prop} {turn next : Turn} {c d : Cursor} {ls : List Lexeme}
  {roles : List Role} {e : SyntaxError}

theorem here (h : ∀ l ∈ c.rest.head?, turn.roles? l = none) :
    Misfit P turn c (c.error (turn.fault c.peek)) :=
  ⟨[], c, [], turn, .refl c, takes_nil turn, rfl, .inl ⟨rfl, h⟩⟩

theorem limit (h : ∀ c', c'.look? = c.look? → P c') :
    Misfit P turn c (c.error .expressionTooDeep) := by
  refine ⟨[], c, [], turn, .refl c, takes_nil turn, rfl, .inr ⟨rfl, ?_⟩⟩
  intro c' d' hsp hlook
  obtain rfl := Cursor.spans_nil.mp hsp
  exact h d' hlook

/-- Lexemes that can stand where they do may come before. -/
theorem behind (hsp : c.Spans ls d) (ht : turn.Takes ls roles next)
    (hP : ∀ c' d', c'.Spans ls d' → d'.look? = d.look? → P d' → P' c') (h : Misfit P next d e) :
    Misfit P' turn c e := by
  obtain ⟨ms, m, more, last, hms, hm, htoken, hwhy⟩ := h
  refine ⟨ls ++ ms, m, roles ++ more, last, hsp.trans hms, ht.append hm, htoken,
    hwhy.imp_right ?_⟩
  intro hlimit
  refine ⟨hlimit.1, ?_⟩
  intro c' m' hsp' hlook
  obtain ⟨d', hd', hm'⟩ := hsp'.split
  exact hP c' d' hd' (Cursor.look?_of_spans hms hm' hlook) (hlimit.2 d' m' hm' hlook)

theorem mono (hP : ∀ c', P c' → P' c') (h : Misfit P turn c e) : Misfit P' turn c e := by
  refine h.behind (.refl c) (takes_nil turn) ?_
  intro c' d' hsp _ hd
  obtain rfl := Cursor.spans_nil.mp hsp
  exact hP d' hd

end Misfit

namespace Operand

variable {r : Reader} {c d : Cursor} {o left : Operand} {least bound level n : Nat} {signed : Bool}
  {e : SyntaxError}

theorem Reads.unique {o' : Operand} {d' : Cursor} (h : Reads r c o d) (h' : Reads r c o' d') :
    o = o' ∧ d = d' := by
  obtain ⟨_, hx⟩ := h
  obtain ⟨_, hx'⟩ := h'
  rw [hx] at hx'
  simp only [Except.ok.injEq, Prod.mk.injEq, Subtype.mk.injEq] at hx'
  exact hx'

theorem reads_congr {r' : Reader} (h : r c = r' c) : Reads r c o d ↔ Reads r' c o d := by
  rw [Reads, Reads, h]

/-- The reader takes nothing at `c`. -/
def Refuses (r : Reader) (c : Cursor) : Prop := ∀ o d, ¬ Reads r c o d

/-- Nothing comes of extending `left` at `c`. -/
def Stuck (r : Reader) (least : Nat) (left : Operand) (c : Cursor) : Prop :=
  ∀ o d, ¬ Extends r least left c o d

/-- What has been read has its roles. -/
theorem Spelled.takes (h : Spelled level bound c o d) (signed : Bool)
    (hsigned : signed → c.peek.kind ≠ .int) :
    ∃ ls n, c.Spans ls d ∧ (operand signed).Takes ls (pending signed ++ o.expr.roles) operator ∧
      Derives level ls o.expr n ∧ n < bound ∧ o.expr.height ≤ nestingLimit ∧
      o = ⟨o.expr, o.expr.height⟩ := by
  obtain ⟨ls, n, hsp, hd, hn, hh, hlim⟩ := h
  refine ⟨ls, n, hsp, hd.takes ?_, hd, hn, hh ▸ hlim, by rw [← hh]⟩
  intro hs l hl
  rw [← Cursor.peek_of_head? (c := c)]
  · exact hsigned hs
  · rw [hsp.rest, List.head?_append, Option.mem_def.mp hl]
    rfl

section Climbing

variable (hr : ∀ c o d, c.Proper → Reads r c o d → Spelled 7 bound c o d)
  (hcomplete : ∀ c ls e n d, c.Spans ls d → Derives 7 ls e n → n < bound →
    e.height ≤ nestingLimit → Reads r c ⟨e, e.height⟩ d)
  (hm : ∀ c e, c.Proper → r c = .error e → Misfit (Refuses r) (operand false) c e)

include hr hcomplete

/-- The lexemes that a reader has taken it takes anywhere. -/
theorem reads_again (hc : c.Proper) (signed : Bool) (hsigned : signed → c.peek.kind ≠ .int)
    (h : Reads r c o d) :
    ∃ ls, c.Spans ls d ∧ (operand signed).Takes ls (pending signed ++ o.expr.roles) operator ∧
      ∀ c' d', c'.Spans ls d' → Reads r c' o d' := by
  obtain ⟨ls, n, hsp, ht, hd, hn, hh, ho⟩ := (hr c o d hc h).takes signed hsigned
  refine ⟨ls, hsp, ht, ?_⟩
  intro c' d' hsp'
  rw [ho]
  exact hcomplete c' ls o.expr n d' hsp' hd hn hh

/-- So it is with operators between them, in front of a like place. -/
theorem climb_again (hc : c.Proper) (h7 : least ≤ 7) (h : Reads (climb r least) c o d) :
    ∃ ls, c.Spans ls d ∧ (operand false).Takes ls o.expr.roles operator ∧
      ∀ c' d', c'.Spans ls d' → d'.look? = d.look? → Reads (climb r least) c' o d' := by
  obtain ⟨hspelled, hstop⟩ := climb_sound hr hc h7 h
  obtain ⟨ls, n, hsp, ht, hd, hn, hh, ho⟩ := hspelled.takes false (by simp)
  refine ⟨ls, hsp, ht, ?_⟩
  intro c' d' hsp' hlook
  have hstop' : Stops least d' := by
    intro op hop
    rw [binOp?, Cursor.operator?_of_look? hlook] at hop
    exact hstop op hop
  rw [ho]
  exact climb_complete hcomplete hd hsp' (Nat.le_refl _) hn hh
    (fun op hop => Nat.lt_succ_of_lt (hstop' op hop)) ((extends_stop hstop').mpr ⟨rfl, rfl⟩)

include hm

/-- An error behind the first operand is one of the whole. -/
theorem misfit_climb_of_extend (hc : c.Proper)
    (hextend : ∀ left m, Reads r c left m → m.Proper → extend r least left m = .error e →
      Misfit (Stuck r least left) operator m e)
    (h : climb r least c = .error e) : Misfit (Refuses (climb r least)) (operand false) c e := by
  rcases climb_eq_error h with h | ⟨left, m, hl, h⟩
  · refine (hm c e hc h).mono ?_
    intro c' hrefuses o d hread
    obtain ⟨left, m, hl, _⟩ := reads_climb.mp hread
    exact hrefuses left m hl
  · obtain ⟨ls, hsp, ht, hagain⟩ := reads_again hr hcomplete hc false (by simp) hl
    refine (hextend left m hl (hc.of_spans hsp) h).behind hsp ht ?_
    intro c' d' hsp' _ hstuck o d hread
    obtain ⟨left', m', hl', hext⟩ := reads_climb.mp hread
    obtain ⟨rfl, rfl⟩ := (hagain c' d' hsp').unique hl'
    exact hstuck o d hext

/-- The induction is the one of reading: on what is left behind the operand. -/
theorem misfit_extend (hc : c.Proper) (h7 : least ≤ 7) (h : extend r least left c = .error e) :
    Misfit (Stuck r least left) operator c e := by
  induction hn : c.rest.length using Nat.strongRecOn generalizing c left least with
  | ind len ih =>
    subst hn
    obtain ⟨op, hop, hp, he⟩ := extend_eq_error h
    have hp6 := op.power_range.2
    obtain ⟨lx, hlx, hsym⟩ := head?_of_binOp? hop
    have hcn : c.Spans [lx] c.next := Cursor.spans_singleton.mpr ⟨hlx, rfl⟩
    have hprop := hc.of_spans hcn
    have hlt : c.next.rest.length < c.rest.length := hcn.length_lt (by simp)
    -- wherever the operator stands, the same is done behind it
    have hstep {c' d' : Cursor} (hsp : c'.Spans [lx] d') :
        binOp? c' = some op ∧ d' = c'.next := by
      obtain ⟨hl, rfl⟩ := Cursor.spans_singleton.mp hsp
      exact ⟨binOp?_of_head? hl hsym, rfl⟩
    rcases he with he | ⟨right, m, hread, he⟩
    · have hright : Misfit (Refuses (climb r (op.power + 1))) (operand false) c.next e := by
        refine misfit_climb_of_extend hr hcomplete hm hprop ?_ he
        intro first m hfirst hm' he
        obtain ⟨ls, hsp, _⟩ := reads_again hr hcomplete hprop false (by simp) hfirst
        exact ih _ (Nat.lt_of_le_of_lt hsp.length_le hlt) hm' (by omega) he rfl
      refine hright.behind hcn (takes_binary hsym) ?_
      intro c' d' hsp _ hrefuses o d hext
      obtain ⟨hop', rfl⟩ := hstep hsp
      obtain ⟨right, m, hread, _⟩ := (extends_step hop' hp).mp hext
      exact hrefuses right m hread
    · obtain ⟨ls, hsp, ht, hagain⟩ := climb_again hr hcomplete hprop (by omega) hread
      have htakes := (takes_binary hsym).append ht
      rcases he with ⟨hheight, rfl⟩ | ⟨hheight, he⟩
      · refine (Misfit.limit fun _ _ => trivial).behind (hcn.trans hsp) htakes ?_
        intro c' d' hsp' hlook _ o d hext
        obtain ⟨m', h₁, h₂⟩ := hsp'.split
        obtain ⟨hop', rfl⟩ := hstep h₁
        obtain ⟨right', _, hread', hheight', _⟩ := (extends_step hop' hp).mp hext
        obtain ⟨rfl, _⟩ := (hagain _ _ h₂ hlook).unique hread'
        omega
      · have hlt' := Nat.lt_of_le_of_lt hsp.length_le hlt
        refine (ih _ hlt' (hprop.of_spans hsp) h7 he rfl).behind (hcn.trans hsp) htakes ?_
        intro c' d' hsp' hlook hstuck o d hext
        obtain ⟨m', h₁, h₂⟩ := hsp'.split
        obtain ⟨hop', rfl⟩ := hstep h₁
        obtain ⟨right', _, hread', _, hext'⟩ := (extends_step hop' hp).mp hext
        obtain ⟨rfl, rfl⟩ := (hagain _ _ h₂ hlook).unique hread'
        exact hstuck o d hext'

theorem misfit_climb (hc : c.Proper) (h7 : least ≤ 7) (h : climb r least c = .error e) :
    Misfit (Refuses (climb r least)) (operand false) c e := by
  refine misfit_climb_of_extend hr hcomplete hm hc ?_ h
  intro left m _ hmproper he
  exact misfit_extend hr hcomplete hm hmproper h7 he

end Climbing

section Primaries

variable (hr : ∀ c o d, c.Proper → Reads r c o d → ∃ ls, c.Spans ls d ∧
    (operand false).Takes ls o.expr.roles operator ∧ Stops 1 d)
  (hm : ∀ c e, c.Proper → r c = .error e → Misfit (Refuses r) (operand false) c e)
  {P : Cursor → Prop}

include hr hm

theorem misfit_parenthesized (hc : c.Proper) (hopen : c.peek.isSeparator '(')
    (hP : ∀ c' : Cursor, c'.rest.head? = some ⟨c.peek, none⟩ → Refuses r c'.next → P c')
    (h : parenthesized r c = .error e) : Misfit P (operand signed) c e := by
  have hk := Derives.kind_of_isSeparator hopen
  have hcn := hc.spans_peek (by simp [hk]) (by simp [hk])
  simp only [parenthesized] at h
  cases hx : r c.next with
  | error e' =>
    simp only [hx, Except.error.injEq] at h
    subst h
    refine (hm c.next e' (hc.of_spans hcn) hx).behind hcn (takes_opening hopen) ?_
    intro c' d' hsp _ hrefuses
    obtain ⟨hl, rfl⟩ := Cursor.spans_singleton.mp hsp
    exact hP c' hl hrefuses
  | ok x =>
    obtain ⟨inner, m, hlt⟩ := x
    by_cases hs : m.peek.isSeparator ')'
    · simp [hx, hs] at h
    obtain rfl : m.error (.expected ')' .closingParenthesis) = e := by simpa [hx, hs] using h
    obtain ⟨ls, hsp, hls, hstop⟩ := hr _ _ _ (hc.of_spans hcn) ⟨hlt, hx⟩
    have hmisfit : Misfit (fun _ => False) operator m (m.error (operator.fault m.peek)) := by
      refine .here ?_
      intro l hl
      have hnone : l.operator?.bind BinOp.ofSymbol? = none := by
        rw [← Cursor.operator?_of_head? hl]
        cases hop : binOp? m with
        | none => exact hop
        | some op =>
          have hlow := op.power_range.1
          have hhigh := hstop op hop
          omega
      rw [Cursor.peek_of_head? hl] at hs
      simp [roles?, hnone, hs]
    exact hmisfit.behind (hcn.trans hsp) ((takes_opening hopen).append hls) (by simp)

omit hr hm in
/-- An integer that is no word. -/
theorem misfit_integer (hc : c.Proper) (hk : c.peek.kind = .int) {hrest : c.rest ≠ []}
    (h : integer (sign signed) c hrest = .error e) : Misfit P (operand signed) c e := by
  unfold integer at h
  cases hw : readWord? (sign signed ++ c.peek.text).toList with
  | some w =>
    rw [hw] at h
    simp at h
  | none =>
    simp only [hw, Except.error.injEq] at h
    have hfault : (operand signed).fault c.peek = .literalOutOfRange := by simp [Turn.fault, hk]
    rw [← h, ← hfault]
    refine .here ?_
    intro l hl
    rw [hc.head?_eq (by simp [hk]) (by simp [hk])] at hl
    obtain rfl : ⟨c.peek, none⟩ = l := by simpa using hl
    simpa [roles?, Lexeme.operator?, hk] using hw

omit hr hm in
/-- A token that starts no operand. -/
theorem misfit_start (hop : ∀ op : UnOp, c.operator? ≠ some op.symbol)
    (hk : c.peek.kind ∉ [.int, .bool, .ident]) (hs : ¬ c.peek.isSeparator '(') :
    Misfit P (operand signed) c (c.error .expectedExpression) := by
  simp only [List.mem_cons, List.not_mem_nil, or_false, not_or] at hk
  have hfault : (operand signed).fault c.peek = .expectedExpression := by simp [Turn.fault, hk.1]
  rw [← hfault]
  refine .here ?_
  intro l hl
  have hneg := hop .neg
  have hnot := hop .not
  rw [Cursor.operator?_of_head? hl] at hneg hnot
  rw [Cursor.peek_of_head? hl] at hk hs
  simp only [roles?]
  split <;> simp_all [UnOp.symbol]

theorem misfit_primary (hc : c.Proper) (hsigned : signed → c.peek.kind ≠ .int)
    (hop : ∀ op : UnOp, c.operator? ≠ some op.symbol)
    (hP : c.peek.isSeparator '(' → ∀ c' : Cursor, c'.rest.head? = some ⟨c.peek, none⟩ →
      Refuses r c'.next → P c')
    (h : primary r c = .error e) : Misfit P (operand signed) c e := by
  unfold primary at h
  by_cases hrest : c.rest = []
  · have hk : c.peek.kind = .eof := by simp [Cursor.peek, hrest, hc.ending]
    obtain rfl : c.error .expectedExpression = e := by simpa [hrest] using h
    exact misfit_start hop (by simp [hk]) (by simp [Token.isSeparator, hk])
  simp only [hrest, dite_false] at h
  split at h
  · next hk =>
    obtain rfl : signed = false := Bool.eq_false_iff.mpr fun h => hsigned h hk
    exact misfit_integer hc hk h
  · simp at h
  · simp at h
  · next hint hbool hident =>
    split at h
    · next hs => exact misfit_parenthesized hr hm hc hs (hP hs) h
    · next hs =>
      obtain rfl : c.error .expectedExpression = e := by simpa using h
      refine misfit_start hop ?_ hs
      simp only [List.mem_cons, List.not_mem_nil, or_false, not_or]
      exact ⟨hint, hbool, hident⟩

end Primaries

/-- Behind an opening parenthesis, an operand is refused with what stands in it. -/
theorem refuses_opening {t : Token} (hl : c.rest.head? = some ⟨t, none⟩) (ht : t.isSeparator '(')
    (h : Refuses (climb (unary n) 1) c.next) : Refuses (unary (n + 1)) c := by
  have hk := Derives.kind_of_isSeparator ht
  have hrest : c.rest ≠ [] := by
    intro hnil
    simp [hnil] at hl
  have heq : unary (n + 1) c = parenthesized (climb (unary n) 1) c := by
    rw [unary_succ_of_not_operator hl (by simp [hk])]
    simp [primary, hrest, Cursor.peek_of_head? hl, hk, ht]
  intro o d hread
  obtain ⟨m, hinner, _⟩ := reads_parenthesized.mp ((reads_congr heq).mp hread)
  exact h o m hinner

/-- A unary operator is applied to what stands behind it, unless it is the sign of an integer. -/
theorem unary_eq_applied (op : UnOp) (hop : c.operator? = some op.symbol)
    (hint : op = .neg → ¬ (c.next.rest ≠ [] ∧ c.next.peek.kind = .int)) :
    unary (n + 1) c = applied op (unary n) c := by
  cases op with
  | neg =>
    simp only [UnOp.symbol] at hop
    simp only [unary, hop, if_true, negated, dif_neg (hint rfl)]
  | not =>
    simp only [UnOp.symbol] at hop
    simp [unary, hop]

/-- An operand fails behind its unary operator. -/
theorem misfit_applied (op : UnOp) (hc : c.Proper) (hop : c.operator? = some op.symbol)
    (hint : op = .neg → ¬ (c.next.rest ≠ [] ∧ c.next.peek.kind = .int))
    (ih : ∀ (signed : Bool) c e, c.Proper → (signed → c.peek.kind ≠ .int) → unary n c = .error e →
      Misfit (Refuses (unary n)) (operand signed) c e)
    (h : applied op (unary n) c = .error e) :
    Misfit (Refuses (unary (n + 1))) (operand signed) c e := by
  obtain ⟨l, hl, hsym⟩ := operator_eq_head? hop
  have hcn : c.Spans [l] c.next := Cursor.spans_singleton.mpr ⟨hl, rfl⟩
  have hprop := hc.of_spans hcn
  obtain ⟨roles, ht⟩ := takes_unary hsym signed
  have hnext : (op = .neg : Bool) → c.next.peek.kind ≠ .int := by
    intro hneg hk
    exact hint (by simpa using hneg) ⟨hprop.rest_ne_nil (by simp [hk]), hk⟩
  -- wherever the operator stands before a like place, it is applied to what stands there
  have hstep {c' d' : Cursor} (hsp : c'.Spans [l] d') (hlook : d'.look? = c.next.look?) :
      unary (n + 1) c' = applied op (unary n) c' ∧ d' = c'.next := by
    obtain ⟨hl', rfl⟩ := Cursor.spans_singleton.mp hsp
    refine ⟨unary_eq_applied op ((Cursor.operator?_of_head? hl').trans hsym) ?_, rfl⟩
    intro hneg
    rw [Cursor.integer_of_look? hlook]
    exact hint hneg
  rcases applied_eq_error h with h | ⟨inner, m, hread, hheight, rfl⟩
  · refine (ih _ c.next e hprop hnext h).behind hcn ht ?_
    intro c' d' hsp hlook hrefuses o d hread
    obtain ⟨heq, rfl⟩ := hstep hsp hlook
    obtain ⟨inner, hinner, _⟩ := reads_applied.mp ((reads_congr heq).mp hread)
    exact hrefuses inner d hinner
  · obtain ⟨ls, hsp, hls, hagain⟩ := reads_again (fun c o d hc h => unary_sound n hc h)
      (fun c ls e k d hsp h hk hh => unary_complete hsp h hk hh) hprop _ hnext hread
    refine (Misfit.limit fun _ _ => trivial).behind (hcn.trans hsp) (ht.append hls) ?_
    intro c' d' hsp' hlook _ o d hread'
    obtain ⟨m', h₁, h₂⟩ := hsp'.split
    obtain ⟨heq, rfl⟩ := hstep h₁ (Cursor.look?_of_spans hsp h₂ hlook)
    obtain ⟨inner', hinner, hheight', _⟩ := reads_applied.mp ((reads_congr heq).mp hread')
    obtain ⟨rfl, _⟩ := (hagain _ _ h₂).unique hinner
    omega

/-- An operand with its unary operators fails at the first lexeme that cannot stand where it does,
or at a limit. The induction is on the allowance, which every operator and parenthesis uses up. -/
theorem misfit_unary (n : Nat) (signed : Bool) (hc : c.Proper)
    (hsigned : signed → c.peek.kind ≠ .int) (h : unary n c = .error e) :
    Misfit (Refuses (unary n)) (operand signed) c e := by
  induction n generalizing c e signed with
  | zero =>
    obtain rfl : c.error .expressionTooDeep = e := by simpa [unary] using h
    refine .limit ?_
    intro c' _ o d hread
    simp [Reads, unary] at hread
  | succ n ih =>
    by_cases hminus : c.operator? = some "-"
    · by_cases hint : c.next.rest ≠ [] ∧ c.next.peek.kind = .int
      · obtain ⟨l, hl, hsym⟩ := operator_eq_head? hminus
        have hcn : c.Spans [l] c.next := Cursor.spans_singleton.mpr ⟨hl, rfl⟩
        simp only [unary, hminus, if_true, negated, dif_pos hint] at h
        cases hi : integer "-" c.next hint.1 with
        | ok x => simp [hi] at h
        | error e' =>
          obtain rfl : e' = e := by simpa [hi] using h
          have hmisfit : Misfit (fun _ => False) (operand true) c.next e' :=
            misfit_integer (hc.of_spans hcn) hint.2 hi
          exact hmisfit.behind hcn (takes_minus hsym) (by simp)
      · rw [unary_eq_applied .neg hminus fun _ => hint] at h
        exact misfit_applied .neg hc hminus (fun _ => hint) (fun s c e hc hs h => ih s hc hs h) h
    by_cases hnot : c.operator? = some "!"
    · rw [unary_eq_applied .not hnot (by simp)] at h
      exact misfit_applied .not hc hnot (by simp) (fun s c e hc hs h => ih s hc hs h) h
    simp only [unary, hminus, hnot, if_false] at h
    have hr : ∀ c o d, c.Proper → Reads (unary n) c o d → Spelled 7 n c o d :=
      fun c o d hc h => unary_sound n hc h
    have hcomplete : ∀ c ls e k d, c.Spans ls d → Derives 7 ls e k → k < n →
        e.height ≤ nestingLimit → Reads (unary n) c ⟨e, e.height⟩ d :=
      fun c ls e k d hsp h hk hh => unary_complete hsp h hk hh
    refine misfit_primary ?_ ?_ hc hsigned ?_ ?_ h
    · intro c o d hc hread
      obtain ⟨ls, hsp, ht, _⟩ := climb_again hr hcomplete hc (by omega) hread
      exact ⟨ls, hsp, ht, (climb_sound hr hc (by omega) hread).2⟩
    · intro c e hc herror
      exact misfit_climb hr hcomplete (fun c e hc h => ih false hc (by simp) h) hc (by omega) herror
    · intro op
      cases op with
      | neg => exact hminus
      | not => exact hnot
    · intro hs c' hl hrefuses
      exact refuses_opening hl hs hrefuses

end Operand

open Operand

/-- An expression that is not read fails at the first lexeme that cannot stand where it does, or at
a limit. -/
theorem misfit_readExpr {c : Cursor} {e : SyntaxError} (hc : c.Proper) (h : readExpr c = .error e) :
    Misfit (Refuses readExpr) (operand false) c e :=
  misfit_climb (fun c o d hc h => unary_sound nestingLimit hc h)
    (fun c ls e k d hsp h hk hh => unary_complete hsp h hk hh)
    (fun c e hc h => misfit_unary nestingLimit false hc (by simp) h) hc (by omega) h

/-- No limit is passed up to the lexeme `l` behind `ls`: an expression within the limits starts with
`ls` and a lexeme that looks the same, such as another integer in place of an integer. -/
def WithinLimits (ls : List Lexeme) (l : Lexeme) : Prop :=
  ∃ l' ms e, l'.look = l.look ∧ Readable (ls ++ l' :: ms) e

/-- Such an expression is read, so no reader refuses its lexemes because of a limit. -/
theorem WithinLimits.exists_reads {ls more : List Lexeme} {l : Lexeme} {d : Cursor}
    (h : WithinLimits (ls ++ more) l) (hd : d.rest.head? = (more ++ [l]).head?) :
    ∃ c' d', c'.Spans ls d' ∧ d'.look? = d.look? ∧ ¬ Refuses readExpr c' := by
  obtain ⟨l', ms, e, hlook, hreadable⟩ := h
  rw [List.append_assoc] at hreadable
  let whole := ls ++ (more ++ l' :: ms)
  have hsp : (⟨0, whole, unplacedEnd⟩ : Cursor).Spans whole ⟨totalWidth whole, [], unplacedEnd⟩ :=
    ⟨(List.append_nil _).symm, (Nat.zero_add _).symm, rfl⟩
  obtain ⟨d', hls, hbehind⟩ := hsp.split
  refine ⟨_, d', hls, ?_, fun h => h _ _ (readExpr_complete hsp hreadable rfl)⟩
  rw [Cursor.look?, Cursor.look?, hd, hbehind.rest, List.append_nil]
  cases more with
  | nil => exact congrArg some hlook
  | cons x more => rfl

/-- As long as no limit is passed, an error is at the next lexeme behind lexemes that can stand
where they do if that one cannot, and beyond it if it can. -/
theorem Misfit.place {turn next : Turn} {c d : Cursor} {ls : List Lexeme} {l : Lexeme}
    {roles : List Role} {e : SyntaxError} (h : Misfit (Refuses readExpr) turn c e)
    (hsp : c.Spans ls d) (ht : turn.Takes ls roles next) (hl : d.rest.head? = some l)
    (hlimits : WithinLimits ls l) :
    (e = d.error (next.fault d.peek) ∧ next.roles? l = none) ∨
      (next.roles? l ≠ none ∧ ∃ ms d', d.next.Spans ms d' ∧ e.token = d'.peek) := by
  obtain ⟨ls', d', roles', next', hsp', ht', htoken, hwhy⟩ := h
  have hrest : ls ++ d.rest = ls' ++ d'.rest := hsp.rest.symm.trans hsp'.rest
  -- an error that is not beyond the lexeme is not one about limits
  have hfits {more : List Lexeme} (hls : ls = ls' ++ more) :
      e.fault = next'.fault d'.peek ∧ ∀ x ∈ d'.rest.head?, next'.roles? x = none := by
    refine hwhy.resolve_right ?_
    intro hlimit
    have hhead : d'.rest.head? = (more ++ [l]).head? := by
      rw [hls, List.append_assoc] at hrest
      rw [← List.append_cancel_left hrest]
      cases more with
      | nil => exact hl
      | cons x more => rfl
    obtain ⟨c', m', hm', hlook, hreads⟩ := WithinLimits.exists_reads (hls ▸ hlimits) hhead
    exact hreads (hlimit.2 c' m' hm' hlook)
  have here (hls : ls = ls') : e = d.error (next.fault d.peek) ∧ next.roles? l = none := by
    obtain ⟨hfault, hnone⟩ := hfits (hls.trans (List.append_nil ls').symm)
    subst hls
    obtain rfl := hsp.unique hsp'
    obtain rfl : next = next' := ht.next.symm.trans ht'.next
    exact ⟨by rw [Cursor.error, ← hfault, ← htoken], hnone l hl⟩
  rcases List.append_eq_append_iff.mp hrest with ⟨more, hls', hmore⟩ | ⟨more, hls, hmore⟩
  · cases more with
    | nil => exact .inl (here (by simpa using hls'.symm))
    | cons x more =>
      subst hls'
      obtain rfl : x = l := by simpa [hmore] using hl
      obtain ⟨_, _, _, _, hx, _⟩ := ht'.cut
      obtain ⟨m, hm, hbehind⟩ := hsp'.split
      obtain rfl := hsp.unique hm
      refine .inr ⟨?_, more, d', (Cursor.spans_cons.mp hbehind).2, htoken⟩
      rw [← ht.next, hx]
      simp
  · cases more with
    | nil => exact .inl (here (by simpa using hls))
    | cons x more =>
      obtain ⟨_, hnone⟩ := hfits hls
      subst hls
      obtain ⟨_, _, _, _, hx, _⟩ := ht.cut
      rw [ht'.next, hnone x (by simp [hmore])] at hx
      simp at hx

end ImpAsm

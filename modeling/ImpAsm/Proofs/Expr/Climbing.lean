import ImpAsm.Proofs.Expr.Reading

namespace ImpAsm

theorem BinOp.ofSymbol?_eq_some {s : String} {op : BinOp} :
    ofSymbol? s = some op ↔ s = op.symbol := by
  constructor
  · intro h
    have hs := List.find?_some h
    exact (eq_of_beq hs).symm
  · intro h
    rw [h, ofSymbol?_symbol]

namespace Operand

/-- What lies between `c` and `d` spells the operand at a level, and stays below the bound on
nesting and within the limit on height. -/
def Spelled (level bound : Nat) (c : Cursor) (o : Operand) (d : Cursor) : Prop :=
  ∃ ls n, c.Spans ls d ∧ Derives level ls o.expr n ∧ n < bound ∧ o.height = o.expr.height ∧
    o.height ≤ nestingLimit

/-- No operator of power `least` or more stands at `c`. -/
def Stops (least : Nat) (c : Cursor) : Prop := ∀ op ∈ binOp? c, op.power < least

variable {r : Reader} {c d : Cursor} {o left : Operand} {least bound level : Nat}

theorem head?_of_binOp? {op : BinOp} (h : binOp? c = some op) :
    ∃ l, c.rest.head? = some l ∧ l.operator? = some op.symbol := by
  obtain ⟨s, hs, ho⟩ := Option.bind_eq_some_iff.mp h
  obtain ⟨l, hl, hs⟩ := Option.bind_eq_some_iff.mp hs
  exact ⟨l, hl, hs.trans (congrArg some (BinOp.ofSymbol?_eq_some.mp ho))⟩

theorem binOp?_of_head? {l : Lexeme} {op : BinOp} (hl : c.rest.head? = some l)
    (ho : l.operator? = some op.symbol) : binOp? c = some op := by
  simp [binOp?, Cursor.operator?_of_head? hl, ho, BinOp.ofSymbol?_symbol]

/-- What extending leaves is spelled at the level of its least power: behind an operator of power
`p` the right operand has taken all tighter ones, so the operator after it has power `p` or less. -/
theorem extends_sound
    (hr : ∀ c o d, c.Proper → Reads r c o d → Spelled 7 bound c o d) {c₀ : Cursor}
    (hc₀ : c₀.Proper) (hl : Spelled level bound c₀ left c) (hle : least ≤ level) (h7 : level ≤ 7)
    (hs : Stops (level + 1) c) (he : Extends r least left c o d) :
    Spelled least bound c₀ o d ∧ Stops least d := by
  induction hn : c.rest.length using Nat.strongRecOn
    generalizing c₀ c o left least level d with
  | ind len ih =>
    subst hn
    obtain ⟨ls, n, hsp, hd, hb, hh, hlim⟩ := hl
    by_cases hst : Stops least c
    · obtain ⟨rfl, rfl⟩ := (extends_stop hst).mp he
      exact ⟨⟨ls, n, hsp, hd.looser hle (by omega), hb, hh, hlim⟩, hst⟩
    obtain ⟨op, hop, hp⟩ : ∃ op, binOp? c = some op ∧ least ≤ op.power := by
      simpa [Stops] using hst
    have hpl : op.power ≤ level := Nat.le_of_lt_succ (hs op hop)
    have hp6 := op.power_range.2
    obtain ⟨lx, hlx, hsym⟩ := head?_of_binOp? hop
    have hcn : c.Spans [lx] c.next := Cursor.spans_singleton.mpr ⟨hlx, rfl⟩
    have hprop : c.next.Proper := (hc₀.of_spans hsp).of_spans hcn
    obtain ⟨right, m, hread, hheight, hext⟩ := (extends_step hop hp).mp he
    obtain ⟨first, m', hfirst, hext'⟩ := reads_climb.mp hread
    have hsp₁ := hr c.next first m' hprop hfirst
    have hlt : m'.rest.length < c.rest.length := by
      have h1 := hcn.length_lt (by simp)
      obtain ⟨_, _, h2, _⟩ := hsp₁
      have h3 := h2.length_le
      omega
    have hstop7 : Stops (7 + 1) m' := by
      intro op' _
      have := op'.power_range.2
      omega
    obtain ⟨hright, hstop⟩ := ih _ hlt hprop hsp₁ (by omega) (by omega) hstop7 hext' rfl
    obtain ⟨rs, k, hsp₂, hdr, hbr, hhr, _⟩ := hright
    have hwhole : Spelled op.power bound c₀
        ⟨.binary op left.expr right.expr, max left.height right.height + 1⟩ m := by
      refine ⟨ls ++ lx :: rs, max n k, hsp.trans (hcn.trans hsp₂), ?_, by omega, ?_, hheight⟩
      · exact .chain hsym rfl (hd.looser hpl (by omega)) hdr
      · simp [Expr.height, hh, hhr]
    have hlt' : m.rest.length < c.rest.length := by
      have h1 := hcn.length_lt (by simp)
      have h2 := hsp₂.length_le
      omega
    exact ih _ hlt' hc₀ hwhole hp (by omega) hstop hext rfl

theorem climb_sound (hr : ∀ c o d, c.Proper → Reads r c o d → Spelled 7 bound c o d)
    (hc : c.Proper) (hle : least ≤ 7) (h : Reads (climb r least) c o d) :
    Spelled least bound c o d ∧ Stops least d := by
  obtain ⟨left, m, hl, he⟩ := reads_climb.mp h
  have hstop : Stops (7 + 1) m := by
    intro op _
    have := op.power_range.2
    omega
  exact extends_sound hr hc (hr c left m hc hl) hle (by omega) hstop he

/-- An expression of a level is read up to its end, and then extended. The induction follows the
left-leaning chain, whose left part ends before an operator of its own power. -/
theorem climb_complete {ls : List Lexeme} {e : Expr} {n : Nat}
    (hr : ∀ c ls e n d, c.Spans ls d → Derives 7 ls e n → n < bound → e.height ≤ nestingLimit →
      Reads r c ⟨e, e.height⟩ d)
    (h : Derives level ls e n) {m : Cursor} (hsp : c.Spans ls m) (hle : least ≤ level)
    (hn : n < bound) (hh : e.height ≤ nestingLimit) (hs : Stops (level + 1) m)
    (he : Extends r least ⟨e, e.height⟩ m o d) : Reads (climb r least) c o d := by
  -- at the unary level and above, the operand is what the reader takes at once
  have base {k n : Nat} {ls : List Lexeme} {e : Expr} {c m : Cursor} {least : Nat} {o : Operand}
      {d : Cursor} (h : Derives k ls e n) (h7 : 7 ≤ k) (h8 : k ≤ 8) (hsp : c.Spans ls m)
      (hn : n < bound) (hh : e.height ≤ nestingLimit)
      (he : Extends r least ⟨e, e.height⟩ m o d) : Reads (climb r least) c o d :=
    reads_climb.mpr ⟨_, m, hr c ls e n m hsp (h.looser h7 h8) hn hh, he⟩
  induction h generalizing c m least o d with
  | @tighter k n ls e hk h ih =>
    by_cases h7 : 7 ≤ k
    · exact base (.tighter hk h) h7 (by omega) hsp hn hh he
    · exact ih hsp (by omega) hn hh (fun op hop => Nat.lt_succ_of_lt (hs op hop)) he
  | @chain k i j ls rs l r' lx op ho hp hl hr' ihl ihr =>
    obtain ⟨m₁, hsp₁, hsp₂⟩ := hsp.split
    obtain ⟨hlx, hsp₂⟩ := Cursor.spans_cons.mp hsp₂
    have hop : binOp? m₁ = some op := binOp?_of_head? hlx ho
    have hl' : l.height ≤ nestingLimit := by simp only [Expr.height] at hh; omega
    have hr'' : r'.height ≤ nestingLimit := by simp only [Expr.height] at hh; omega
    subst hp
    have hstop₁ : Stops (op.power + 1) m₁ := by
      intro op' hop'
      obtain rfl : op = op' := by simpa [hop] using hop'
      omega
    have hright : Reads (climb r (op.power + 1)) m₁.next ⟨r', r'.height⟩ m :=
      ihr hsp₂ (Nat.le_refl _) (by omega) hr'' (fun op hop => Nat.lt_succ_of_lt (hs op hop))
        ((extends_stop hs).mpr ⟨rfl, rfl⟩)
    have hext : Extends r least ⟨l, l.height⟩ m₁ o d :=
      (extends_step hop hle).mpr ⟨_, m, hright, hh, he⟩
    exact ihl hsp₁ hle (by omega) hl' hstop₁ hext
  | signed ho hk hw => exact base (.signed ho hk hw) (by omega) (by omega) hsp hn hh he
  | unary ho hi h ih => exact base (.unary ho hi h) (by omega) (by omega) hsp hn hh he
  | num hk hw => exact base (.num hk hw) (by omega) (by omega) hsp hn hh he
  | bool hk => exact base (.bool hk) (by omega) (by omega) hsp hn hh he
  | ident hk => exact base (.ident hk) (by omega) (by omega) hsp hn hh he
  | parens ha h hb ih => exact base (.parens ha h hb) (by omega) (by omega) hsp hn hh he

theorem one_le_nestingLimit : 1 ≤ nestingLimit := by decide

/-- A primary is a literal, a name, or an expression in parentheses. -/
theorem primary_sound {n : Nat} (hr : ∀ c o d, c.Proper → Reads r c o d → Spelled 1 n c o d)
    (hc : c.Proper) (h : Reads (primary r) c o d) : Spelled 8 (n + 1) c o d := by
  have leaf_spelled {e : Expr} (hh : e.height = 1) (hk : c.peek.kind ≠ .operator)
      (he : c.peek.kind ≠ .eof) (hd : Derives 8 [⟨c.peek, none⟩] e 0) :
      Spelled 8 (n + 1) c (leaf e) c.next :=
    ⟨_, 0, hc.spans_peek hk he, hd, by omega, hh.symm, one_le_nestingLimit⟩
  obtain ⟨hlt, hx⟩ := h
  unfold primary at hx
  by_cases hrest : c.rest = []
  · simp [hrest] at hx
  simp only [hrest, dite_false] at hx
  split at hx
  · next hk =>
    obtain ⟨w, hw, he⟩ := integer_eq_ok.mp hx
    simp only [Prod.mk.injEq, Cursor.following, Subtype.mk.injEq] at he
    obtain ⟨rfl, rfl⟩ := he
    exact leaf_spelled rfl (by simp [hk]) (by simp [hk]) (.num hk (by simpa using hw))
  · next hk =>
    simp only [Except.ok.injEq, Prod.mk.injEq, Cursor.following, Subtype.mk.injEq] at hx
    obtain ⟨rfl, rfl⟩ := hx
    exact leaf_spelled rfl (by simp [hk]) (by simp [hk]) (.bool hk)
  · next hk =>
    simp only [Except.ok.injEq, Prod.mk.injEq, Cursor.following, Subtype.mk.injEq] at hx
    obtain ⟨rfl, rfl⟩ := hx
    exact leaf_spelled rfl (by simp [hk]) (by simp [hk]) (.ident hk)
  · split at hx
    · next hs =>
      have hk := Derives.kind_of_isSeparator hs
      have hcn := hc.spans_peek (by simp [hk]) (by simp [hk])
      obtain ⟨m, hread, hclose, rfl⟩ := reads_parenthesized.mp ⟨hlt, hx⟩
      obtain ⟨ls, k, hsp, hd, hb, hh, hlim⟩ := hr c.next o m (hc.of_spans hcn) hread
      have hk' := Derives.kind_of_isSeparator hclose
      have hmn := ((hc.of_spans hcn).of_spans hsp).spans_peek (by simp [hk']) (by simp [hk'])
      exact ⟨_, k + 1, hcn.trans (hsp.trans hmn), .parens hs hd hclose, by omega, hh, hlim⟩
    · simp at hx

theorem operator_eq_head? {s : String} (h : c.operator? = some s) :
    ∃ l, c.rest.head? = some l ∧ l.operator? = some s :=
  Option.bind_eq_some_iff.mp h

theorem applied_sound (op : UnOp) {n : Nat}
    (hr : ∀ c o d, c.Proper → Reads r c o d → Spelled 7 n c o d) (hc : c.Proper)
    (ho : c.operator? = some op.symbol) (hi : op = .neg → c.next.peek.kind ≠ .int)
    (h : Reads (applied op r) c o d) : Spelled 7 (n + 1) c o d := by
  obtain ⟨inner, hread, hlim, rfl⟩ := reads_applied.mp h
  obtain ⟨l, hl, hs⟩ := operator_eq_head? ho
  have hcn : c.Spans [l] c.next := Cursor.spans_singleton.mpr ⟨hl, rfl⟩
  obtain ⟨ls, k, hsp, hd, hb, hh, _⟩ := hr c.next inner d (hc.of_spans hcn) hread
  refine ⟨l :: ls, k + 1, hcn.trans hsp, .unary hs ?_ hd, by omega, ?_, hlim⟩
  · intro hneg l' hl'
    have hp : c.next.peek = l'.token := by
      apply Cursor.peek_of_head?
      rw [hsp.rest, List.head?_append]
      simp [Option.mem_def.mp hl']
    exact hp ▸ hi hneg
  · simp [Expr.height, hh]

/-- What is read with an allowance of `n` stands inside fewer than `n` operators and parentheses. -/
theorem unary_sound (n : Nat) (hc : c.Proper) (h : Reads (unary n) c o d) :
    Spelled 7 n c o d := by
  induction n generalizing c o d with
  | zero =>
    obtain ⟨_, hx⟩ := h
    simp [unary] at hx
  | succ n ih =>
    obtain ⟨hlt, hx⟩ := h
    unfold unary at hx
    by_cases hminus : c.operator? = some "-"
    · simp only [hminus, if_true, negated] at hx
      by_cases hint : c.next.rest ≠ [] ∧ c.next.peek.kind = .int
      · rw [dif_pos hint] at hx
        obtain ⟨l, hl, hs⟩ := operator_eq_head? hminus
        have hcn : c.Spans [l] c.next := Cursor.spans_singleton.mpr ⟨hl, rfl⟩
        cases hi : integer "-" c.next hint.1 with
        | error e => simp [hi] at hx
        | ok x =>
          obtain ⟨w, hw, rfl⟩ := integer_eq_ok.mp hi
          simp only [hi, Except.ok.injEq, Prod.mk.injEq, Cursor.afterNext, Cursor.following,
            Subtype.mk.injEq] at hx
          obtain ⟨rfl, rfl⟩ := hx
          have hk := hint.2
          have hnn := (hc.of_spans hcn).spans_peek (by simp [hk]) (by simp [hk])
          exact ⟨_, 0, hcn.trans hnn, .signed hs hk hw, by omega, rfl, one_le_nestingLimit⟩
      · rw [dif_neg hint] at hx
        refine applied_sound .neg (fun c o d hc h => ih hc h) hc hminus ?_ ⟨hlt, hx⟩
        intro _ hk
        apply hint
        constructor
        · intro hnil
          obtain ⟨l, hl, _⟩ := operator_eq_head? hminus
          have hp := hc.of_spans (Cursor.spans_singleton.mpr ⟨hl, rfl⟩)
          exact hp.rest_ne_nil (by simp [hk]) hnil
        · exact hk
    · by_cases hnot : c.operator? = some "!"
      · simp only [hnot, if_true] at hx
        exact applied_sound .not (fun c o d hc h => ih hc h) hc hnot (by simp) ⟨hlt, hx⟩
      · simp only [hminus, hnot, if_false] at hx
        have hinner : ∀ c o d, c.Proper → Reads (climb (unary n) 1) c o d → Spelled 1 n c o d := by
          intro c o d hc h
          exact (climb_sound (fun c o d hc h => ih hc h) hc (by omega) h).1
        obtain ⟨ls, k, hsp, hd, hrest⟩ := primary_sound hinner hc ⟨hlt, hx⟩
        exact ⟨ls, k, hsp, hd.looser (by omega) (by omega), hrest⟩

theorem stops_of_operator?_eq_none (h : c.operator? = none) : Stops least c := by
  simp [Stops, binOp?, h]

theorem stops_of_not_operator {t : Token} (h : c.rest.head? = some ⟨t, none⟩)
    (hk : t.kind ≠ .operator) : Stops least c := by
  apply stops_of_operator?_eq_none
  rw [Cursor.operator?_of_head? h]
  simp [Lexeme.operator?, hk]

theorem unary_succ_of_not_operator {n : Nat} {t : Token} (h : c.rest.head? = some ⟨t, none⟩)
    (hk : t.kind ≠ .operator) : unary (n + 1) c = primary (climb (unary n) 1) c := by
  have ho : c.operator? = none := by
    rw [Cursor.operator?_of_head? h]
    simp [Lexeme.operator?, hk]
  simp [unary, ho]

theorem primary_complete {n : Nat} {ls : List Lexeme} {e : Expr} {k : Nat}
    (hr : ∀ c ls e k d, c.Spans ls d → Derives 1 ls e k → k < n → e.height ≤ nestingLimit →
      Stops 1 d → Reads r c ⟨e, e.height⟩ d)
    (h : Derives 8 ls e k) (hsp : c.Spans ls d) (hk : k < n + 1) (hh : e.height ≤ nestingLimit) :
    Reads (primary r) c ⟨e, e.height⟩ d := by
  cases h.primary with
  | @num t w ht hw =>
    obtain ⟨hl, rfl⟩ := Cursor.spans_singleton.mp hsp
    have hrest : c.rest ≠ [] := by intro h; simp [h] at hl
    have hp := Cursor.peek_of_head? hl
    refine ⟨Cursor.next_lt hrest, ?_⟩
    simp only [primary, hrest, dite_false, hp, ht]
    exact integer_eq_ok.mpr ⟨w, by simpa [hp] using hw, rfl⟩
  | @bool t ht =>
    obtain ⟨hl, rfl⟩ := Cursor.spans_singleton.mp hsp
    have hrest : c.rest ≠ [] := by intro h; simp [h] at hl
    have hp := Cursor.peek_of_head? hl
    refine ⟨Cursor.next_lt hrest, ?_⟩
    simp only [primary, hrest, dite_false, hp, ht]
    rfl
  | @ident t ht =>
    obtain ⟨hl, rfl⟩ := Cursor.spans_singleton.mp hsp
    have hrest : c.rest ≠ [] := by intro h; simp [h] at hl
    have hp := Cursor.peek_of_head? hl
    refine ⟨Cursor.next_lt hrest, ?_⟩
    simp only [primary, hrest, dite_false, hp, ht]
    rfl
  | @parens k ls _ a b ha hd hb =>
    obtain ⟨hl, hsp⟩ := Cursor.spans_cons.mp hsp
    obtain ⟨m, hin, hout⟩ := hsp.split
    obtain ⟨hm, rfl⟩ := Cursor.spans_singleton.mp hout
    have hrest : c.rest ≠ [] := by intro h; simp [h] at hl
    have hp := Cursor.peek_of_head? hl
    have hka := Derives.kind_of_isSeparator ha
    have hkb := Derives.kind_of_isSeparator hb
    have hread : Reads r c.next ⟨e, e.height⟩ m :=
      hr c.next ls e k m hin hd (by omega) hh (stops_of_not_operator hm (by simp [hkb]))
    have hpm : m.peek.isSeparator ')' := by rw [Cursor.peek_of_head? hm]; exact hb
    obtain ⟨hlt, hx⟩ := reads_parenthesized.mpr ⟨m, hread, hpm, rfl⟩
    refine ⟨hlt, ?_⟩
    simp only [primary, hrest, dite_false, hp, hka, ha, if_true]
    exact hx

theorem unary_complete {n k : Nat} {ls : List Lexeme} {e : Expr} (hsp : c.Spans ls d)
    (h : Derives 7 ls e k) (hk : k < n) (hh : e.height ≤ nestingLimit) :
    Reads (unary n) c ⟨e, e.height⟩ d := by
  induction n generalizing c d ls e k with
  | zero => omega
  | succ n ih =>
    cases h.prefixed with
    | primary h =>
      have hread : Reads (primary (climb (unary n) 1)) c ⟨e, e.height⟩ d := by
        refine primary_complete ?_ h hsp hk hh
        intro c ls e k d hsp h hk hh hstop
        have hstop' : Stops 2 d := fun op hop => Nat.lt_succ_of_lt (hstop op hop)
        exact climb_complete (fun c ls e k d hsp h hk hh => ih hsp h hk hh) h hsp
          (Nat.le_refl _) hk hh
          hstop' ((extends_stop hstop).mpr ⟨rfl, rfl⟩)
      obtain ⟨t, ms, rfl, hkt⟩ := h.primary_head
      have hl := (Cursor.spans_cons.mp hsp).1
      obtain ⟨hlt, hx⟩ := hread
      exact ⟨hlt, (unary_succ_of_not_operator hl hkt).trans hx⟩
    | @signed o t w ho hkt hw =>
      obtain ⟨hl, hsp⟩ := Cursor.spans_cons.mp hsp
      obtain ⟨ht, rfl⟩ := Cursor.spans_singleton.mp hsp
      have hrest : c.next.rest ≠ [] := by intro h; simp [h] at ht
      have hp := Cursor.peek_of_head? ht
      have hint : c.next.rest ≠ [] ∧ c.next.peek.kind = .int := ⟨hrest, hp ▸ hkt⟩
      have hread : integer "-" c.next hint.1 = .ok (leaf (.num w), c.next.following hint.1) :=
        integer_eq_ok.mpr ⟨w, hp ▸ hw, rfl⟩
      have hop : c.operator? = some "-" := (Cursor.operator?_of_head? hl).trans ho
      refine ⟨(Cursor.afterNext (c.next.following hint.1)).2, ?_⟩
      simp only [unary, hop, if_true, negated, dif_pos hint, hread]
      rfl
    | @unary k ls e o op ho hi hd =>
      obtain ⟨hl, hsp⟩ := Cursor.spans_cons.mp hsp
      have hop : c.operator? = some op.symbol := (Cursor.operator?_of_head? hl).trans ho
      have he : e.height ≤ nestingLimit := by simp only [Expr.height] at hh; omega
      have hread : Reads (applied op (unary n)) c ⟨.unary op e, e.height + 1⟩ d :=
        reads_applied.mpr ⟨_, ih hsp hd (by omega) he, hh, rfl⟩
      obtain ⟨hlt, hx⟩ := hread
      refine ⟨hlt, ?_⟩
      cases op with
      | not =>
        simp only [UnOp.symbol] at hop
        simp only [Operand.unary, hop, Option.some.injEq, String.reduceEq, if_false, if_true]
        exact hx
      | neg =>
        simp only [UnOp.symbol] at hop
        have hint : ¬ (c.next.rest ≠ [] ∧ c.next.peek.kind = .int) := by
          intro hint
          obtain ⟨l, ls, rfl⟩ := List.exists_cons_of_ne_nil hd.ne_nil
          have hl' := (Cursor.spans_cons.mp hsp).1
          exact hi rfl l rfl (Cursor.peek_of_head? hl' ▸ hint.2)
        simp only [Operand.unary, hop, if_true, negated, dif_neg hint]
        exact hx

end Operand

end ImpAsm

import ImpAsm.Expr.Parser
import ImpAsm.Proofs.Token.Likeness

namespace ImpAsm

/-- The same fault at like tokens. -/
structure SyntaxError.Like (Q : Token → Token → Prop) (e e' : SyntaxError) : Prop where
  fault : e.fault = e'.fault
  token : e.token.Like Q e'.token

theorem SyntaxError.Like.eq {e e' : SyntaxError} (h : e.Like Eq e') : e = e' := by
  obtain ⟨token, fault⟩ := e
  obtain ⟨token', fault'⟩ := e'
  obtain ⟨rfl, htoken⟩ := h
  exact congrArg (SyntaxError.mk · _) htoken.eq

variable {Q : Token → Token → Prop} {k : Nat} {c c' : Cursor}

theorem Cursor.Like.error (h : c.Like Q k c') (fault : SyntaxFault) :
    (c.error fault).Like Q (c'.error fault) := ⟨rfl, h.peek⟩

namespace Operand

/-- Two readings that end alike: with the same operand in front of like places, or with like
errors. -/
inductive SameReading (Q : Token → Token → Prop) (k : Nat) {P P' : Cursor → Prop} :
    Except SyntaxError (Operand × Subtype P) → Except SyntaxError (Operand × Subtype P') →
      Prop where
  | ok {o : Operand} {d : Subtype P} {d' : Subtype P'} (h : d.1.Like Q k d'.1) :
      SameReading Q k (.ok (o, d)) (.ok (o, d'))
  | error {e e' : SyntaxError} (h : e.Like Q e') : SameReading Q k (.error e) (.error e')

/-- A reader that sees no more of a token than its kind and text. -/
def Blind (Q : Token → Token → Prop) (k : Nat) (r : Reader) : Prop :=
  ∀ {c c' : Cursor}, c.Like Q k c' → SameReading Q k (r c) (r c')

/-- Both readings fail, or both succeed. -/
theorem SameReading.cases {P P' : Cursor → Prop} {x : Except SyntaxError (Operand × Subtype P)}
    {x' : Except SyntaxError (Operand × Subtype P')} (h : SameReading Q k x x') :
    (∃ e e', x = .error e ∧ x' = .error e' ∧ e.Like Q e') ∨
      ∃ o d d', x = .ok (o, d) ∧ x' = .ok (o, d') ∧ d.1.Like Q k d'.1 := by
  cases h with
  | error h => exact .inl ⟨_, _, rfl, rfl, h⟩
  | ok h => exact .inr ⟨_, _, _, rfl, rfl, h⟩

variable {r : Reader}

theorem binOp?_like (h : c.Like Q k c') : binOp? c = binOp? c' := by
  rw [binOp?, binOp?, h.operator?]

/-- The height of a node is checked alike. -/
theorem node_like (h : c.Like Q k c') (e : Expr) (height : Nat) :
    (∃ f f', node c e height = .error f ∧ node c' e height = .error f' ∧ f.Like Q f') ∨
      ∃ o, node c e height = .ok o ∧ node c' e height = .ok o := by
  unfold node
  split
  · exact .inl ⟨_, _, rfl, rfl, h.error _⟩
  · exact .inr ⟨_, rfl, rfl⟩

theorem sameReading_extend (hr : Blind Q k r) (least : Nat) (left : Operand) (h : c.Like Q k c') :
    SameReading Q k (extend r least left c) (extend r least left c') := by
  -- The induction is on what is left to read, as in the loop itself.
  obtain ⟨n, hn⟩ : ∃ n, c.rest.length = n := ⟨_, rfl⟩
  induction n using Nat.strongRecOn generalizing c c' least left with
  | ind n ih =>
    subst hn
    rw [extend, extend, ← binOp?_like h]
    cases binOp? c with
    | none => exact .ok h
    | some op =>
      dsimp only
      split
      · exact .ok h
      rcases (hr h.next).cases with ⟨e, e', hfirst, hfirst', he⟩ |
        ⟨first, d, d', hfirst, hfirst', hd⟩
      · simp only [hfirst, hfirst']
        exact .error he
      have hlt : d.1.rest.length < c.rest.length := (Cursor.afterNext d).2
      simp only [hfirst, hfirst']
      rcases (ih _ hlt (op.power + 1) first hd rfl).cases with
        ⟨e, e', hright, hright', he⟩ | ⟨right, m, m', hright, hright', hm⟩
      · simp only [hright, hright']
        exact .error he
      have hlt' : m.1.rest.length < c.rest.length := Nat.lt_of_le_of_lt m.2 hlt
      simp only [hright, hright']
      rcases node_like hm (.binary op left.expr right.expr) (max left.height right.height + 1) with
        ⟨e, e', hnode, hnode', he⟩ | ⟨whole, hnode, hnode'⟩
      · simp only [hnode, hnode']
        exact .error he
      simp only [hnode, hnode']
      rcases (ih _ hlt' least whole hm rfl).cases with
        ⟨e, e', hall, hall', he⟩ | ⟨all, l, l', hall, hall', hl⟩
      · simp only [hall, hall']
        exact .error he
      · simp only [hall, hall']
        exact .ok hl

theorem blind_climb (hr : Blind Q k r) (least : Nat) : Blind Q k (climb r least) := by
  intro c c' h
  simp only [climb]
  rcases (hr h).cases with ⟨e, e', hfirst, hfirst', he⟩ | ⟨left, d, d', hfirst, hfirst', hd⟩
  · simp only [hfirst, hfirst']
    exact .error he
  simp only [hfirst, hfirst']
  rcases (sameReading_extend hr least left hd).cases with
    ⟨e, e', hall, hall', he⟩ | ⟨all, m, m', hall, hall', hm⟩
  · simp only [hall, hall']
    exact .error he
  · simp only [hall, hall']
    exact .ok hm

theorem sameReading_integer (sign : String) (h : c.Like Q k c') (hc : c.rest ≠ [])
    (hc' : c'.rest ≠ []) :
    SameReading Q k (integer sign c hc) (integer sign c' hc') := by
  unfold integer
  rw [← h.peek.text]
  cases readWord? (sign ++ c.peek.text).toList with
  | none => exact .error (h.error _)
  | some w => exact .ok h.next

theorem blind_parenthesized (hr : Blind Q k r) : Blind Q k (parenthesized r) := by
  intro c c' h
  simp only [parenthesized]
  rcases (hr h.next).cases with ⟨e, e', hinner, hinner', he⟩ | ⟨o, d, d', hinner, hinner', hd⟩
  · simp only [hinner, hinner']
    exact .error he
  simp only [hinner, hinner', ← hd.peek.isSeparator]
  split
  · exact .ok hd.next
  · exact .error (hd.error _)

theorem blind_primary (hr : Blind Q k r) : Blind Q k (primary r) := by
  intro c c' h
  unfold primary
  by_cases hrest : c.rest = []
  · simp only [hrest, h.rest_eq_nil.mp hrest, dite_true]
    exact .error (h.error _)
  have hrest' : c'.rest ≠ [] := fun hnil => hrest (h.rest_eq_nil.mpr hnil)
  simp only [hrest, hrest', dite_false, ← h.peek.kind, ← h.peek.text, ← h.peek.isSeparator]
  split
  · exact sameReading_integer "" h hrest hrest'
  · exact .ok h.next
  · exact .ok h.next
  · split
    · exact blind_parenthesized hr h
    · exact .error (h.error _)

theorem blind_applied (op : UnOp) (hr : Blind Q k r) : Blind Q k (applied op r) := by
  intro c c' h
  simp only [applied]
  rcases (hr h.next).cases with ⟨e, e', hinner, hinner', he⟩ | ⟨o, d, d', hinner, hinner', hd⟩
  · simp only [hinner, hinner']
    exact .error he
  simp only [hinner, hinner']
  rcases node_like hd (.unary op o.expr) (o.height + 1) with
    ⟨e, e', hnode, hnode', he⟩ | ⟨whole, hnode, hnode'⟩
  · simp only [hnode, hnode']
    exact .error he
  · simp only [hnode, hnode']
    exact .ok hd

theorem blind_negated (hr : Blind Q k r) : Blind Q k (negated r) := by
  intro c c' h
  have hguard : (c.next.rest ≠ [] ∧ c.next.peek.kind = .int) ↔
      (c'.next.rest ≠ [] ∧ c'.next.peek.kind = .int) := by
    rw [ne_eq, ne_eq, h.next.rest_eq_nil, h.next.peek.kind]
  simp only [negated]
  by_cases hint : c.next.rest ≠ [] ∧ c.next.peek.kind = .int
  · have hint' := hguard.mp hint
    rw [dif_pos hint, dif_pos hint']
    rcases (sameReading_integer "-" h.next hint.1 hint'.1).cases with
      ⟨e, e', hx, hx', he⟩ | ⟨whole, d, d', hx, hx', hd⟩
    · simp only [hx, hx']
      exact .error he
    · simp only [hx, hx']
      exact .ok hd
  · rw [dif_neg hint, dif_neg (hguard.not.mp hint)]
    exact blind_applied .neg hr h

theorem blind_unary (allowance : Nat) : Blind Q k (unary allowance) := by
  induction allowance with
  | zero =>
    intro c c' h
    exact .error (h.error _)
  | succ allowance ih =>
    intro c c' h
    unfold unary
    rw [← h.operator?]
    split
    · exact blind_negated ih h
    split
    · exact blind_applied .not ih h
    · exact blind_primary (blind_climb ih 1) h

end Operand

/-- Expressions are read alike at like places. -/
theorem blind_readExpr : Operand.Blind Q k readExpr :=
  Operand.blind_climb (Operand.blind_unary nestingLimit) 1

end ImpAsm

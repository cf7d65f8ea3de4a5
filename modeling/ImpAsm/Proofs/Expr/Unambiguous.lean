import ImpAsm.Proofs.Expr.Climbing

namespace ImpAsm

/-- No operator of power `k` or more stands at the head of the lexemes. -/
def Ends (k : Nat) (ls : List Lexeme) : Prop :=
  ∀ l ∈ ls.head?, ∀ op : BinOp, l.operator? = some op.symbol → op.power < k

theorem Ends.mono {k m : Nat} {ls : List Lexeme} (h : Ends k ls) (hm : k ≤ m) : Ends m ls := by
  intro l hl op ho
  have := h l hl op ho
  omega

theorem ends_of_seven_le {k : Nat} (hk : 7 ≤ k) (ls : List Lexeme) : Ends k ls := by
  intro l _ op _
  have := op.power_range.2
  omega

theorem ends_cons_of_not_operator {t : Token} (ht : t.kind ≠ .operator) (k : Nat)
    (ls : List Lexeme) : Ends k (⟨t, none⟩ :: ls) := by
  intro l hl op ho
  obtain rfl : ⟨t, none⟩ = l := by simpa using hl
  simp [Lexeme.operator?, ht] at ho

theorem BinOp.symbol_injective {a b : BinOp} (h : a.symbol = b.symbol) : a = b := by
  have ha := ofSymbol?_symbol a
  rw [h, ofSymbol?_symbol] at ha
  simpa using ha.symm

theorem UnOp.symbol_injective {a b : UnOp} (h : a.symbol = b.symbol) : a = b := by
  cases a <;> cases b <;> simp_all [symbol]

/-- The rest of a chain of power `k`: operators with their right operands, by which the tree
`l` grows into `e`. -/
inductive Links (k : Nat) : List Lexeme → Expr → Expr → Nat → Prop where
  | nil {e : Expr} : Links k [] e e 0
  | cons {m n : Nat} {rs ls : List Lexeme} {l r e : Expr} {o : Lexeme} {op : BinOp}
      (ho : o.operator? = some op.symbol) (hp : op.power = k) (hr : Derives (k + 1) rs r m)
      (h : Links k ls (.binary op l r) e n) : Links k (o :: (rs ++ ls)) l e (max m n)

theorem Links.snoc {k m n : Nat} {ls rs : List Lexeme} {l r e : Expr} {o : Lexeme} {op : BinOp}
    (h : Links k ls l e m) (ho : o.operator? = some op.symbol) (hp : op.power = k)
    (hr : Derives (k + 1) rs r n) : Links k (ls ++ o :: rs) l (.binary op e r) (max m n) := by
  induction h with
  | @nil e' =>
    have h : Links k (o :: (rs ++ [])) e' (.binary op e' r) (max n 0) := .cons ho hp hr .nil
    simpa using h
  | @cons i j rs' ls' l' r' e' o' op' ho' hp' hr' h ih =>
    have h := Links.cons ho' hp' hr' ih
    simpa [Nat.max_assoc] using h

/-- A chain is its first operand and the links after it. -/
theorem Derives.first_links {k n : Nat} {ls : List Lexeme} {e : Expr} (h : Derives k ls e n)
    (hk : k ≤ 6) : ∃ as bs l i j, ls = as ++ bs ∧ Derives (k + 1) as l i ∧ Links k bs l e j ∧
      n = max i j := by
  induction h with
  | @tighter k n ls e _ h _ => exact ⟨ls, [], e, n, 0, by simp, h, .nil, by simp⟩
  | @chain k m n ls rs l r o op ho hp _ hr ihl _ =>
    obtain ⟨as, bs, l', i, j, rfl, ha, hb, rfl⟩ := ihl hk
    exact ⟨as, bs ++ o :: rs, l', i, max j n, by simp, ha, hb.snoc ho hp hr, by omega⟩
  | signed | unary | num | bool | ident | parens => omega

/-- At most one first part of a sequence of lexemes spells an expression of a level, if what
follows does not continue it, and it spells one tree. Only parts up to a length are compared. -/
def Unique (bound k : Nat) : Prop :=
  ∀ ⦃ls ls' rest rest' : List Lexeme⦄ ⦃e e' : Expr⦄ ⦃n n' : Nat⦄, ls.length ≤ bound →
    Derives k ls e n → Derives k ls' e' n' → ls ++ rest = ls' ++ rest' → Ends k rest →
      Ends k rest' →
    ls = ls' ∧ e = e' ∧ n = n'

theorem Links.ends {k n : Nat} {ls rest : List Lexeme} {l e : Expr} (h : Links k ls l e n)
    (hr : Ends (k + 1) rest) : Ends (k + 1) (ls ++ rest) := by
  cases h with
  | nil => exact hr
  | @cons _ _ _ _ _ _ _ o op ho hp _ _ =>
    intro o' ho' op' hop'
    obtain rfl : o = o' := by simpa using ho'
    obtain rfl : op = op' := BinOp.symbol_injective (by simpa [ho] using hop')
    omega

theorem Links.unique {bound k n n' : Nat} {ls ls' rest rest' : List Lexeme} {l e e' : Expr}
    (hu : Unique bound (k + 1)) (hlen : ls.length ≤ bound) (h : Links k ls l e n)
    (h' : Links k ls' l e' n') (heq : ls ++ rest = ls' ++ rest') (hr : Ends k rest)
    (hr' : Ends k rest') : ls = ls' ∧ e = e' ∧ n = n' := by
  induction h generalizing ls' n' with
  | nil =>
    cases h' with
    | nil => exact ⟨rfl, rfl, rfl⟩
    | @cons _ _ _ _ _ _ _ o op ho hp _ _ =>
      have := hr o (by simp [show rest = _ from heq]) op ho
      omega
  | @cons i j rs ls l r e o op ho hp hd h ih =>
    cases h' with
    | nil =>
      have := hr' o (by simp [show rest' = _ from heq.symm]) op ho
      omega
    | @cons i' j' rs' ls' _ r' _ o' op' ho' hp' hd' h' =>
      simp only [List.cons_append, List.cons.injEq, List.append_assoc] at heq
      obtain ⟨rfl, heq⟩ := heq
      obtain rfl : op = op' := BinOp.symbol_injective (by simpa [ho] using ho')
      simp only [List.length_cons, List.length_append] at hlen
      obtain ⟨rfl, rfl, rfl⟩ := hu (by omega) hd hd' heq (h.ends (hr.mono (by omega)))
        (h'.ends (hr'.mono (by omega)))
      obtain ⟨rfl, rfl, rfl⟩ := ih (by omega) h' (List.append_cancel_left heq)
      exact ⟨rfl, rfl, rfl⟩

/-- Uniqueness passes from a level to the next looser one. -/
theorem Unique.looser {bound k : Nat} (hu : Unique bound (k + 1)) (hk : k ≤ 6) :
    Unique bound k := by
  intro ls ls' rest rest' e e' n n' hlen h h' heq hr hr'
  obtain ⟨as, bs, l, i, j, rfl, ha, hb, rfl⟩ := h.first_links hk
  obtain ⟨as', bs', l', i', j', rfl, ha', hb', rfl⟩ := h'.first_links hk
  simp only [List.append_assoc, List.length_append] at heq hlen
  obtain ⟨rfl, rfl, rfl⟩ := hu (by omega) ha ha' heq (hb.ends (hr.mono (by omega)))
    (hb'.ends (hr'.mono (by omega)))
  obtain ⟨rfl, rfl, rfl⟩ := hb.unique hu (by omega) hb' (List.append_cancel_left heq) hr hr'
  exact ⟨rfl, rfl, rfl⟩

theorem unique_primary {bound : Nat} (hu : ∀ b < bound, Unique b 1) : Unique bound 8 := by
  intro ls ls' rest rest' e e' n n' hlen h h' heq _ _
  cases h.primary with
  | @num t w hk hw =>
    cases h'.primary <;> simp_all [Token.isSeparator]
  | @bool t hk =>
    cases h'.primary <;> simp_all [Token.isSeparator]
  | @ident t hk =>
    cases h'.primary <;> simp_all [Token.isSeparator]
  | @parens n ls e a b ha hi hb =>
    have hka := Derives.kind_of_isSeparator ha
    cases h'.primary with
    | num hk hw => simp_all
    | bool hk => simp_all
    | ident hk => simp_all
    | @parens n' ls' e' a' b' ha' hi' hb' =>
      simp only [List.cons_append, List.append_assoc, List.cons.injEq, Lexeme.mk.injEq, and_true,
        List.nil_append] at heq
      obtain ⟨rfl, heq⟩ := heq
      simp only [List.length_cons, List.length_append, List.length_nil] at hlen
      have hkb := Derives.kind_of_isSeparator hb
      have hkb' := Derives.kind_of_isSeparator hb'
      obtain ⟨rfl, rfl, rfl⟩ := hu (bound - 1) (by omega) (by omega) hi hi' heq
        (ends_cons_of_not_operator (by simp [hkb]) _ _)
        (ends_cons_of_not_operator (by simp [hkb']) _ _)
      obtain ⟨rfl, _⟩ : b = b' ∧ rest = rest' := by simpa using List.append_cancel_left heq
      exact ⟨rfl, rfl, rfl⟩

theorem unique_unary {bound : Nat} (hu : Unique bound 8) (hs : ∀ b < bound, Unique b 7) :
    Unique bound 7 := by
  intro ls ls' rest rest' e e' n n' hlen h h' heq hr hr'
  have e8 (ls : List Lexeme) : Ends 8 ls := ends_of_seven_le (by omega) ls
  cases h.prefixed with
  | primary h =>
    obtain ⟨t, ms, rfl, hk⟩ := h.primary_head
    cases h'.prefixed with
    | primary h' => exact hu hlen h h' heq (e8 _) (e8 _)
    | @signed o t' w ho hk' hw =>
      obtain ⟨rfl, _⟩ : ⟨t, none⟩ = o ∧ ms ++ rest = ⟨t', none⟩ :: rest' := by simpa using heq
      exact absurd ho (by simp [Lexeme.operator?, hk])
    | @unary k ms' e' o op ho hi hd' =>
      obtain ⟨rfl, _⟩ : ⟨t, none⟩ = o ∧ ms ++ rest = ms' ++ rest' := by simpa using heq
      exact absurd ho (by simp [Lexeme.operator?, hk])
  | @signed o t w ho hk hw =>
    cases h'.prefixed with
    | primary h' =>
      obtain ⟨t', ms, rfl, hk'⟩ := h'.primary_head
      obtain ⟨rfl, _⟩ : o = ⟨t', none⟩ ∧ ⟨t, none⟩ :: rest = ms ++ rest' := by simpa using heq
      exact absurd ho (by simp [Lexeme.operator?, hk'])
    | signed ho' hk' hw' => simp_all
    | @unary k ms e' o' op ho' hi hd' =>
      obtain ⟨rfl, heq⟩ : o = o' ∧ ⟨t, none⟩ :: rest = ms ++ rest' := by simpa using heq
      obtain ⟨l, ms, rfl⟩ := List.exists_cons_of_ne_nil hd'.ne_nil
      obtain ⟨rfl, _⟩ : ⟨t, none⟩ = l ∧ rest = ms ++ rest' := by simpa using heq
      have hop : op = .neg := UnOp.symbol_injective (by simpa [ho, UnOp.symbol, eq_comm] using ho')
      exact absurd hk (hi hop _ rfl)
  | @unary k ms e o op ho hi hd =>
    cases h'.prefixed with
    | primary h' =>
      obtain ⟨t', ms', rfl, hk'⟩ := h'.primary_head
      obtain ⟨rfl, _⟩ : o = ⟨t', none⟩ ∧ ms ++ rest = ms' ++ rest' := by simpa using heq
      exact absurd ho (by simp [Lexeme.operator?, hk'])
    | @signed o' t w ho' hk hw =>
      obtain ⟨rfl, heq⟩ : o = o' ∧ ms ++ rest = ⟨t, none⟩ :: rest' := by simpa using heq
      obtain ⟨l, ms, rfl⟩ := List.exists_cons_of_ne_nil hd.ne_nil
      obtain ⟨rfl, _⟩ : l = ⟨t, none⟩ ∧ ms ++ rest = rest' := by simpa using heq
      have hop : op = .neg := UnOp.symbol_injective (by simpa [ho', UnOp.symbol, eq_comm] using ho)
      exact absurd hk (hi hop _ rfl)
    | @unary k' ms' e' o' op' ho' hi' hd' =>
      obtain ⟨rfl, htail⟩ : o = o' ∧ ms ++ rest = ms' ++ rest' := by simpa using heq
      obtain rfl : op = op' := UnOp.symbol_injective (by simpa [ho] using ho')
      simp only [List.length_cons] at hlen
      obtain ⟨rfl, rfl, rfl⟩ := hs (bound - 1) (by omega) (by omega) hd hd' htail hr hr'
      exact ⟨rfl, rfl, rfl⟩

/-- The grammar is unambiguous: a sequence of lexemes has at most one expression at its head that
no operator continues, and that expression has one tree and one nesting. -/
theorem derives_unique (bound : Nat) {k : Nat} (h1 : 1 ≤ k) (h8 : k ≤ 8) : Unique bound k := by
  induction bound using Nat.strongRecOn generalizing k with
  | ind bound ih =>
    have u8 : Unique bound 8 := unique_primary fun b hb => ih b hb (by omega) (by omega)
    have u7 : Unique bound 7 := unique_unary u8 fun b hb => ih b hb (by omega) (by omega)
    have down (j : Nat) (hj : j ≤ 6) : Unique bound (7 - j) := by
      induction j with
      | zero => exact u7
      | succ j ih' =>
        have hu := ih' (by omega)
        rw [show 7 - j = 7 - (j + 1) + 1 by omega] at hu
        exact hu.looser (by omega)
    rcases Nat.lt_or_ge k 8 with hk | hk
    · have hd := down (7 - k) (by omega)
      rwa [show 7 - (7 - k) = k by omega] at hd
    · obtain rfl : k = 8 := by omega
      exact u8

end ImpAsm

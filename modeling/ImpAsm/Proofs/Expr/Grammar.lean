import ImpAsm.Expr.Parser
import ImpAsm.Proofs.Token.Grouping

namespace ImpAsm

/-- The expression levels, from the loosest to the tightest: level `k` of 1 to 6 joins expressions
of level `k + 1` by the operators of power `k`, level 7 adds the unary operators, and level 8
is what stands on its own.

`Derives k ls e n` says that the lexemes `ls` spell the tree `e` at level `k`, and that `n` is the
largest number of unary operators and parentheses that any of them stands inside. -/
inductive Derives : Nat → List Lexeme → Expr → Nat → Prop where
  /-- Every level includes the tighter ones. -/
  | tighter {k n : Nat} {ls : List Lexeme} {e : Expr} (hk : k < 8) (h : Derives (k + 1) ls e n) :
      Derives k ls e n
  /-- A chain of operators of one power leans to the left. -/
  | chain {k m n : Nat} {ls rs : List Lexeme} {l r : Expr} {o : Lexeme} {op : BinOp}
      (ho : o.operator? = some op.symbol) (hp : op.power = k) (hl : Derives k ls l m)
      (hr : Derives (k + 1) rs r n) : Derives k (ls ++ o :: rs) (.binary op l r) (max m n)
  /-- A minus before an integer is its sign. -/
  | signed {o : Lexeme} {t : Token} {w : Int32} (ho : o.operator? = some "-")
      (hk : t.kind = .int) (hw : readWord? ("-" ++ t.text).toList = some w) :
      Derives 7 [o, ⟨t, none⟩] (.num w) 0
  | unary {n : Nat} {ls : List Lexeme} {e : Expr} {o : Lexeme} {op : UnOp}
      (ho : o.operator? = some op.symbol)
      (hi : op = .neg → ∀ l ∈ ls.head?, l.token.kind ≠ .int) (h : Derives 7 ls e n) :
      Derives 7 (o :: ls) (.unary op e) (n + 1)
  | num {t : Token} {w : Int32} (hk : t.kind = .int) (hw : readWord? t.text.toList = some w) :
      Derives 8 [⟨t, none⟩] (.num w) 0
  | bool {t : Token} (hk : t.kind = .bool) : Derives 8 [⟨t, none⟩] (.bool (t.text == "true")) 0
  | ident {t : Token} (hk : t.kind = .ident) : Derives 8 [⟨t, none⟩] (.ident t.text) 0
  /-- Parentheses leave no node in the tree. -/
  | parens {n : Nat} {ls : List Lexeme} {e : Expr} {a b : Token} (ha : a.isSeparator '(')
      (h : Derives 1 ls e n) (hb : b.isSeparator ')') :
      Derives 8 (⟨a, none⟩ :: (ls ++ [⟨b, none⟩])) e (n + 1)

theorem BinOp.power_range (op : BinOp) : 1 ≤ op.power ∧ op.power ≤ 6 := by
  cases op <;> decide

namespace Derives

variable {k m n : Nat} {ls : List Lexeme} {e : Expr}

theorem ne_nil (h : Derives k ls e n) : ls ≠ [] := by
  induction h with
  | tighter hk h ih => exact ih
  | _ => simp

/-- What is spelled at a level is spelled at every looser one. -/
theorem looser (h : Derives k ls e n) (hm : m ≤ k) (hk : k ≤ 8) : Derives m ls e n := by
  induction hd : k - m generalizing k with
  | zero =>
    obtain rfl : k = m := by omega
    exact h
  | succ j ih =>
    obtain ⟨i, rfl⟩ : ∃ i, k = i + 1 := ⟨k - 1, by omega⟩
    exact ih (.tighter (by omega) h) (by omega) (by omega) (by omega)

theorem kind_of_isSeparator {t : Token} {c : Char} (h : t.isSeparator c) : t.kind = .separator := by
  simp only [Token.isSeparator, Bool.and_eq_true, beq_iff_eq] at h
  exact h.1

/-- An expression ends in a token that is no operator. -/
theorem getLast?_eq (h : Derives k ls e n) :
    ∃ t, ls.getLast? = some ⟨t, none⟩ ∧ t.kind ≠ .operator := by
  induction h with
  | tighter hk h ih => exact ih
  | chain ho hp hl hr ihl ihr =>
    obtain ⟨t, ht, hk⟩ := ihr
    exact ⟨t, by simp [List.getLast?_append, List.getLast?_cons, ht], hk⟩
  | @signed o t w ho hk hw => exact ⟨t, rfl, by simp [hk]⟩
  | unary ho hi h ih =>
    obtain ⟨t, ht, hk⟩ := ih
    exact ⟨t, by simp [List.getLast?_cons, ht], hk⟩
  | @num t w hk hw => exact ⟨t, rfl, by simp [hk]⟩
  | @bool t hk => exact ⟨t, rfl, by simp [hk]⟩
  | @ident t hk => exact ⟨t, rfl, by simp [hk]⟩
  | @parens n ls e a b ha h hb ih =>
    exact ⟨b, by simp [List.getLast?_cons], by simp [kind_of_isSeparator hb]⟩

theorem kind_of_operator? {l : Lexeme} {s : String} (hl : l.Proper) (h : l.operator? = some s) :
    l.token.kind = .operator := by
  cases hs : l.second with
  | none =>
    by_cases hk : l.token.kind = .operator
    · exact hk
    · simp [Lexeme.operator?, hs, hk] at h
  | some t => exact (hl t hs).1

/-- The lexemes of an expression are operators, literals, names and parentheses. -/
theorem lexeme_kinds (h : Derives k ls e n) (hp : ∀ l ∈ ls, l.Proper) :
    ∀ l ∈ ls, l.token.kind ∈ [.operator, .int, .bool, .ident] ∨ l.token.isSeparator '(' ∨
      l.token.isSeparator ')' := by
  induction h with
  | tighter hk h ih => exact ih hp
  | chain ho hk hl hr ihl ihr =>
    intro l hmem
    rcases List.mem_append.mp hmem with hm | hm
    · exact ihl (fun l hl => hp l (List.mem_append_left _ hl)) l hm
    · rcases List.mem_cons.mp hm with rfl | hm
      · simp [kind_of_operator? (hp l hmem) ho]
      · exact ihr (fun l hl => hp l (by simp [hl])) l hm
  | @signed o t w ho hk hw =>
    have := kind_of_operator? (hp o (by simp)) ho
    simp_all
  | @unary n ls e o op ho hi h ih =>
    intro l hmem
    rcases List.mem_cons.mp hmem with rfl | hm
    · simp [kind_of_operator? (hp l hmem) ho]
    · exact ih (fun l hl => hp l (by simp [hl])) l hm
  | num hk hw => simp [hk]
  | bool hk => simp [hk]
  | ident hk => simp [hk]
  | @parens n ls e a b ha h hb ih =>
    intro l hmem
    simp only [List.mem_cons, List.mem_append, List.not_mem_nil, or_false] at hmem
    rcases hmem with rfl | hm | rfl
    · exact .inr (.inl ha)
    · exact ih (fun l hl => hp l (by simp [hl])) l hm
    · exact .inr (.inr hb)

/-- No expression starts with a closing parenthesis. -/
theorem head_kind (h : Derives k ls e n) (hp : ∀ l ∈ ls, l.Proper) :
    ∃ l ms, ls = l :: ms ∧
      (l.token.kind ∈ [.operator, .int, .bool, .ident] ∨ l.token.isSeparator '(') := by
  induction h with
  | tighter hk h ih => exact ih hp
  | chain ho hk hl hr ihl ihr =>
    obtain ⟨l, ms, rfl, hkind⟩ := ihl (fun l hl => hp l (List.mem_append_left _ hl))
    exact ⟨l, _, rfl, hkind⟩
  | @signed o t w ho hk hw =>
    exact ⟨o, _, rfl, by simp [kind_of_operator? (hp o (by simp)) ho]⟩
  | @unary n ls e o op ho hi h ih =>
    exact ⟨o, _, rfl, by simp [kind_of_operator? (hp o (by simp)) ho]⟩
  | num hk hw => exact ⟨_, _, rfl, by simp [hk]⟩
  | bool hk => exact ⟨_, _, rfl, by simp [hk]⟩
  | ident hk => exact ⟨_, _, rfl, by simp [hk]⟩
  | parens ha h hb => exact ⟨_, _, rfl, .inr ha⟩

/-- What stands on its own. -/
inductive Primary : List Lexeme → Expr → Nat → Prop where
  | num {t : Token} {w : Int32} (hk : t.kind = .int) (hw : readWord? t.text.toList = some w) :
      Primary [⟨t, none⟩] (.num w) 0
  | bool {t : Token} (hk : t.kind = .bool) : Primary [⟨t, none⟩] (.bool (t.text == "true")) 0
  | ident {t : Token} (hk : t.kind = .ident) : Primary [⟨t, none⟩] (.ident t.text) 0
  | parens {n : Nat} {ls : List Lexeme} {e : Expr} {a b : Token} (ha : a.isSeparator '(')
      (h : Derives 1 ls e n) (hb : b.isSeparator ')') :
      Primary (⟨a, none⟩ :: (ls ++ [⟨b, none⟩])) e (n + 1)

theorem primary (h : Derives 8 ls e n) : Primary ls e n := by
  cases h with
  | tighter hk h => omega
  | @chain _ _ _ _ _ _ _ _ op ho hp hl hr =>
    have := op.power_range.2
    omega
  | num hk hw => exact .num hk hw
  | bool hk => exact .bool hk
  | ident hk => exact .ident hk
  | parens ha h hb => exact .parens ha h hb

theorem primary_head (h : Derives 8 ls e n) :
    ∃ t ms, ls = ⟨t, none⟩ :: ms ∧ t.kind ≠ .operator := by
  cases h.primary with
  | @num t w hk hw => exact ⟨t, [], rfl, by simp [hk]⟩
  | @bool t hk => exact ⟨t, [], rfl, by simp [hk]⟩
  | @ident t hk => exact ⟨t, [], rfl, by simp [hk]⟩
  | parens ha h hb => exact ⟨_, _, rfl, by simp [kind_of_isSeparator ha]⟩

/-- A primary, a signed integer, or a unary operator with its operand. -/
inductive Prefixed : List Lexeme → Expr → Nat → Prop where
  | primary {n : Nat} {ls : List Lexeme} {e : Expr} (h : Derives 8 ls e n) : Prefixed ls e n
  | signed {o : Lexeme} {t : Token} {w : Int32} (ho : o.operator? = some "-")
      (hk : t.kind = .int) (hw : readWord? ("-" ++ t.text).toList = some w) :
      Prefixed [o, ⟨t, none⟩] (.num w) 0
  | unary {n : Nat} {ls : List Lexeme} {e : Expr} {o : Lexeme} {op : UnOp}
      (ho : o.operator? = some op.symbol)
      (hi : op = .neg → ∀ l ∈ ls.head?, l.token.kind ≠ .int) (h : Derives 7 ls e n) :
      Prefixed (o :: ls) (.unary op e) (n + 1)

theorem prefixed (h : Derives 7 ls e n) : Prefixed ls e n := by
  cases h with
  | tighter hk h => exact .primary h
  | @chain _ _ _ _ _ _ _ _ op ho hp hl hr =>
    have := op.power_range.2
    omega
  | signed ho hk hw => exact .signed ho hk hw
  | unary ho hi h => exact .unary ho hi h

end Derives

/-- The expressions that are read: those of the grammar within the limit on nesting and height. -/
def Readable (ls : List Lexeme) (e : Expr) : Prop :=
  ∃ n, Derives 1 ls e n ∧ n < nestingLimit ∧ e.height ≤ nestingLimit

end ImpAsm

import Mathlib
import ImpAsm.Cursor

namespace ImpAsm

namespace Lexeme

/-- The tokens that the lexeme is made of. -/
def tokens (l : Lexeme) : List Token := l.token :: l.second.toList

theorem length_tokens (l : Lexeme) : l.tokens.length = l.width := by
  cases h : l.second <;> simp [tokens, width, h]

/-- Only operators are made of two tokens. -/
def Proper (l : Lexeme) : Prop :=
  ∀ t ∈ l.second, l.token.kind = .operator ∧ t.kind = .operator

theorem Proper.second_eq_none {l : Lexeme} (h : l.Proper) (hk : l.token.kind ≠ .operator) :
    l.second = none := by
  cases hs : l.second with
  | none => rfl
  | some t => exact absurd (h t hs).1 hk

end Lexeme

/-- How many tokens a run of lexemes is made of. -/
def totalWidth (ls : List Lexeme) : Nat := (ls.map Lexeme.width).sum

@[simp] theorem totalWidth_nil : totalWidth [] = 0 := rfl

@[simp] theorem totalWidth_cons (l : Lexeme) (ls : List Lexeme) :
    totalWidth (l :: ls) = l.width + totalWidth ls := by simp [totalWidth]

@[simp] theorem totalWidth_append (ls ms : List Lexeme) :
    totalWidth (ls ++ ms) = totalWidth ls + totalWidth ms := by simp [totalWidth]

theorem length_flatMap_tokens (ls : List Lexeme) :
    (ls.flatMap Lexeme.tokens).length = totalWidth ls := by
  induction ls with
  | nil => rfl
  | cons l ls ih => simp [Lexeme.length_tokens, ih]

theorem Token.kind_of_joins {a b : Token} (h : a.joins b) :
    a.kind = .operator ∧ b.kind = .operator := by
  simp only [joins, Bool.and_eq_true, beq_iff_eq] at h
  exact h.1.1

theorem lexemes_proper (ts : List Token) : ∀ l ∈ lexemes ts, l.Proper := by
  fun_induction lexemes ts with
  | case1 => simp
  | case2 t => simp [Lexeme.Proper]
  | case3 a b ts h ih =>
    intro l hl
    rcases List.mem_cons.mp hl with rfl | hl
    · intro t ht
      obtain rfl : b = t := by simpa using ht
      exact Token.kind_of_joins h
    · exact ih l hl
  | case4 a b ts h ih =>
    intro l hl
    rcases List.mem_cons.mp hl with rfl | hl
    · simp [Lexeme.Proper]
    · exact ih l hl

/-- Grouping loses no token. -/
theorem flatMap_tokens_lexemes (ts : List Token) : (lexemes ts).flatMap Lexeme.tokens = ts := by
  fun_induction lexemes ts with
  | case1 => rfl
  | case2 t => rfl
  | case3 a b ts h ih => simp [Lexeme.tokens, ih]
  | case4 a b ts h ih => simpa [Lexeme.tokens] using ih

theorem lexemes_cons_of_not_joins {a b : Token} (h : ¬ a.joins b) (ts : List Token) :
    lexemes (a :: b :: ts) = ⟨a, none⟩ :: lexemes (b :: ts) := by
  rw [lexemes, if_neg h]

theorem lexemes_cons_of_joins {a b : Token} (h : a.joins b) (ts : List Token) :
    lexemes (a :: b :: ts) = ⟨a, some b⟩ :: lexemes ts := by
  rw [lexemes, if_pos h]

/-- The grouping after the first lexemes is the grouping of the tokens that are left. -/
theorem lexemes_suffix {ts : List Token} {ls ms : List Lexeme} (h : lexemes ts = ls ++ ms) :
    lexemes (ts.drop (totalWidth ls)) = ms := by
  induction ls generalizing ts with
  | nil => simpa using h
  | cons l ls ih =>
    fun_cases lexemes ts with
    | case1 => simp [lexemes] at h
    | case2 t =>
      simp only [lexemes, List.cons_append, List.cons.injEq] at h
      obtain ⟨rfl, h⟩ := h
      obtain ⟨rfl, rfl⟩ : ls = [] ∧ ms = [] := by simpa using h.symm
      simp [Lexeme.width, lexemes]
    | case3 a b ts hj =>
      rw [lexemes_cons_of_joins hj, List.cons_append, List.cons.injEq] at h
      obtain ⟨rfl, h⟩ := h
      have hd : (a :: b :: ts).drop (2 + totalWidth ls) = ts.drop (totalWidth ls) := by
        rw [Nat.add_comm]; rfl
      simpa [Lexeme.width, hd] using ih h
    | case4 a b ts hj =>
      rw [lexemes_cons_of_not_joins hj, List.cons_append, List.cons.injEq] at h
      obtain ⟨rfl, h⟩ := h
      have hd : (a :: b :: ts).drop (1 + totalWidth ls) = (b :: ts).drop (totalWidth ls) := by
        rw [Nat.add_comm]; rfl
      simpa [Lexeme.width, hd] using ih h

theorem take_totalWidth {ts : List Token} {ls ms : List Lexeme} (h : lexemes ts = ls ++ ms) :
    ts.take (totalWidth ls) = ls.flatMap Lexeme.tokens := by
  have ht := flatMap_tokens_lexemes ts
  rw [h, List.flatMap_append] at ht
  rw [← ht, ← length_flatMap_tokens, List.take_left]

/-- The first lexemes are the grouping of their own tokens. -/
theorem lexemes_prefix {ts : List Token} {ls ms : List Lexeme} (h : lexemes ts = ls ++ ms) :
    lexemes (ls.flatMap Lexeme.tokens) = ls := by
  induction ls generalizing ts with
  | nil => rfl
  | cons l ls ih =>
    fun_cases lexemes ts with
    | case1 => simp [lexemes] at h
    | case2 t =>
      simp only [lexemes, List.cons_append, List.cons.injEq] at h
      obtain ⟨rfl, h⟩ := h
      obtain ⟨rfl, rfl⟩ : ls = [] ∧ ms = [] := by simpa using h.symm
      rfl
    | case3 a b ts hj =>
      rw [lexemes_cons_of_joins hj, List.cons_append, List.cons.injEq] at h
      obtain ⟨rfl, h⟩ := h
      simpa [Lexeme.tokens, lexemes_cons_of_joins hj] using ih h
    | case4 a b ts hj =>
      rw [lexemes_cons_of_not_joins hj, List.cons_append, List.cons.injEq] at h
      obtain ⟨rfl, h⟩ := h
      have hl := ih h
      cases ls with
      | nil => rfl
      | cons l ls =>
        have hb : l.token = b := by
          have ht := flatMap_tokens_lexemes (b :: ts)
          rw [h] at ht
          simp only [List.cons_append, List.flatMap_cons, Lexeme.tokens, List.cons.injEq] at ht
          exact ht.1
        rw [List.flatMap_cons, Lexeme.tokens, List.cons_append] at hl
        rw [List.flatMap_cons, Lexeme.tokens, List.flatMap_cons, Lexeme.tokens]
        simp only [Option.toList_none, List.cons_append, List.nil_append]
        rw [lexemes_cons_of_not_joins (by rwa [hb]), hl]

/-- Tokens are grouped apart between two tokens that do not join. -/
theorem lexemes_append {ts us : List Token}
    (h : ∀ a ∈ ts.getLast?, ∀ b ∈ us.head?, ¬ a.joins b) :
    lexemes (ts ++ us) = lexemes ts ++ lexemes us := by
  fun_induction lexemes ts with
  | case1 => rfl
  | case2 t =>
    cases us with
    | nil => rfl
    | cons u us => exact lexemes_cons_of_not_joins (h t rfl u rfl) us
  | case3 a b ts hj ih =>
    have ht : ∀ a ∈ ts.getLast?, ∀ b ∈ us.head?, ¬ a.joins b := by
      intro t ht
      refine h t ?_
      cases ts with
      | nil => simp at ht
      | cons c ts => simpa [List.getLast?_cons_cons] using ht
    simp [lexemes_cons_of_joins hj, ih ht]
  | case4 a b ts hj ih =>
    have ht : ∀ a ∈ (b :: ts).getLast?, ∀ b ∈ us.head?, ¬ a.joins b := by
      intro t ht
      exact h t (by simpa [List.getLast?_cons_cons] using ht)
    have hi := ih ht
    rw [List.cons_append] at hi
    simp [lexemes_cons_of_not_joins hj, hi]

end ImpAsm

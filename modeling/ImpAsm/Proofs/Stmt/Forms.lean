import ImpAsm.Proofs.Stmt.Recognition

namespace ImpAsm

namespace Parse

variable {α β : Type} {F G : Cursor → Prop}

theorem Recognizes.andThen {x : Parse α} {f : α → Parse β} {R : List Lexeme → α → Prop}
    {S : α → List Lexeme → β → Prop} (hx : Recognizes x R Anywhere)
    (hf : ∀ a, Recognizes (f a) (S a) G) : Recognizes (x >>= f) (Seq R S) G :=
  hx.bind hf fun _ _ _ => trivial

theorem noOperator_of_head? {c : Cursor} {t : Token} (h : c.rest.head? = some ⟨t, none⟩)
    (hk : t.kind ≠ .operator) : NoOperator c := by
  simp [NoOperator, Operand.binOp?, Cursor.operator?_of_head? h, Lexeme.operator?, hk]

/-- An expression ends before a separator. -/
theorem Recognizes.beforeSeparator {R : List Lexeme → α → Prop} {x : Parse α} {f : α → Parse β}
    {S : α → List Lexeme → β → Prop} (hx : Recognizes x R NoOperator) (sep : Char) (place : Place)
    (hf : ∀ a, Recognizes (f a) (S a) G) :
    Recognizes (x >>= fun a => separator sep place >>= fun _ => f a)
      (Seq R fun a => Seq (fun ls (_ : Unit) => IsSeparator sep ls) fun _ => S a) G := by
  refine hx.bind (fun a => (recognizes_separator sep place).andThen fun _ => hf a) ?_
  intro a ls b c d hsp hS _
  obtain ⟨_, ms, _, rfl, ⟨t, rfl, ht⟩, _⟩ := hS
  have hl := (Cursor.spans_cons.mp hsp).1
  exact noOperator_of_head? hl (kind_of_isSeparator ht).1

/-- The tail of a list of items: commas with items behind them. -/
def CommaItem (R : List Lexeme → α → Prop) (t : Token) (ls : List Lexeme) (a : α) : Prop :=
  t.isSeparator ',' ∧ R ls a

theorem commaSeparated_cons {R : List Lexeme → α → Prop} {ls ms : List Lexeme} {a : α}
    {as : List α} (h : R ls a) (hs : Repeated (CommaItem R) ms as) :
    CommaSeparated R (ls ++ ms) (a :: as) := by
  induction hs generalizing ls a with
  | nil => simpa using CommaSeparated.one h
  | @cons t ls' ms b as h' hs ih => exact .cons h h'.1 (ih h'.2)

theorem CommaSeparated.cases {R : List Lexeme → α → Prop} {ls : List Lexeme} {as : List α}
    (h : CommaSeparated R ls as) :
    (ls = [] ∧ as = []) ∨
      ∃ ls₁ ls₂ a as', ls = ls₁ ++ ls₂ ∧ as = a :: as' ∧ R ls₁ a ∧
        Repeated (CommaItem R) ls₂ as' := by
  induction h with
  | nil => exact .inl ⟨rfl, rfl⟩
  | @one ls a h => exact .inr ⟨ls, [], a, [], by simp, rfl, h, .nil⟩
  | @cons ls ms a b as t h ht hs ih =>
    rcases ih with ⟨_, h'⟩ | ⟨ls₁, ls₂, a', as', rfl, has, ha', hs'⟩
    · simp at h'
    · obtain ⟨rfl, rfl⟩ : b = a' ∧ as = as' := by simpa using has
      exact .inr ⟨ls, _, a, b :: as, rfl, rfl, h, .cons ⟨ht, ha'⟩ hs'⟩

/-- The parenthesis that closes a list stands here. -/
def Closing (d : Cursor) : Prop := ∃ t, d.rest.head? = some ⟨t, none⟩ ∧ t.isSeparator ')'

theorem isSeparator_comma_of_closing {t : Token} (h : t.isSeparator ')') : ¬ t.isSeparator ',' := by
  simp only [Token.isSeparator, Bool.and_eq_true, beq_iff_eq] at h ⊢
  simp [h.2]

theorem recognizes_commaItems {item : Parse α} {R : List Lexeme → α → Prop}
    (hi : Recognizes item R G)
    (hG : ∀ {c : Cursor} {t : Token}, c.rest.head? = some ⟨t, none⟩ → t.kind = .separator → G c) :
    Recognizes (many fun t => if t.isSeparator ',' then some item else none)
      (Repeated (CommaItem R)) Closing := by
  refine recognizes_many (G := G) ?_ ?_ ?_ ?_ ?_
  · intro t _ h
    by_cases ht : t.isSeparator ','
    · exact kind_of_isSeparator ht
    · simp [ht] at h
  · intro t item' h
    by_cases ht : t.isSeparator ','
    · obtain rfl : item = item' := by simpa [ht] using h
      exact hi.congr fun ls a => (and_iff_right ht).symm
    · simp [ht] at h
  · intro t ls a h
    exact ⟨item, by simp [h.1]⟩
  · intro d hd
    obtain ⟨t, hl, ht⟩ := hd
    refine ⟨?_, hG hl (Derives.kind_of_isSeparator ht)⟩
    simp [Cursor.peek_of_head? hl, isSeparator_comma_of_closing ht]
  · intro d hp hd
    obtain ⟨item', hd⟩ := hd
    by_cases ht : d.peek.isSeparator ','
    · have hk := kind_of_isSeparator ht
      exact hG (hp.head?_eq hk.1 hk.2) (Derives.kind_of_isSeparator ht)
    · simp [ht] at hd

/-- A list of items up to its closing parenthesis. -/
theorem recognizes_commaList {item : Parse α} {R : List Lexeme → α → Prop} (place : Place)
    (hi : Recognizes item R G)
    (hG : ∀ {c : Cursor} {t : Token}, c.rest.head? = some ⟨t, none⟩ → t.kind = .separator → G c)
    (hR : ∀ {c d : Cursor} {ls a}, c.Proper → c.Spans ls d → R ls a → ¬ c.peek.isSeparator ')') :
    Recognizes (commaList item place)
      (fun ls as => ∃ ms bs, ls = ms ++ bs ∧ CommaSeparated R ms as ∧ IsSeparator ')' bs)
      Anywhere := by
  have hclose (as : List α) := (recognizes_separator ')' place).andThen fun _ => recognizes_pure as
  have hrest (first : α) := (recognizes_commaItems hi hG).bind
    (fun others => hclose (first :: others)) (by
      intro others ls b c d hsp hS _
      obtain ⟨_, ms, _, rfl, ⟨t, rfl, ht⟩, _⟩ := hS
      exact ⟨t, (Cursor.spans_cons.mp hsp).1, ht⟩)
  have hitems := hi.bind hrest (by
    intro first ls b c d hsp hS _
    obtain ⟨_, _, others, rfl, hrep, _, _, _, rfl, ⟨t, rfl, ht⟩, _⟩ := hS
    cases hrep with
    | nil => exact hG (Cursor.spans_cons.mp hsp).1 (Derives.kind_of_isSeparator ht)
    | cons h hs => exact hG (Cursor.spans_cons.mp hsp).1 (Derives.kind_of_isSeparator h.1))
  have hlist : Recognizes (commaList item place) _ Anywhere :=
    recognizes_peek (P := fun t => t.isSeparator ')') (fun t ht => kind_of_isSeparator ht)
      (fun t _ => recognizes_pure []) hitems (by
        intro c d ls a hc hsp hS _
        obtain ⟨_, _, _, rfl, ha, _⟩ := hS
        obtain ⟨m, hsp', _⟩ := hsp.split
        exact hR hc hsp' ha)
  refine hlist.congr ?_
  intro ls as
  constructor
  · intro h
    rcases h with ⟨t, ms, rfl, ht, rfl, rfl⟩ | h
    · exact ⟨[], _, rfl, .nil, t, rfl, ht⟩
    · obtain ⟨ls, _, first, rfl, hfirst, ms, _, others, rfl, hrep, bs, _, _, rfl, hb, rfl, rfl⟩ := h
      exact ⟨ls ++ ms, bs, by simp, commaSeparated_cons hfirst hrep, hb⟩
  · intro h
    obtain ⟨ms, bs, rfl, hcs, hb⟩ := h
    rcases CommaSeparated.cases hcs with ⟨rfl, rfl⟩ | ⟨ls₁, ls₂, a, as', rfl, rfl, ha, hrep⟩
    · obtain ⟨t, rfl, ht⟩ := hb
      exact .inl ⟨t, [], rfl, ht, rfl, rfl⟩
    · exact .inr ⟨ls₁, ls₂ ++ bs, a, by simp, ha, ls₂, bs, as', rfl, hrep, bs, [], (), by simp, hb,
        rfl, rfl⟩

end Parse

end ImpAsm

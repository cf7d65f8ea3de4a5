import ImpAsm.Proofs.Cursor

namespace ImpAsm

/-- Tokens of the same kind and text that are related by `Q`. -/
structure Token.Like (Q : Token → Token → Prop) (a b : Token) : Prop where
  kind : a.kind = b.kind
  text : a.text = b.text
  related : Q a b

variable {Q : Token → Token → Prop} {k : Nat}

namespace Token.Like

variable {a b : Token}

theorem isSeparator (h : a.Like Q b) (c : Char) : a.isSeparator c = b.isSeparator c := by
  rw [Token.isSeparator, Token.isSeparator, h.kind, h.text]

theorem isKeyword (h : a.Like Q b) (w : Keyword) : a.isKeyword w = b.isKeyword w := by
  rw [Token.isKeyword, Token.isKeyword, h.kind]

theorem describe (h : a.Like Q b) : a.describe = b.describe := by
  rw [Token.describe, Token.describe, h.kind, h.text]

theorem eq (h : a.Like Eq b) : a = b := h.related

theorem refl (a : Token) : a.Like Eq a := ⟨rfl, rfl, rfl⟩

end Token.Like

/-- Lexemes of like tokens. -/
structure Lexeme.Like (Q : Token → Token → Prop) (l m : Lexeme) : Prop where
  token : l.token.Like Q m.token
  second : Option.Rel (Token.Like Q) l.second m.second

namespace Lexeme.Like

variable {l m : Lexeme}

theorem width (h : l.Like Q m) : l.width = m.width := by
  obtain ⟨t, s⟩ := l
  obtain ⟨u, v⟩ := m
  cases h.second with
  | none => rfl
  | some _ => rfl

theorem operator? (h : l.Like Q m) : l.operator? = m.operator? := by
  obtain ⟨t, s⟩ := l
  obtain ⟨u, v⟩ := m
  have hfirst : t.Like Q u := h.token
  cases h.second with
  | none => simp only [Lexeme.operator?, hfirst.kind, hfirst.text]
  | some hab => simp only [Lexeme.operator?, hfirst.text, hab.text]

theorem refl (l : Lexeme) : l.Like Eq l := by
  refine ⟨.refl _, ?_⟩
  cases l.second with
  | none => exact .none
  | some t => exact .some (.refl t)

end Lexeme.Like

/-- Like tokens are grouped alike if the same neighbours join. -/
theorem lexemes_like {ts us : List Token} (h : List.Forall₂ (Token.Like Q) ts us)
    (hjoins : ∀ (i : Nat) (a b a' b' : Token), ts[i]? = some a → ts[i + 1]? = some b →
      us[i]? = some a' → us[i + 1]? = some b' → a.joins b = a'.joins b') :
    List.Forall₂ (Lexeme.Like Q) (lexemes ts) (lexemes us) := by
  fun_induction lexemes ts generalizing us with
  | case1 =>
    cases h
    exact .nil
  | case2 a =>
    obtain ⟨a', us, ha, hnil, rfl⟩ := List.forall₂_cons_left_iff.mp h
    cases hnil
    exact .cons ⟨ha, .none⟩ .nil
  | case3 a b ts hj ih =>
    obtain ⟨a', _, ha, hmore, rfl⟩ := List.forall₂_cons_left_iff.mp h
    obtain ⟨b', us, hb, htail, rfl⟩ := List.forall₂_cons_left_iff.mp hmore
    rw [lexemes_cons_of_joins (hjoins 0 a b a' b' rfl rfl rfl rfl ▸ hj)]
    exact .cons ⟨ha, .some hb⟩ (ih htail fun i => hjoins (i + 2))
  | case4 a b ts hj ih =>
    obtain ⟨a', _, ha, htail, rfl⟩ := List.forall₂_cons_left_iff.mp h
    obtain ⟨b', us, _, _, rfl⟩ := List.forall₂_cons_left_iff.mp htail
    rw [lexemes_cons_of_not_joins (hjoins 0 a b a' b' rfl rfl rfl rfl ▸ hj)]
    exact .cons ⟨ha, .none⟩ (ih htail fun i => hjoins (i + 1))

theorem endToken_like {ts us : List Token} (h : List.Forall₂ (Token.Like Q) ts us)
    (hend : Q unplacedEnd unplacedEnd) : (endToken ts).Like Q (endToken us) := by
  have hunplaced : unplacedEnd.Like Q unplacedEnd := ⟨rfl, rfl, hend⟩
  rcases List.eq_nil_or_concat ts with rfl | ⟨ts, t, rfl⟩
  · cases h
    exact hunplaced
  · rcases List.eq_nil_or_concat us with rfl | ⟨us, u, rfl⟩
    · simpa using h.length_eq
    · have hlast : t.Like Q u := by
        have hr := List.forall₂_reverse_iff.mpr h
        rw [List.concat_eq_append, List.concat_eq_append, List.reverse_concat,
          List.reverse_concat] at hr
        exact (List.forall₂_cons.mp hr).1
      simp only [endToken, List.concat_eq_append, List.getLast?_concat, hlast.kind]
      split
      · exact hlast
      · exact hunplaced

namespace Cursor

/-- Places in front of like lexemes, the second one `k` tokens further on. -/
structure Like (Q : Token → Token → Prop) (k : Nat) (c d : Cursor) : Prop where
  rest : List.Forall₂ (Lexeme.Like Q) c.rest d.rest
  ending : c.ending.Like Q d.ending
  index : d.index = c.index + k

namespace Like

variable {c d : Cursor}

theorem peek (h : c.Like Q k d) : c.peek.Like Q d.peek := by
  have hrest := h.rest
  unfold Cursor.peek
  split
  · next hc =>
    rw [hc, List.forall₂_nil_left_iff] at hrest
    rw [hrest]
    exact h.ending
  · next l ls hc =>
    rw [hc] at hrest
    obtain ⟨m, ms, hl, _, hd⟩ := List.forall₂_cons_left_iff.mp hrest
    rw [hd]
    exact hl.token

theorem operator? (h : c.Like Q k d) : c.operator? = d.operator? := by
  have hrest := h.rest
  unfold Cursor.operator?
  cases hc : c.rest with
  | nil =>
    rw [hc, List.forall₂_nil_left_iff] at hrest
    rw [hrest]
  | cons l ls =>
    rw [hc] at hrest
    obtain ⟨m, ms, hl, _, hd⟩ := List.forall₂_cons_left_iff.mp hrest
    rw [hd]
    exact hl.operator?

theorem next (h : c.Like Q k d) : c.next.Like Q k d.next := by
  have hrest := h.rest
  unfold Cursor.next
  cases hc : c.rest with
  | nil =>
    rw [hc, List.forall₂_nil_left_iff] at hrest
    rw [hrest]
    exact h
  | cons l ls =>
    rw [hc] at hrest
    obtain ⟨m, ms, hl, hls, hd⟩ := List.forall₂_cons_left_iff.mp hrest
    rw [hd]
    refine ⟨hls, h.ending, ?_⟩
    have hwidth := hl.width
    have hindex := h.index
    simp only
    omega

theorem rest_eq_nil (h : c.Like Q k d) : c.rest = [] ↔ d.rest = [] := by
  rw [← List.length_eq_zero_iff, h.rest.length_eq, List.length_eq_zero_iff]

theorem atEnd (h : c.Like Q k d) : c.atEnd = d.atEnd := by
  rw [Cursor.atEnd, Cursor.atEnd, h.peek.kind]

end Like

end Cursor

end ImpAsm

import ImpAsm.Proofs.Token.Grouping

namespace ImpAsm

namespace Cursor

/-- The lexemes `ls` lie between the places `c` and `d`. -/
structure Spans (c : Cursor) (ls : List Lexeme) (d : Cursor) : Prop where
  rest : c.rest = ls ++ d.rest
  index : d.index = c.index + totalWidth ls
  ending : d.ending = c.ending

variable {c d d' : Cursor} {l : Lexeme} {ls ms : List Lexeme}

theorem Spans.refl (c : Cursor) : c.Spans [] c := ⟨rfl, rfl, rfl⟩

theorem Spans.trans (h : c.Spans ls d) (h' : d.Spans ms d') : c.Spans (ls ++ ms) d' where
  rest := by rw [h.rest, h'.rest, List.append_assoc]
  index := by rw [h'.index, h.index, totalWidth_append, Nat.add_assoc]
  ending := h'.ending.trans h.ending

/-- A span can be cut at every lexeme. -/
theorem Spans.split (h : c.Spans (ls ++ ms) d) : ∃ m, c.Spans ls m ∧ m.Spans ms d := by
  refine ⟨⟨c.index + totalWidth ls, ms ++ d.rest, c.ending⟩, ⟨?_, rfl, rfl⟩, ⟨rfl, ?_, h.ending⟩⟩
  · rw [h.rest, List.append_assoc]
  · rw [h.index, totalWidth_append, Nat.add_assoc]

theorem Spans.unique (h : c.Spans ls d) (h' : c.Spans ls d') : d = d' := by
  have hr : d.rest = d'.rest := List.append_cancel_left (h.rest.symm.trans h'.rest)
  have hi : d.index = d'.index := h.index.trans h'.index.symm
  have he : d.ending = d'.ending := h.ending.trans h'.ending.symm
  cases d
  cases d'
  simp_all

theorem spans_nil : c.Spans [] d ↔ d = c :=
  ⟨fun h => h.unique (.refl c), fun h => h ▸ .refl c⟩

/-- Stepping over a lexeme spans it. -/
theorem spans_next (h : c.rest = l :: ls) : c.Spans [l] c.next := by
  constructor <;> simp [next, h]

theorem spans_singleton : c.Spans [l] d ↔ c.rest.head? = some l ∧ d = c.next := by
  constructor
  · intro h
    have hr : c.rest = l :: d.rest := h.rest
    exact ⟨by rw [hr]; rfl, h.unique (spans_next hr)⟩
  · intro hall
    obtain ⟨hl, rfl⟩ := hall
    obtain ⟨ls, hr⟩ := List.head?_eq_some_iff.mp hl
    exact spans_next hr

theorem spans_cons : c.Spans (l :: ls) d ↔ c.rest.head? = some l ∧ c.next.Spans ls d := by
  constructor
  · intro h
    have hc : c.Spans ([l] ++ ls) d := h
    obtain ⟨m, h1, h2⟩ := hc.split
    obtain ⟨hl, rfl⟩ := spans_singleton.mp h1
    exact ⟨hl, h2⟩
  · intro hall
    obtain ⟨hl, h⟩ := hall
    exact (spans_singleton.mpr ⟨hl, rfl⟩).trans h

theorem Spans.length_le (h : c.Spans ls d) : d.rest.length ≤ c.rest.length := by
  rw [h.rest, List.length_append]
  omega

theorem Spans.length_lt (h : c.Spans ls d) (hl : ls ≠ []) : d.rest.length < c.rest.length := by
  have := List.length_pos_iff.mpr hl
  rw [h.rest, List.length_append]
  omega

/-- The cursors of token sequences: only operators are joined, and past the end is the end. -/
structure Proper (c : Cursor) : Prop where
  lexemes : ∀ l ∈ c.rest, l.Proper
  ending : c.ending.kind = .eof

theorem Proper.of_spans (hc : c.Proper) (h : c.Spans ls d) : d.Proper where
  lexemes := by
    intro l hl
    apply hc.lexemes
    rw [h.rest]
    exact List.mem_append_right _ hl
  ending := by rw [h.ending, hc.ending]

theorem endToken_kind (ts : List Token) : (endToken ts).kind = .eof := by
  unfold endToken
  split
  · split <;> simp_all [unplacedEnd]
  · rfl

theorem ofTokens_proper (ts : List Token) (i : Nat) : (ofTokens ts i).Proper :=
  ⟨lexemes_proper _, endToken_kind ts⟩

/-- In the middle of its tokens a cursor is the one that starts there. -/
theorem Spans.eq_ofTokens {ts : List Token} {i : Nat} (h : (ofTokens ts i).Spans ls d) :
    d = ofTokens ts d.index := by
  have hr : lexemes (ts.drop i) = ls ++ d.rest := h.rest
  have hi : d.index = i + totalWidth ls := h.index
  have hd : d.rest = lexemes (ts.drop d.index) := by
    rw [hi, ← lexemes_suffix hr, List.drop_drop]
  have he : d.ending = endToken ts := h.ending
  cases d
  simp_all [ofTokens]

theorem peek_of_head? (h : c.rest.head? = some l) : c.peek = l.token := by
  obtain ⟨ls, hr⟩ := List.head?_eq_some_iff.mp h
  simp [peek, hr]

theorem operator?_of_head? (h : c.rest.head? = some l) : c.operator? = l.operator? := by
  simp [operator?, h]

theorem Proper.rest_ne_nil (hc : c.Proper) (he : c.peek.kind ≠ .eof) : c.rest ≠ [] := by
  intro hr
  apply he
  simp [peek, hr, hc.ending]

/-- A lexeme of a proper cursor that is no operator is a single token. -/
theorem Proper.head?_eq (hc : c.Proper) (hk : c.peek.kind ≠ .operator) (he : c.peek.kind ≠ .eof) :
    c.rest.head? = some ⟨c.peek, none⟩ := by
  cases hl : c.rest with
  | nil => exact absurd hl (hc.rest_ne_nil he)
  | cons l ls =>
    have hp : c.peek = l.token := by simp [peek, hl]
    have hs : l.second = none := (hc.lexemes l (by simp [hl])).second_eq_none (hp ▸ hk)
    rw [hp, ← hs]
    rfl

/-- Stepping over a single token spans it. -/
theorem Proper.spans_peek (hc : c.Proper) (hk : c.peek.kind ≠ .operator)
    (he : c.peek.kind ≠ .eof) : c.Spans [⟨c.peek, none⟩] c.next :=
  spans_singleton.mpr ⟨hc.head?_eq hk he, rfl⟩

end Cursor

end ImpAsm

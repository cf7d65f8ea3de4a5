import ImpAsm.Proofs.Expr.Acceptance
import ImpAsm.Proofs.Stmt.Grammar
import ImpAsm.Stmt.Parser

namespace ImpAsm

namespace Parse

/-- A rule recognizes a relation between lexemes and values: it takes only lexemes with their
value, and it takes all of them in front of places that satisfy `F`. -/
structure Recognizes {α : Type} (p : Parse α) (R : List Lexeme → α → Prop) (F : Cursor → Prop) :
    Prop where
  sound : ∀ {s t : ParseState} {a : α}, s.cursor.Proper → p.run s = .ok a t →
    ∃ ls, s.cursor.Spans ls t.cursor ∧ R ls a
  complete : ∀ {s : ParseState} {ls : List Lexeme} {a : α} {d : Cursor}, s.cursor.Proper →
    s.cursor.Spans ls d → R ls a → F d → ∃ t, p.run s = .ok a t ∧ t.cursor = d

/-- The relation of two rules that follow each other. -/
def Seq {α β : Type} (R : List Lexeme → α → Prop) (S : α → List Lexeme → β → Prop)
    (ls : List Lexeme) (b : β) : Prop :=
  ∃ ls₁ ls₂ a, ls = ls₁ ++ ls₂ ∧ R ls₁ a ∧ S a ls₂ b

variable {α β : Type} {F G : Cursor → Prop}

/-- Every place may follow. -/
def Anywhere (_ : Cursor) : Prop := True

theorem Recognizes.congr {p : Parse α} {R S : List Lexeme → α → Prop} (h : Recognizes p R F)
    (hRS : ∀ ls a, R ls a ↔ S ls a) : Recognizes p S F where
  sound := by
    intro s t a hc hr
    obtain ⟨ls, hsp, hR⟩ := h.sound hc hr
    exact ⟨ls, hsp, (hRS ls a).mp hR⟩
  complete := by
    intro s ls a d hc hsp hS hF
    exact h.complete hc hsp ((hRS ls a).mpr hS) hF

theorem Recognizes.mono {p : Parse α} {R : List Lexeme → α → Prop} (h : Recognizes p R F)
    (hG : ∀ d, G d → F d) : Recognizes p R G :=
  ⟨h.sound, fun hc hsp hR hGd => h.complete hc hsp hR (hG _ hGd)⟩

theorem run_bind_eq_ok {x : Parse α} {f : α → Parse β} {s t : ParseState} {b : β} :
    (x >>= f).run s = .ok b t ↔ ∃ a m, x.run s = .ok a m ∧ (f a).run m = .ok b t := by
  rw [run_bind]
  cases x.run s with
  | error e m => simp
  | ok a m =>
    constructor
    · intro h
      exact ⟨a, m, rfl, h⟩
    · intro h
      obtain ⟨a', m', hx, hf⟩ := h
      obtain ⟨rfl, rfl⟩ : a = a' ∧ m = m' := by simpa using hx
      exact hf

theorem run_peek (s : ParseState) : (peek : Parse Token).run s = .ok s.cursor.peek s := rfl

theorem run_here (s : ParseState) : here.run s = .ok s.cursor s := rfl

theorem run_skip (s : ParseState) : skip.run s = .ok () { s with cursor := s.cursor.next } := rfl

theorem run_report (e : Event) (s : ParseState) :
    (report e).run s = .ok () { s with events := s.events.push e } := rfl

theorem run_fail (fault : SyntaxFault) (s : ParseState) :
    (fail fault : Parse α).run s = .error (s.cursor.error fault) s := rfl

/-- Rules in sequence; what the second rule takes has to satisfy the first one's condition. -/
theorem Recognizes.bind {x : Parse α} {f : α → Parse β} {R : List Lexeme → α → Prop}
    {S : α → List Lexeme → β → Prop} (hx : Recognizes x R F) (hf : ∀ a, Recognizes (f a) (S a) G)
    (hF : ∀ {a ls b} {c d : Cursor}, c.Spans ls d → S a ls b → G d → F c) :
    Recognizes (x >>= f) (Seq R S) G where
  sound := by
    intro s t b hc hr
    obtain ⟨a, m, hxm, hft⟩ := run_bind_eq_ok.mp hr
    obtain ⟨ls₁, hsp₁, hR⟩ := hx.sound hc hxm
    obtain ⟨ls₂, hsp₂, hS⟩ := (hf a).sound (hc.of_spans hsp₁) hft
    exact ⟨ls₁ ++ ls₂, hsp₁.trans hsp₂, ls₁, ls₂, a, rfl, hR, hS⟩
  complete := by
    intro s ls b d hc hsp hRS hG
    obtain ⟨ls₁, ls₂, a, rfl, hR, hS⟩ := hRS
    obtain ⟨c, hsp₁, hsp₂⟩ := hsp.split
    obtain ⟨m, hxm, rfl⟩ := hx.complete hc hsp₁ hR (hF hsp₂ hS hG)
    obtain ⟨t, hft, ht⟩ := (hf a).complete (hc.of_spans hsp₁) hsp₂ hS hG
    exact ⟨t, run_bind_eq_ok.mpr ⟨a, m, hxm, hft⟩, ht⟩

theorem map_eq_bind (f : α → β) (x : Parse α) : f <$> x = x >>= fun a => pure (f a) := rfl

theorem Recognizes.map {x : Parse α} {R : List Lexeme → α → Prop} (hx : Recognizes x R F)
    (f : α → β) : Recognizes (f <$> x) (fun ls b => ∃ a, R ls a ∧ b = f a) F where
  sound := by
    intro s t b hc hr
    rw [map_eq_bind] at hr
    obtain ⟨a, m, hm, hr⟩ := run_bind_eq_ok.mp hr
    obtain ⟨rfl, rfl⟩ : f a = b ∧ m = t := by simpa using hr
    obtain ⟨ls, hsp, hR⟩ := hx.sound hc hm
    exact ⟨ls, hsp, a, hR, rfl⟩
  complete := by
    intro s ls b d hc hsp hR hF
    obtain ⟨a, hR, rfl⟩ := hR
    obtain ⟨t, hr, ht⟩ := hx.complete hc hsp hR hF
    rw [map_eq_bind]
    exact ⟨t, run_bind_eq_ok.mpr ⟨a, t, hr, rfl⟩, ht⟩

theorem recognizes_pure (a : α) :
    Recognizes (pure a : Parse α) (fun ls b => ls = [] ∧ b = a) Anywhere where
  sound := by
    intro s t b _ hr
    obtain ⟨rfl, rfl⟩ : a = b ∧ s = t := by simpa using hr
    exact ⟨[], .refl _, rfl, rfl⟩
  complete := by
    intro s ls b d _ hsp hR _
    obtain ⟨rfl, rfl⟩ := hR
    exact ⟨s, rfl, (Cursor.spans_nil.mp hsp).symm⟩

theorem recognizes_report (e : Event) :
    Recognizes (report e) (fun ls _ => ls = []) Anywhere where
  sound := by
    intro s t b _ hr
    obtain rfl : { s with events := s.events.push e } = t := by simpa [run_report] using hr
    exact ⟨[], .refl _, rfl⟩
  complete := by
    intro s ls b d _ hsp hR _
    subst hR
    exact ⟨{ s with events := s.events.push e }, rfl, (Cursor.spans_nil.mp hsp).symm⟩

/-- A choice by the token at the cursor, which is taken if it satisfies the condition. -/
theorem recognizes_peek {P : Token → Prop} [DecidablePred P] {x : Token → Parse α} {y : Parse α}
    {R : Token → List Lexeme → α → Prop} {S : List Lexeme → α → Prop}
    (hP : ∀ t, P t → t.kind ≠ .operator ∧ t.kind ≠ .eof) (hx : ∀ t, P t → Recognizes (x t) (R t) F)
    (hy : Recognizes y S F)
    (hS : ∀ {c d : Cursor} {ls a}, c.Proper → c.Spans ls d → S ls a → F d → ¬ P c.peek) :
    Recognizes (do let t ← peek; if P t then do { skip; x t } else y)
      (fun ls a => (∃ t ms, ls = ⟨t, none⟩ :: ms ∧ P t ∧ R t ms a) ∨ S ls a) F where
  sound := by
    intro s t a hc hr
    obtain ⟨tok, m, hp, hr⟩ := run_bind_eq_ok.mp hr
    obtain ⟨rfl, rfl⟩ : s.cursor.peek = tok ∧ s = m := by simpa [run_peek] using hp
    split at hr
    · next hPt =>
      obtain ⟨_, m, hm, hr⟩ := run_bind_eq_ok.mp hr
      obtain rfl : { s with cursor := s.cursor.next } = m := by simpa [run_skip] using hm
      have hsp := hc.spans_peek (hP _ hPt).1 (hP _ hPt).2
      obtain ⟨ms, hsp', hR⟩ := (hx _ hPt).sound (hc.of_spans hsp) hr
      exact ⟨_, hsp.trans hsp', .inl ⟨_, ms, rfl, hPt, hR⟩⟩
    · obtain ⟨ls, hsp, hS'⟩ := hy.sound hc hr
      exact ⟨ls, hsp, .inr hS'⟩
  complete := by
    intro s ls a d hc hsp hRS hF
    rcases hRS with ⟨tok, ms, rfl, hPt, hR⟩ | hS'
    · obtain ⟨hl, hsp'⟩ := Cursor.spans_cons.mp hsp
      have hp : s.cursor.peek = tok := Cursor.peek_of_head? hl
      have hn := hc.of_spans (Cursor.spans_singleton.mpr ⟨hl, rfl⟩)
      obtain ⟨t, hr, ht⟩ := (hx tok hPt).complete (s := ⟨s.cursor.next, s.events⟩) hn hsp' hR hF
      refine ⟨t, run_bind_eq_ok.mpr ⟨_, s, run_peek s, ?_⟩, ht⟩
      rw [hp, if_pos hPt]
      exact run_bind_eq_ok.mpr ⟨_, _, run_skip s, hr⟩
    · obtain ⟨t, hr, ht⟩ := hy.complete hc hsp hS' hF
      refine ⟨t, run_bind_eq_ok.mpr ⟨_, s, run_peek s, ?_⟩, ht⟩
      rwa [if_neg (hS hc hsp hS' hF)]

theorem recognizes_fail (fault : SyntaxFault) (F : Cursor → Prop) :
    Recognizes (fail fault : Parse α) (fun _ _ => False) F where
  sound := by
    intro s t a _ hr
    simp [run_fail] at hr
  complete := by
    intro s ls a d _ _ hR
    exact hR.elim

theorem kind_of_isSeparator {t : Token} {c : Char} (h : t.isSeparator c) :
    t.kind ≠ .operator ∧ t.kind ≠ .eof := by
  simp [Derives.kind_of_isSeparator h]

theorem kind_of_isKeyword {t : Token} {k : Keyword} (h : t.isKeyword k) : t.kind = .keyword k := by
  simpa [Token.isKeyword] using h

theorem recognizes_separator (c : Char) (place : Place) :
    Recognizes (separator c place) (fun ls _ => IsSeparator c ls) Anywhere where
  sound := by
    intro s t a hc hr
    obtain ⟨tok, m, hp, hr⟩ := run_bind_eq_ok.mp hr
    obtain ⟨rfl, rfl⟩ : s.cursor.peek = tok ∧ s = m := by simpa [run_peek] using hp
    split at hr
    · next hs =>
      obtain rfl : { s with cursor := s.cursor.next } = t := by simpa [run_skip] using hr
      have hk := kind_of_isSeparator hs
      exact ⟨_, hc.spans_peek hk.1 hk.2, _, rfl, hs⟩
    · simp [run_fail] at hr
  complete := by
    intro s ls a d hc hsp hR _
    obtain ⟨tok, rfl, hs⟩ := hR
    obtain ⟨hl, rfl⟩ := Cursor.spans_singleton.mp hsp
    refine ⟨⟨s.cursor.next, s.events⟩, run_bind_eq_ok.mpr ⟨_, s, run_peek s, ?_⟩, rfl⟩
    rw [Cursor.peek_of_head? hl, if_pos hs, run_skip]

theorem recognizes_equals (place : Place) :
    Recognizes (equals place) (fun ls _ => IsEquals ls) Anywhere where
  sound := by
    intro s t a hc hr
    obtain ⟨c, m, hp, hr⟩ := run_bind_eq_ok.mp hr
    obtain ⟨rfl, rfl⟩ : s.cursor = c ∧ s = m := by simpa [run_here] using hp
    split at hr
    · next ho =>
      obtain rfl : { s with cursor := s.cursor.next } = t := by simpa [run_skip] using hr
      obtain ⟨l, hl, hs⟩ := Operand.operator_eq_head? ho
      exact ⟨[l], Cursor.spans_singleton.mpr ⟨hl, rfl⟩, l, rfl, hs⟩
    · simp [run_fail] at hr
  complete := by
    intro s ls a d hc hsp hR _
    obtain ⟨l, rfl, ho⟩ := hR
    obtain ⟨hl, rfl⟩ := Cursor.spans_singleton.mp hsp
    refine ⟨⟨s.cursor.next, s.events⟩, run_bind_eq_ok.mpr ⟨_, s, run_here s, ?_⟩, rfl⟩
    rw [if_pos ((Cursor.operator?_of_head? hl).trans ho), run_skip]

theorem recognizes_name (place : Place) : Recognizes (name place) IsName Anywhere := by
  have h : Recognizes (name place) _ Anywhere :=
    recognizes_peek (P := fun t => t.kind = .ident) (by intro t ht; simp [ht])
      (fun t _ => recognizes_pure t.text) (recognizes_fail (.expectedName place) Anywhere)
      (fun _ _ hS _ => hS.elim)
  refine h.congr ?_
  intro ls a
  constructor
  · intro h
    rcases h with ⟨t, ms, rfl, ht, rfl, rfl⟩ | h
    · exact ⟨t, rfl, ht, rfl⟩
    · exact h.elim
  · intro h
    obtain ⟨t, rfl, ht, rfl⟩ := h
    exact .inl ⟨t, [], rfl, ht, rfl, rfl⟩

/-- Behind an expression there is no binary operator. -/
def NoOperator (d : Cursor) : Prop := Operand.binOp? d = none

theorem recognizes_expression : Recognizes expression Readable NoOperator where
  sound := by
    intro s t a hc hr
    simp only [run, expression] at hr
    cases hx : readExpr s.cursor with
    | error e => simp [hx] at hr
    | ok x =>
      obtain ⟨o, d, hd⟩ := x
      simp only [hx, EStateM.Result.ok.injEq] at hr
      obtain ⟨rfl, rfl⟩ := hr
      obtain ⟨ls, hsp, hR, _, _⟩ := readExpr_sound hc ⟨hd, hx⟩
      exact ⟨ls, hsp, hR⟩
  complete := by
    intro s ls a d hc hsp hR hF
    obtain ⟨hd, hx⟩ := readExpr_complete hsp hR hF
    exact ⟨⟨d, s.events.push (.expressionParsed s.cursor.index d.index a.height)⟩,
      by simp [run, expression, hx], rfl⟩

/-- Items in a row, each behind the token that starts it. -/
inductive Repeated (R : Token → List Lexeme → α → Prop) : List Lexeme → List α → Prop where
  | nil : Repeated R [] []
  | cons {t : Token} {ls ms : List Lexeme} {a : α} {as : List α} (h : R t ls a)
      (hs : Repeated R ms as) : Repeated R (⟨t, none⟩ :: (ls ++ ms)) (a :: as)

/-- Items are repeated as long as a token starts one. What follows an item is the start of another
one, or a place where the repetition may stop. -/
theorem recognizes_many {item? : Token → Option (Parse α)} {R : Token → List Lexeme → α → Prop}
    (hk : ∀ t item, item? t = some item → t.kind ≠ .operator ∧ t.kind ≠ .eof)
    (hi : ∀ t item, item? t = some item → Recognizes item (R t) G)
    (hR : ∀ {t ls a}, R t ls a → ∃ item, item? t = some item)
    (hF : ∀ d : Cursor, F d → item? d.peek = none ∧ G d)
    (hG : ∀ d : Cursor, d.Proper → (∃ item, item? d.peek = some item) → G d) :
    Recognizes (many item?) (Repeated R) F where
  sound := by
    intro s t as hc hr
    induction hn : s.cursor.rest.length using Nat.strongRecOn generalizing s as with
    | ind n ih =>
      subst hn
      rw [run_many] at hr
      split at hr
      · obtain ⟨rfl, rfl⟩ : [] = as ∧ s = t := by simpa using hr
        exact ⟨[], .refl _, .nil⟩
      next hrest =>
      cases hitem : item? s.cursor.peek with
      | none =>
        simp only [hitem] at hr
        obtain ⟨rfl, rfl⟩ : [] = as ∧ s = t := by simpa using hr
        exact ⟨[], .refl _, .nil⟩
      | some item =>
        simp only [hitem] at hr
        obtain ⟨a, m, hm, hr⟩ := run_bind_eq_ok.mp hr
        obtain ⟨as', m', hm', hr⟩ := run_bind_eq_ok.mp hr
        obtain ⟨rfl, rfl⟩ : a :: as' = as ∧ m' = t := by simpa using hr
        have hkt := hk _ _ hitem
        have hsp := hc.spans_peek hkt.1 hkt.2
        obtain ⟨ls, hsp₁, hR₁⟩ := (hi _ _ hitem).sound (hc.of_spans hsp) hm
        have hlt : m.cursor.rest.length < s.cursor.rest.length := by
          have h1 := hsp.length_lt (by simp)
          have h2 := hsp₁.length_le
          simp only at h1 h2
          omega
        obtain ⟨ms, hsp₂, hR₂⟩ := ih _ hlt ((hc.of_spans hsp).of_spans hsp₁) hm' rfl
        exact ⟨⟨s.cursor.peek, none⟩ :: (ls ++ ms), hsp.trans (hsp₁.trans hsp₂), .cons hR₁ hR₂⟩
  complete := by
    intro s ls as d hc hsp hRep hd
    induction hRep generalizing s with
    | nil =>
      obtain rfl := Cursor.spans_nil.mp hsp
      refine ⟨s, ?_, rfl⟩
      rw [run_many, (hF _ hd).1]
      simp
    | @cons tok ls ms a as h hs ih =>
      obtain ⟨hl, hsp'⟩ := Cursor.spans_cons.mp hsp
      have hp : s.cursor.peek = tok := Cursor.peek_of_head? hl
      have hrest : s.cursor.rest ≠ [] := by intro h; simp [h] at hl
      have hn := hc.of_spans (Cursor.spans_singleton.mpr ⟨hl, rfl⟩)
      obtain ⟨item, hitem⟩ := hR h
      obtain ⟨c, hsp₁, hsp₂⟩ := hsp'.split
      have hGc : G c := by
        cases hs with
        | nil =>
          obtain rfl := Cursor.spans_nil.mp hsp₂
          exact (hF _ hd).2
        | cons h' hs' =>
          obtain ⟨hl', _⟩ := Cursor.spans_cons.mp hsp₂
          apply hG c (hn.of_spans hsp₁)
          rw [Cursor.peek_of_head? hl']
          exact hR h'
      obtain ⟨m, hm, rfl⟩ :=
        (hi tok item hitem).complete (s := ⟨s.cursor.next, s.events⟩) hn hsp₁ h hGc
      obtain ⟨t, hr, ht⟩ := ih (hn.of_spans hsp₁) hsp₂
      refine ⟨t, ?_, ht⟩
      rw [run_many, if_neg hrest, hp, hitem]
      exact run_bind_eq_ok.mpr ⟨a, m, hm, run_bind_eq_ok.mpr ⟨as, t, hr, rfl⟩⟩

end Parse

end ImpAsm

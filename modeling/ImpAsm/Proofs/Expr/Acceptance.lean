import ImpAsm.Proofs.Expr.Unambiguous

namespace ImpAsm

open Operand

variable {c d : Cursor} {ls : List Lexeme} {e : Expr}

/-- What is read is a readable expression up to a place where no operator continues it. -/
theorem readExpr_sound {o : Operand} (hc : c.Proper) (h : Reads readExpr c o d) :
    ∃ ls, c.Spans ls d ∧ Readable ls o.expr ∧ o.height = o.expr.height ∧ binOp? d = none := by
  obtain ⟨⟨ls, n, hsp, hd, hn, hh, hlim⟩, hstop⟩ :=
    climb_sound (fun c o d hc h => unary_sound nestingLimit hc h) hc (by omega) h
  refine ⟨ls, hsp, ⟨n, hd, hn, hh ▸ hlim⟩, hh, ?_⟩
  cases hb : binOp? d with
  | none => rfl
  | some op =>
    have h1 := hstop op hb
    have h2 := op.power_range.1
    omega

theorem readExpr_complete (hsp : c.Spans ls d) (h : Readable ls e) (hb : binOp? d = none) :
    Reads readExpr c ⟨e, e.height⟩ d := by
  obtain ⟨n, hd, hn, hh⟩ := h
  have hstop (k : Nat) : Stops k d := by simp [Stops, hb]
  exact climb_complete (fun c ls e k d hsp h hk hh => unary_complete hsp h hk hh) hd hsp
    (Nat.le_refl _) hn hh (hstop _) ((extends_stop (hstop _)).mpr ⟨rfl, rfl⟩)

theorem parseExpr_eq_ok {ts : List Token} {start stop : Nat} :
    parseExpr ts start = .ok (e, stop) ↔
      ∃ o d, Reads readExpr (.ofTokens ts start) o d ∧ o.expr = e ∧ d.index = stop := by
  unfold parseExpr
  constructor
  · intro h
    split at h
    · simp at h
    · next o d hr =>
      simp only [Except.ok.injEq, Prod.mk.injEq] at h
      exact ⟨o, d.1, ⟨d.2, hr⟩, h.1, h.2⟩
  · intro h
    obtain ⟨o, d, ⟨hd, hr⟩, rfl, rfl⟩ := h
    simp [hr]

/-- The tokens from number `start` up to number `stop`. -/
def tokensBetween (ts : List Token) (start stop : Nat) : List Token :=
  (ts.drop start).take (stop - start)

theorem Cursor.Spans.lexemes_eq {ts : List Token} {start : Nat}
    (h : (Cursor.ofTokens ts start).Spans ls d) :
    lexemes (tokensBetween ts start d.index) = ls ∧ d.index ≤ max start ts.length := by
  have hr : lexemes (ts.drop start) = ls ++ d.rest := h.rest
  have hi : d.index = start + totalWidth ls := h.index
  have hlen : totalWidth ls ≤ (ts.drop start).length := by
    rw [← flatMap_tokens_lexemes (ts.drop start), hr, length_flatMap_tokens, totalWidth_append]
    omega
  rw [List.length_drop] at hlen
  refine ⟨?_, by omega⟩
  rw [tokensBetween, hi, Nat.add_sub_cancel_left, take_totalWidth hr]
  exact lexemes_prefix hr

theorem one_le_width (l : Lexeme) : 1 ≤ l.width := by
  unfold Lexeme.width
  split <;> omega

/-- A readable part of a token sequence lies between two of its cursors. -/
theorem spans_of_derives {ts : List Token} {start stop k n : Nat} (hle : start ≤ stop)
    (hlen : stop ≤ ts.length) (h : Derives k (lexemes (tokensBetween ts start stop)) e n) :
    (Cursor.ofTokens ts start).Spans (lexemes (tokensBetween ts start stop))
      (.ofTokens ts stop) := by
  have hcut : ts.drop start = tokensBetween ts start stop ++ ts.drop stop := by
    have h := (List.take_append_drop (stop - start) (ts.drop start)).symm
    rwa [List.drop_drop, Nat.add_sub_cancel' hle] at h
  have hlast : ∀ t ∈ (tokensBetween ts start stop).getLast?, ∀ u ∈ (ts.drop stop).head?,
      ¬ t.joins u := by
    intro t ht u _ hj
    obtain ⟨t', ht', hk⟩ := h.getLast?_eq
    have hflat := flatMap_tokens_lexemes (tokensBetween ts start stop)
    obtain ⟨ls, hls⟩ := List.getLast?_eq_some_iff.mp ht'
    rw [hls] at hflat
    rw [← hflat] at ht
    obtain rfl : t' = t := by simpa [Lexeme.tokens] using ht
    exact hk (Token.kind_of_joins hj).1
  constructor
  · change lexemes (ts.drop start) = _ ++ lexemes (ts.drop stop)
    rw [hcut, lexemes_append hlast]
  · change stop = start + _
    rw [← length_flatMap_tokens, flatMap_tokens_lexemes, tokensBetween, List.length_take,
      List.length_drop]
    omega
  · rfl

/-- An expression is read from a token sequence exactly if its tokens are a nonempty part of the
sequence that spells its tree in the grammar, within the limits on nesting and height, and the
lexeme after them is no binary operator. The grammar leaves no choice: without the limits too
the tokens from a start on have at most one such part, and it spells one tree. -/
theorem parseExpr_iff_readable (ts : List Token) (start : Nat) :
    (∀ e stop, parseExpr ts start = .ok (e, stop) ↔
      start < stop ∧ stop ≤ ts.length ∧ Readable (lexemes (tokensBetween ts start stop)) e ∧
        binOp? (.ofTokens ts stop) = none) ∧
    (∀ e e' stop stop' n n', start < stop → stop ≤ ts.length → start < stop' → stop' ≤ ts.length →
      Derives 1 (lexemes (tokensBetween ts start stop)) e n →
      Derives 1 (lexemes (tokensBetween ts start stop')) e' n' →
      binOp? (.ofTokens ts stop) = none → binOp? (.ofTokens ts stop') = none →
      e = e' ∧ stop = stop') := by
  constructor
  · intro e stop
    constructor
    · intro h
      obtain ⟨o, d, hread, rfl, rfl⟩ := parseExpr_eq_ok.mp h
      obtain ⟨ls, hsp, hr, _, hb⟩ := readExpr_sound (Cursor.ofTokens_proper ts start) hread
      obtain ⟨hls, hlen⟩ := hsp.lexemes_eq
      have hi : d.index = start + totalWidth ls := hsp.index
      obtain ⟨n, hd, hlim⟩ := hr
      obtain ⟨l, ls, rfl⟩ := List.exists_cons_of_ne_nil hd.ne_nil
      have hw := one_le_width l
      rw [totalWidth_cons] at hi
      refine ⟨by omega, by omega, hls.symm ▸ ⟨n, hd, hlim⟩, ?_⟩
      rwa [hsp.eq_ofTokens] at hb
    · intro h
      obtain ⟨hlt, hlen, hr, hb⟩ := h
      obtain ⟨n, hd, hlim⟩ := hr
      have hsp := spans_of_derives (Nat.le_of_lt hlt) hlen hd
      exact parseExpr_eq_ok.mpr ⟨_, _, readExpr_complete hsp ⟨n, hd, hlim⟩ hb, rfl, rfl⟩
  · intro e e' stop stop' n n' hlt hlen hlt' hlen' hd hd' hb hb'
    have hsp := spans_of_derives (Nat.le_of_lt hlt) hlen hd
    have hsp' := spans_of_derives (Nat.le_of_lt hlt') hlen' hd'
    have ends {i : Nat} (hi : binOp? (.ofTokens ts i) = none) :
        Ends 1 (Cursor.ofTokens ts i).rest := by
      intro l hl op ho
      rw [binOp?_of_head? hl ho] at hi
      simp at hi
    obtain ⟨hls, he, _⟩ := derives_unique _ (Nat.le_refl _) (by omega) (Nat.le_refl _) hd hd'
      (hsp.rest.symm.trans hsp'.rest) (ends hb) (ends hb')
    refine ⟨he, ?_⟩
    have hi := hsp.index
    have hi' := hsp'.index
    rw [← hls] at hi'
    exact hi.trans hi'.symm

/-- The tokens of `1-2*-3 4`. -/
def differenceTokens : List Token :=
  [⟨.int, "1", ⟨0, 1, 1⟩⟩, ⟨.operator, "-", ⟨1, 1, 2⟩⟩, ⟨.int, "2", ⟨2, 1, 3⟩⟩,
    ⟨.operator, "*", ⟨3, 1, 4⟩⟩, ⟨.operator, "-", ⟨4, 1, 5⟩⟩, ⟨.int, "3", ⟨5, 1, 6⟩⟩,
    ⟨.int, "4", ⟨7, 1, 8⟩⟩]

theorem readable_difference :
    Readable (lexemes (tokensBetween differenceTokens 0 6))
      (.binary .sub (.num 1) (.binary .mul (.num 2) (.num (-3)))) ∧
    ∀ e n, Derives 1 (lexemes (tokensBetween differenceTokens 0 6)) e n →
      e = .binary .sub (.num 1) (.binary .mul (.num 2) (.num (-3))) := by
  obtain ⟨hread, hunique⟩ := parseExpr_iff_readable differenceTokens 0
  obtain ⟨hlt, hlen, hr, hb⟩ :=
    (hread (.binary .sub (.num 1) (.binary .mul (.num 2) (.num (-3)))) 6).mp (by cbv)
  refine ⟨hr, ?_⟩
  intro e n hd
  obtain ⟨m, hd', _⟩ := hr
  exact (hunique e _ 6 6 n m hlt hlen hlt hlen hd hd' hb hb).1

end ImpAsm

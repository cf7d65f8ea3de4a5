import ImpAsm.Proofs.Stmt.Blocks

namespace ImpAsm

namespace Parse

/-- A statement behind the token that starts it, with blocks nested at most `n` deep. -/
def StatementAt (n : Nat) (t : Token) (ls : List Lexeme) (s : Stmt) : Prop :=
  ∃ k, t.isKeyword k ∧ FormAt n k ls s

/-- No statement starts here, and no `else` stands here. -/
def NoKeyword (d : Cursor) : Prop := ∀ k, d.peek.kind ≠ .keyword k

variable {n : Nat} {block : Place → Parse (List Stmt)}

theorem form?_of_formAt (block : Place → Parse (List Stmt)) {k : Keyword}
    {ls : List Lexeme} {s : Stmt} (h : FormAt n k ls s) : ∃ form, form? block k = some form := by
  obtain ⟨h, _⟩ := h
  cases h <;> exact ⟨_, rfl⟩

theorem recognizes_statement (hblock : ∀ place, Recognizes (block place) (BlockAt n) Anywhere)
    {k : Keyword} {form : Parse Stmt} (hf : form? block k = some form) :
    Recognizes (do let stmt ← form; report (.statementParsed k); return stmt) (FormAt n k)
      NotElse := by
  have hend (s : Stmt) := (recognizes_report (.statementParsed k)).andThen fun _ =>
    (recognizes_pure s).mono (G := NotElse) fun _ _ => trivial
  have h := (recognizes_form hblock hf).bind hend (by
    intro s ls s' c d hsp hS hd
    obtain ⟨_, _, _, rfl, rfl, rfl, _⟩ := hS
    exact Cursor.spans_nil.mp hsp ▸ hd)
  refine h.congr ?_
  intro ls s
  constructor
  · intro h
    obtain ⟨ls, _, s, rfl, h, _, _, _, rfl, rfl, rfl, rfl⟩ := h
    simpa using h
  · intro h
    exact ⟨ls, [], s, by simp, h, [], [], (), rfl, rfl, rfl, rfl⟩

theorem repeated_iff_spells {ls : List Lexeme} {ss : List Stmt} :
    Repeated (StatementAt n) ls ss ↔ Spells Readable ls (.stmts ss) ∧ blockDepth ss ≤ n := by
  constructor
  · intro h
    induction h with
    | nil => exact ⟨.nil, Nat.zero_le n⟩
    | @cons t ls ms s ss h hs ih =>
      obtain ⟨k, hk, h, hn⟩ := h
      refine ⟨.cons hk h ih.1, ?_⟩
      rw [blockDepth]
      exact Nat.max_le.mpr ⟨hn, ih.2⟩
  · intro h
    obtain ⟨h, hn⟩ := h
    induction ss generalizing ls with
    | nil =>
      cases h with
      | nil => exact .nil
    | cons s ss ih =>
      cases h with
      | cons hk h hs =>
        rw [blockDepth] at hn
        obtain ⟨hn, hn'⟩ := Nat.max_le.mp hn
        exact .cons ⟨_, hk, h, hn⟩ (ih hs hn')

theorem recognizes_statements
    (hblock : ∀ place, Recognizes (block place) (BlockAt n) Anywhere) :
    Recognizes (statements block)
      (fun ls ss => Spells Readable ls (.stmts ss) ∧ blockDepth ss ≤ n) NoKeyword := by
  have h : Recognizes (statements block) (Repeated (StatementAt n)) NoKeyword := by
    refine recognizes_many (G := NotElse) ?_ ?_ ?_ ?_ ?_
    · intro t item hi
      cases hk : t.kind <;> simp [hk] at hi ⊢
    · intro t item hi
      cases hk : t.kind with
      | keyword k =>
        simp only [hk, Option.map_eq_some_iff] at hi
        obtain ⟨form, hf, rfl⟩ := hi
        refine (recognizes_statement hblock hf).congr ?_
        intro ls s
        constructor
        · intro h
          exact ⟨k, by simp [Token.isKeyword, hk], h⟩
        · intro h
          obtain ⟨k', hk', h⟩ := h
          obtain rfl : k = k' := by simpa [hk] using kind_of_isKeyword hk'
          exact h
      | _ => simp [hk] at hi
    · intro t ls s h
      obtain ⟨k, hk, h⟩ := h
      obtain ⟨form, hf⟩ := form?_of_formAt block h
      simp [kind_of_isKeyword hk, hf]
    · intro d hd
      constructor
      · cases hk : d.peek.kind with
        | keyword k => exact absurd hk (hd k)
        | _ => simp
      · intro he
        exact hd _ (kind_of_isKeyword he)
    · intro d _ hi he
      obtain ⟨item, hi⟩ := hi
      simp [kind_of_isKeyword he, form?] at hi
  exact h.congr fun ls ss => repeated_iff_spells

/-- Where no statement starts, the error names the token there. -/
theorem run_noStatement {α : Type} (s : ParseState) :
    ∃ e, (noStatement : Parse α).run s = .error e s ∧ e.token = s.cursor.peek := by
  simp only [noStatement, run_bind, run_peek]
  split
  · exact ⟨_, run_fail _ s, rfl⟩
  · exact ⟨_, run_fail _ s, rfl⟩

/-- Behind the statements of a block only its closing brace is accepted. -/
theorem recognizes_unclosed {α : Type} (fault : SyntaxFault) :
    Recognizes (do if (← here).atEnd then fail fault else noStatement : Parse α)
      (fun _ _ => False) Anywhere where
  sound := by
    intro s t a _ hr
    obtain ⟨c, m, hc, hr⟩ := run_bind_eq_ok.mp hr
    obtain ⟨rfl, rfl⟩ : s.cursor = c ∧ s = m := by simpa [run_here] using hc
    obtain ⟨e, he, _⟩ := run_noStatement (α := α) s
    split at hr
    · simp [run_fail] at hr
    · simp [he] at hr
  complete := by
    intro s ls a d _ _ hR
    exact hR.elim

theorem noKeyword_of_isSeparator {d : Cursor} {t : Token} {c : Char}
    (hl : d.rest.head? = some ⟨t, none⟩) (ht : t.isSeparator c) : NoKeyword d := by
  intro k hk
  rw [Cursor.peek_of_head? hl, Derives.kind_of_isSeparator ht] at hk
  simp at hk

theorem recognizes_block (n : Nat) (place : Place) :
    Recognizes (Parse.block n place) (BlockAt n) Anywhere := by
  induction n generalizing place with
  | zero =>
    have h := (recognizes_separator '\x7b' place).andThen fun _ =>
      recognizes_fail (α := List Stmt) .blockTooDeep Anywhere
    refine h.congr ?_
    intro ls ss
    constructor
    · intro h
      obtain ⟨_, _, _, _, _, h⟩ := h
      exact h.elim
    · intro h
      exact absurd h.2 (Nat.not_lt_zero _)
  | succ n ih =>
    have hclose (body : List Stmt) :=
      recognizes_peek (P := fun t => t.isSeparator '\x7d') (fun t ht => kind_of_isSeparator ht)
        (fun t _ => recognizes_pure body)
        (recognizes_unclosed (.expected '\x7d' .closingBlock)) (fun _ _ hS _ => hS.elim)
    have hbody := (recognizes_statements ih).bind hclose (by
      intro body ls ss c d hsp hS _
      rcases hS with ⟨t, ms, rfl, ht, _⟩ | hS
      · exact noKeyword_of_isSeparator (Cursor.spans_cons.mp hsp).1 ht
      · exact hS.elim)
    have h := (recognizes_separator '\x7b' place).andThen fun _ => hbody
    refine h.congr ?_
    intro ls ss
    constructor
    · intro h
      obtain ⟨as, _, _, rfl, ha, ls, _, body, rfl, ⟨h, hn⟩, h'⟩ := h
      rcases h' with ⟨t, _, rfl, ht, rfl, rfl⟩ | h'
      · exact ⟨.block ha h ⟨t, rfl, ht⟩, Nat.lt_succ_of_le hn⟩
      · exact h'.elim
    · intro h
      obtain ⟨h, hn⟩ := h
      cases h with
      | @block _ as ls bs ha h hb =>
        obtain ⟨t, rfl, ht⟩ := hb
        exact ⟨as, _, (), rfl, ha, ls, _, ss, rfl, ⟨h, Nat.le_of_lt_succ hn⟩,
          .inl ⟨t, [], rfl, ht, rfl, rfl⟩⟩

/-- A program is read exactly if its statements reach up to the end of the input. -/
theorem run_program_iff {s : ParseState} {p : Program} (hs : s.cursor.Proper) :
    (∃ t, program.run s = .ok p t) ↔
      ∃ ls d, s.cursor.Spans ls d ∧ Spells Readable ls (.stmts p) ∧ blockDepth p ≤ nestingLimit ∧
        d.atEnd := by
  have hstmts := recognizes_statements (recognizes_block nestingLimit)
  constructor
  · intro h
    obtain ⟨t, h⟩ := h
    obtain ⟨ss, m, hm, h⟩ := run_bind_eq_ok.mp h
    obtain ⟨ls, hsp, hss, hn⟩ := hstmts.sound hs hm
    obtain ⟨c, m', hc, h⟩ := run_bind_eq_ok.mp h
    obtain ⟨rfl, rfl⟩ : m.cursor = c ∧ m = m' := by simpa [run_here] using hc
    split at h
    · next hend =>
      obtain ⟨_, m', _, h⟩ := run_bind_eq_ok.mp h
      obtain ⟨rfl, _⟩ : ss = p ∧ m' = t := by simpa using h
      exact ⟨ls, m.cursor, hsp, hss, hn, hend⟩
    · obtain ⟨e, he, _⟩ := run_noStatement (α := Program) m
      simp [he] at h
  · intro h
    obtain ⟨ls, d, hsp, hss, hn, hend⟩ := h
    have hd : NoKeyword d := by
      intro k hk
      simp [Cursor.atEnd, hk] at hend
    obtain ⟨t, ht, rfl⟩ := hstmts.complete hs hsp ⟨hss, hn⟩ hd
    refine ⟨⟨t.cursor, t.events.push (.programParsed p.length)⟩, run_bind_eq_ok.mpr
      ⟨p, t, ht, run_bind_eq_ok.mpr ⟨_, t, run_here t, ?_⟩⟩⟩
    rw [if_pos hend]
    rfl

end Parse

end ImpAsm

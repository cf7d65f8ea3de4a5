import ImpAsm.Proofs.Stmt.Acceptance
import ImpAsm.Proofs.Stmt.Faults
import ImpAsm.Proofs.Token.Rebuilding

namespace ImpAsm

/-- Among lexemes that tokens are grouped into, none is the end of the input. -/
def Endless (ls : List Lexeme) : Prop := (∀ l ∈ ls, l.Proper) → ∀ l ∈ ls, l.token.kind ≠ .eof

section Endless

variable {ls ms : List Lexeme}

theorem Endless.append (h : Endless ls) (h' : Endless ms) : Endless (ls ++ ms) := by
  intro hp l hl
  rcases List.mem_append.mp hl with hl | hl
  · exact h (fun l hl => hp l (List.mem_append_left ms hl)) l hl
  · exact h' (fun l hl => hp l (List.mem_append_right ls hl)) l hl

theorem endless_nil : Endless [] := by simp [Endless]

theorem endless_token {t : Token} {k : TokenKind} (ht : t.kind = k) (hk : k ≠ .eof) :
    Endless [⟨t, none⟩] := by
  intro _ l hl
  obtain rfl : l = ⟨t, none⟩ := by simpa using hl
  exact ht ▸ hk

theorem IsSeparator.endless {c : Char} (h : IsSeparator c ls) : Endless ls := by
  obtain ⟨t, rfl, ht⟩ := h
  exact endless_token (Derives.kind_of_isSeparator ht) (by simp)

theorem IsName.endless {x : String} (h : IsName ls x) : Endless ls := by
  obtain ⟨t, rfl, ht, _⟩ := h
  exact endless_token ht (by simp)

theorem IsEquals.endless (h : IsEquals ls) : Endless ls := by
  obtain ⟨l, rfl, ho⟩ := h
  intro hp l' hl'
  obtain rfl : l' = l := by simpa using hl'
  simp [Derives.kind_of_operator? (hp l' hl') ho]

theorem Unlimited.endless {e : Expr} (h : Unlimited ls e) : Endless ls := by
  obtain ⟨n, hd⟩ := h
  intro hp l hl
  rcases hd.lexeme_kinds hp l hl with hk | hk | hk
  · intro heof
    simp [heof] at hk
  · simp [Derives.kind_of_isSeparator hk]
  · simp [Derives.kind_of_isSeparator hk]

theorem CommaSeparated.endless {α : Type} {R : List Lexeme → α → Prop} {as : List α}
    (h : CommaSeparated R ls as) (hR : ∀ ms a, R ms a → Endless ms) : Endless ls := by
  induction h with
  | nil => exact endless_nil
  | one h => exact hR _ _ h
  | cons h ht hs ih =>
    have hcomma := endless_token (Derives.kind_of_isSeparator ht) (by simp)
    exact (hR _ _ h).append (hcomma.append ih)

theorem endless_keyword {t : Token} {k : Keyword} (h : t.isKeyword k) : Endless [⟨t, none⟩] :=
  endless_token (Parse.kind_of_isKeyword h) (by simp)

/-- The end of the input stands in no part of a program. -/
theorem Spells.endless {ph : Phrase} (h : Spells Unlimited ls ph) : Endless ls := by
  induction h with
  | nil => exact endless_nil
  | cons hk h hs ih ihs => exact (endless_keyword hk).append (ih.append ihs)
  | block ha h hb ih => exact ha.endless.append (ih.append hb.endless)
  | exit ha he hb hc =>
    exact ha.endless.append (he.endless.append (hb.endless.append hc.endless))
  | printText ha ht hb hc =>
    have htext := endless_token ht (by simp)
    exact ha.endless.append (htext.append (hb.endless.append hc.endless))
  | printValue ha he hb hc =>
    exact ha.endless.append (he.endless.append (hb.endless.append hc.endless))
  | declare hx ha he hc =>
    exact hx.endless.append (ha.endless.append (he.endless.append hc.endless))
  | assign hx ha he hc =>
    exact hx.endless.append (ha.endless.append (he.endless.append hc.endless))
  | branch ha he hb hy ih =>
    exact ha.endless.append (he.endless.append (hb.endless.append ih))
  | branchElse ha he hb hy ht hn ihy ihn =>
    have helse := (endless_keyword ht).append ihn
    exact ha.endless.append (he.endless.append (hb.endless.append (ihy.append helse)))
  | loop ha he hb hy ih =>
    exact ha.endless.append (he.endless.append (hb.endless.append ih))
  | call hf ha he hb hc =>
    have hargs := he.endless fun _ _ h => h.endless
    exact hf.endless.append (ha.endless.append (hargs.append (hb.endless.append hc.endless)))
  | processor hp ha he hb hy ih =>
    have hparams := he.endless fun _ _ h => h.endless
    exact hp.endless.append (ha.endless.append (hparams.append (hb.endless.append ih)))

end Endless

theorem Token.not_joins_of_offset {a b : Token} (h : b.position.offset = 0) : ¬ a.joins b := by
  simp [joins, h]

/-- Loose lexemes are grouped apart from all tokens before them. -/
theorem lexemes_append_loose (ts : List Token) {ms : List Lexeme} (h : ∀ l ∈ ms, l.Loose) :
    lexemes (ts ++ ms.map Lexeme.token) = lexemes ts ++ ms := by
  have hms : lexemes (ms.map Lexeme.token) = ms := by
    induction ms with
    | nil => rfl
    | cons l ms ih =>
      have hl : ⟨l.token, none⟩ = l := by rw [← (h l (by simp)).1]
      have hrest := ih fun m hm => h m (by simp [hm])
      cases ms with
      | nil => rw [List.map_cons, List.map_nil, lexemes, hl]
      | cons m ms =>
        have hm : ¬ l.token.joins m.token := Token.not_joins_of_offset (h m (by simp)).2
        rw [List.map_cons] at hrest ⊢
        rw [List.map_cons, lexemes_cons_of_not_joins hm, ← List.map_cons, hl]
        exact congrArg _ hrest
  rw [lexemes_append, hms]
  intro a _ b hb
  obtain ⟨l, hl, rfl⟩ := List.mem_map.mp (List.mem_of_mem_head? hb)
  exact Token.not_joins_of_offset (h l hl).2

/-- The tokens of a text stand behind some of its characters. -/
theorem Rebuilds.position {before cs : List Char} {ts : List Token} (h : Rebuilds before cs ts) :
    ∀ t ∈ ts, ∃ front, t.position = .behind front := by
  induction h with
  | @done before gap hgap => simp
  | token hgap hp hs h ih =>
    intro t ht
    rcases List.mem_cons.mp ht with rfl | ht
    · exact ⟨_, hp⟩
    · exact ih t ht

theorem parse_eq_error {ts : List Token} {e : CompileError} :
    parse ts = .error e ↔
      ∃ err t, e = .syntactic err ∧ Parse.program.run ⟨.ofTokens ts 0, #[]⟩ = .error err t := by
  unfold parse parseTraced parseFrom
  cases Parse.program.run ⟨.ofTokens ts 0, #[]⟩ with
  | error err t => simp [eq_comm]
  | ok p t => simp

/-- The end of the input stands in no start of a sentence. -/
theorem Viable.kind_ne_eof {ls : List Lexeme} (h : Viable programText ls)
    (hls : ∀ l ∈ ls, l.Proper) :
    ∀ l ∈ ls, l.token.kind ≠ .eof := by
  obtain ⟨ms, hms, p, hp⟩ := h
  intro l hl
  apply hp.endless _ l (List.mem_append_left ms hl)
  intro m hm
  rcases List.mem_append.mp hm with hm | hm
  · exact hls m hm
  · simp [Lexeme.Proper, (hms m hm).1]

/-- The tokens of a start of a sentence start the tokens of one. -/
theorem Viable.sentence {us : List Token} (h : Viable programText (lexemes us)) :
    ∃ vs, lexemes (us ++ vs) = lexemes us ++ lexemes vs ∧ lexemes (us ++ vs) ∈ programText := by
  obtain ⟨ms, hms, hsentence⟩ := h
  refine ⟨ms.map Lexeme.token, ?_, ?_⟩
  · rw [lexemes_append_loose us hms]
    exact congrArg _ (lexemes_append_loose [] hms).symm
  · rwa [lexemes_append_loose us hms]

theorem getElem?_totalWidth {ts : List Token} {ls rest : List Lexeme} {l : Lexeme}
    (h : lexemes ts = ls ++ l :: rest) : ts[totalWidth ls]? = some l.token := by
  have hts := flatMap_tokens_lexemes ts
  rw [h, List.flatMap_append, List.flatMap_cons, Lexeme.tokens, List.cons_append] at hts
  rw [← hts, ← length_flatMap_tokens, List.getElem?_append_right (Nat.le_refl _), Nat.sub_self]
  rfl

theorem tokenize_position {s : String} {ts : List Token} (h : tokenize s = .ok ts) :
    ∀ t ∈ ts, 1 ≤ t.position.line ∧ 1 ≤ t.position.column := by
  have hs := tokenize_eq_ok.mp h
  have hrebuilds : Rebuilds [] s.toList (scan .start s.toList).tokens :=
    scan_rebuilds rfl (apart_nil _) (by rw [hs])
  rw [hs] at hrebuilds
  intro t ht
  obtain ⟨front, hfront⟩ := hrebuilds.position t ht
  simp [hfront, Position.behind]

/-- A syntax error stands at the first token that is at fault. Unless it is about a limit on
nesting, the error names the token number `k` of the text, which has a line and a column there. The
tokens before it are the start of a sentence of the grammar without limits; with the lexeme that
stands at the token they are none, and at the end of the input they are no sentence themselves. -/
theorem parse_error_first_fault (s : String) (ts : List Token) (e : CompileError)
    (hts : tokenize s = .ok ts) (he : parse ts = .error e)
    (hlimit : ∀ err, e = .syntactic err → ¬ err.fault.IsLimit) :
    ∃ k err l rest, e = .syntactic err ∧ ts[k]? = some err.token ∧
      1 ≤ err.token.position.line ∧ 1 ≤ err.token.position.column ∧
      lexemes ts = lexemes (ts.take k) ++ l :: rest ∧ l.token = err.token ∧
      (∃ us, lexemes (ts.take k ++ us) = lexemes (ts.take k) ++ lexemes us ∧
        lexemes (ts.take k ++ us) ∈ programText) ∧
      (err.token.kind = .eof → lexemes (ts.take k) ∉ programText) ∧
      (err.token.kind ≠ .eof → ∀ ms, lexemes (ts.take k) ++ l :: ms ∉ programText) := by
  obtain ⟨err, t, rfl, hrun⟩ := parse_eq_error.mp he
  have hmiss :=
    Parse.decides_program.outcome (s := ⟨.ofTokens ts 0, #[]⟩) (Cursor.ofTokens_proper ts 0)
  rw [hrun] at hmiss
  obtain ⟨ls, d, hsp, htoken, hviable, hdead⟩ := hmiss.resolve_left (hlimit err rfl)
  have hlex : lexemes ts = ls ++ d.rest := hsp.rest
  have hls : lexemes (ts.take (totalWidth ls)) = ls := by
    rw [take_totalWidth hlex, lexemes_prefix hlex]
  cases hrest : d.rest with
  | nil =>
    -- The tokens end in the end of the input, which no start of a sentence has.
    obtain ⟨us, q, rfl, _⟩ := tokenize_getLast hts
    rw [hrest, List.append_nil, lexemes_concat_of_not_operator (by simp)] at hlex
    have hproper : ∀ l ∈ ls, l.Proper := by
      rw [← hls]
      exact lexemes_proper _
    exact absurd rfl (hviable.kind_ne_eof hproper ⟨⟨.eof, "", q⟩, none⟩ (by simp [← hlex]))
  | cons l rest =>
    have hl : l.token = err.token := by rw [htoken, Cursor.peek_of_head? (by rw [hrest]; rfl)]
    have hk : ts[totalWidth ls]? = some err.token := by
      rw [hrest] at hlex
      rw [getElem?_totalWidth hlex, hl]
    obtain ⟨hline, hcolumn⟩ := tokenize_position hts _ (List.mem_of_getElem? hk)
    refine ⟨totalWidth ls, err, l, rest, rfl, hk, hline, hcolumn, ?_, hl, ?_, ?_, ?_⟩
    · rw [hls, hlex, hrest]
    · apply Viable.sentence
      rwa [hls]
    · intro heof hmem
      rw [hls] at hmem
      refine hdead [l] (by rw [hrest]; rfl) ls ⟨[l], rfl, hmem, ?_⟩
      intro l' hl'
      obtain rfl : l = l' := by simpa using hl'
      rw [hl, heof]
    · intro _ ms hmem
      rw [hls] at hmem
      exact hdead (l :: ms) (by rw [hrest]; rfl) _ ⟨[], by simp, hmem, by simp [Parse.EndNext]⟩

/-- The tokens of `let x == 5;`. -/
def doubledTokens : List Token :=
  [⟨.keyword .declare, "let", ⟨0, 1, 1⟩⟩, ⟨.ident, "x", ⟨4, 1, 5⟩⟩, ⟨.operator, "=", ⟨6, 1, 7⟩⟩,
    ⟨.operator, "=", ⟨7, 1, 8⟩⟩, ⟨.int, "5", ⟨9, 1, 10⟩⟩, ⟨.separator, ";", ⟨10, 1, 11⟩⟩,
    ⟨.eof, "", ⟨11, 1, 12⟩⟩]

/-- Their error, at the operator that the two signs make up. -/
def doubledError : SyntaxError :=
  ⟨⟨.operator, "=", ⟨6, 1, 7⟩⟩, .expected '=' .afterVariableName⟩

theorem first_fault_doubled :
    parse doubledTokens = .error (.syntactic doubledError) ∧
      (∃ us, lexemes (doubledTokens.take 2 ++ us) ∈ programText) ∧
      ∀ ms, lexemes (doubledTokens.take 2) ++
        ⟨doubledError.token, some ⟨.operator, "=", ⟨7, 1, 8⟩⟩⟩ :: ms ∉ programText := by
  have hts : tokenize "let x == 5;" = .ok doubledTokens := by cbv
  have he : parse doubledTokens = .error (.syntactic doubledError) := by cbv
  have hlimit :
      ∀ err, CompileError.syntactic doubledError = .syntactic err → ¬ err.fault.IsLimit := by
    intro err herr
    obtain rfl := CompileError.syntactic.inj herr
    simp [SyntaxFault.IsLimit, doubledError]
  obtain ⟨k, err, l, rest, herr, hk, _, _, hlex, hl, ⟨us, _, hus⟩, _, hdead⟩ :=
    parse_error_first_fault _ _ _ hts he hlimit
  obtain rfl := CompileError.syntactic.inj herr
  have htwo : ∀ i < doubledTokens.length, doubledTokens[i]? = some doubledError.token → i = 2 := by
    decide
  obtain rfl := htwo k (List.getElem?_eq_some_iff.mp hk).1 hk
  refine ⟨he, ⟨us, hus⟩, ?_⟩
  have hlexemes : lexemes doubledTokens = lexemes (doubledTokens.take 2) ++
      ⟨doubledError.token, some ⟨.operator, "=", ⟨7, 1, 8⟩⟩⟩ :: lexemes (doubledTokens.drop 4) := by
        cbv
  have hcons := List.append_cancel_left (hlex.symm.trans hlexemes)
  obtain ⟨rfl, _⟩ := List.cons.inj hcons
  exact hdead (by simp [doubledError])

end ImpAsm

import ImpAsm.Proofs.Compilation.Correctness
import ImpAsm.Proofs.Stmt.Likeness

namespace ImpAsm

/-- Token sequences that differ in nothing but the places of their tokens: they have the same kinds
and texts, and operators next to each other touch in both or in neither. -/
structure SameWording (ts us : List Token) : Prop where
  words : ts.map (fun t => (t.kind, t.text)) = us.map fun t => (t.kind, t.text)
  touching : ∀ (i : Nat) (a b a' b' : Token), ts[i]? = some a → ts[i + 1]? = some b →
    us[i]? = some a' → us[i + 1]? = some b' → a.kind = .operator → b.kind = .operator →
    (b.position.offset = a.position.offset + 1 ↔ b'.position.offset = a'.position.offset + 1)

/-- Errors that say the same, perhaps of different places. -/
inductive CompileError.SameButPlace : CompileError → CompileError → Prop where
  | lexical {p q : Position} {fault : LexicalFault} :
      SameButPlace (.lexical p fault) (.lexical q fault)
  | syntactic {e e' : SyntaxError} (hnear : e.token.describe = e'.token.describe)
      (hfault : e.fault = e'.fault) : SameButPlace (.syntactic e) (.syntactic e')
  | undeclared {x : String} : SameButPlace (.undeclared x) (.undeclared x)

theorem CompileError.SameButPlace.refl (e : CompileError) : e.SameButPlace e := by
  cases e with
  | lexical p fault => exact .lexical
  | syntactic e => exact .syntactic rfl rfl
  | undeclared x => exact .undeclared

/-- Every place is as good as any other. -/
def AnyPlace (_ _ : Token) : Prop := True

namespace SameWording

variable {ts us : List Token}

theorem like (h : SameWording ts us) : List.Forall₂ (Token.Like AnyPlace) ts us := by
  have hwords := List.forall₂_map_left_iff.mp
    (List.forall₂_map_right_iff.mp (List.forall₂_eq_eq_eq ▸ h.words))
  refine hwords.imp ?_
  intro a b hab
  obtain ⟨hkind, htext⟩ := Prod.mk.inj hab
  exact ⟨hkind, htext, trivial⟩

/-- Tokens with the same number have the same kind and text. -/
theorem word (h : SameWording ts us) {i : Nat} {t u : Token} (ht : ts[i]? = some t)
    (hu : us[i]? = some u) : t.kind = u.kind ∧ t.text = u.text := by
  have hword := congrArg (·[i]?) h.words
  simpa [ht, hu] using hword

/-- Where the touching operators are the same, the same tokens join. -/
theorem joins (h : SameWording ts us) {i : Nat} {a b a' b' : Token} (ha : ts[i]? = some a)
    (hb : ts[i + 1]? = some b) (ha' : us[i]? = some a') (hb' : us[i + 1]? = some b') :
    a.joins b = a'.joins b' := by
  obtain ⟨hka, hta⟩ := h.word ha ha'
  obtain ⟨hkb, htb⟩ := h.word hb hb'
  have htouch := h.touching i a b a' b' ha hb ha' hb'
  rw [Bool.eq_iff_iff]
  simp only [Token.joins, Bool.and_eq_true, beq_iff_eq, ← hka, ← hkb, ← hta, ← htb]
  constructor
  · rintro ⟨⟨⟨hoa, hob⟩, hoffset⟩, htext⟩
    exact ⟨⟨⟨hoa, hob⟩, (htouch hoa hob).mp hoffset⟩, htext⟩
  · rintro ⟨⟨⟨hoa, hob⟩, hoffset⟩, htext⟩
    exact ⟨⟨⟨hoa, hob⟩, (htouch hoa hob).mpr hoffset⟩, htext⟩

theorem cursor (h : SameWording ts us) :
    (Cursor.ofTokens ts 0).Like AnyPlace 0 (Cursor.ofTokens us 0) where
  rest := lexemes_like h.like fun _ _ _ _ _ => h.joins
  ending := endToken_like h.like trivial
  index := rfl

/-- Sequences of the same wording are the same program, or they have like errors. -/
theorem parse (h : SameWording ts us) :
    (∃ p, ImpAsm.parse ts = .ok p ∧ ImpAsm.parse us = .ok p) ∨
      ∃ e e', ImpAsm.parse ts = .error (.syntactic e) ∧ ImpAsm.parse us = .error (.syntactic e') ∧
        e.Like AnyPlace e' :=
  (parseFrom_like (Cursor.ofTokens_proper ts 0) h.cursor).2.2

end SameWording

theorem compile_of_tokenize_error {s : String} {e : CompileError} (h : tokenize s = .error e) :
    compile s = .error e := by
  rw [compile, compileTraced, Traced.andThen, tokenizeTraced_result, h]

theorem compile_of_tokenize {s : String} {ts : List Token} (h : tokenize s = .ok ts) :
    compile s = (parse ts).bind fun p => (generate p).assembly.map Assembly.text := by
  rw [compile, compileTraced, Traced.andThen, tokenizeTraced_result, h]
  simp only [Traced.andThen]
  cases hp : (parseTraced ts).result with
  | error e => simp [parse, hp, Except.bind]
  | ok p =>
    simp only [generateTraced, parse, hp, Except.bind]
    cases (generate p).assembly with
    | error e => rfl
    | ok a => rfl

/-- The layout of a text does not matter: texts of the same wording have the same assembly, or
errors that say the same. -/
theorem compile_layout {s s' : String} {ts ts' : List Token} (hts : tokenize s = .ok ts)
    (hts' : tokenize s' = .ok ts') (h : SameWording ts ts') :
    (∃ asm, compile s = .ok asm ∧ compile s' = .ok asm) ∨
      ∃ e e', compile s = .error e ∧ compile s' = .error e' ∧ e.SameButPlace e' := by
  rw [compile_of_tokenize hts, compile_of_tokenize hts']
  rcases h.parse with ⟨p, hp, hp'⟩ | ⟨e, e', he, he', hlike⟩
  · rw [hp, hp']
    simp only [Except.bind]
    cases ha : (generate p).assembly with
    | ok a => exact .inl ⟨a.text, rfl, rfl⟩
    | error e => exact .inr ⟨e, e, rfl, rfl, .refl e⟩
  · rw [he, he']
    exact .inr ⟨_, _, rfl, rfl, .syntactic hlike.token.describe hlike.fault⟩

/-- The tokens of `exit(1<=);` and of the same words in three lines, one of them with a remark. -/
def denseTokens : List Token :=
  [⟨.keyword .exit, "exit", ⟨0, 1, 1⟩⟩, ⟨.separator, "(", ⟨4, 1, 5⟩⟩, ⟨.int, "1", ⟨5, 1, 6⟩⟩,
    ⟨.operator, "<", ⟨6, 1, 7⟩⟩, ⟨.operator, "=", ⟨7, 1, 8⟩⟩, ⟨.separator, ")", ⟨8, 1, 9⟩⟩,
    ⟨.separator, ";", ⟨9, 1, 10⟩⟩, ⟨.eof, "", ⟨10, 1, 11⟩⟩]

def sparseTokens : List Token :=
  [⟨.keyword .exit, "exit", ⟨0, 1, 1⟩⟩, ⟨.separator, "(", ⟨5, 2, 1⟩⟩, ⟨.int, "1", ⟨7, 2, 3⟩⟩,
    ⟨.operator, "<", ⟨9, 2, 5⟩⟩, ⟨.operator, "=", ⟨10, 2, 6⟩⟩, ⟨.separator, ")", ⟨17, 3, 1⟩⟩,
    ⟨.separator, ";", ⟨18, 3, 2⟩⟩, ⟨.eof, "", ⟨19, 3, 3⟩⟩]

theorem layout_sparse :
    tokenize "exit(1<=);" = .ok denseTokens ∧ tokenize "exit\n( 1 <= // 2\n);" = .ok sparseTokens ∧
      ∃ e e', compile "exit(1<=);" = .error e ∧ compile "exit\n( 1 <= // 2\n);" = .error e' ∧
        e ≠ e' ∧ e.SameButPlace e' := by
  have hdense : tokenize "exit(1<=);" = .ok denseTokens := by cbv
  have hsparse : tokenize "exit\n( 1 <= // 2\n);" = .ok sparseTokens := by cbv
  have htouching : ∀ i < 8, ∀ a : Token, a ∈ denseTokens[i]? →
      ∀ b : Token, b ∈ denseTokens[i + 1]? →
      ∀ a' : Token, a' ∈ sparseTokens[i]? → ∀ b' : Token, b' ∈ sparseTokens[i + 1]? →
      a.kind = .operator → b.kind = .operator →
      (b.position.offset = a.position.offset + 1 ↔
        b'.position.offset = a'.position.offset + 1) := by
    decide
  have hwording : SameWording denseTokens sparseTokens := by
    refine ⟨by decide, ?_⟩
    intro i a b a' b' ha hb ha' hb'
    exact htouching i (List.getElem?_eq_some_iff.mp ha).1 a ha b hb a' ha' b' hb'
  have hcompile : compile "exit(1<=);" =
      .error (.syntactic ⟨⟨.separator, ")", ⟨8, 1, 9⟩⟩, .expectedExpression⟩) := by
    rw [compile_of_tokenize hdense]
    cbv
  have hcompile' : compile "exit\n( 1 <= // 2\n);" =
      .error (.syntactic ⟨⟨.separator, ")", ⟨17, 3, 1⟩⟩, .expectedExpression⟩) := by
    rw [compile_of_tokenize hsparse]
    cbv
  rcases compile_layout hdense hsparse hwording with ⟨asm, hasm, _⟩ | ⟨e, e', he, he', hsame⟩
  · simp [hcompile] at hasm
  · refine ⟨hdense, hsparse, e, e', he, he', ?_, hsame⟩
    obtain rfl : CompileError.syntactic _ = e := Except.error.inj (hcompile.symm.trans he)
    obtain rfl : CompileError.syntactic _ = e' := Except.error.inj (hcompile'.symm.trans he')
    decide

end ImpAsm

import ImpAsm.Proofs.Stmt.Grammar

namespace ImpAsm

/-- What shows the statements and blocks of a program: its keywords and braces. -/
inductive Mark where
  | keyword (k : Keyword)
  | opening
  | closing
deriving DecidableEq

def Token.mark? (t : Token) : Option Mark :=
  match t.kind with
  | .keyword k => some (.keyword k)
  | _ =>
    if t.isSeparator '\x7b' then some .opening
    else if t.isSeparator '\x7d' then some .closing
    else none

/-- The keyword that starts a statement. -/
def Stmt.keyword : Stmt → Keyword
  | .exit _ => .exit
  | .printText _ | .printValue _ => .print
  | .declare _ _ => .declare
  | .assign _ _ => .assign
  | .branch _ _ _ => .branch
  | .loop _ _ => .loop
  | .call _ _ => .call
  | .processor _ _ _ => .processor

mutual

/-- The keywords and braces behind the keyword of a statement. -/
def Stmt.innerMarks : Stmt → List Mark
  | .branch _ yes no => .opening :: (marks yes ++ .closing :: elseMarks no)
  | .loop _ body => .opening :: (marks body ++ [.closing])
  | .processor _ _ body => .opening :: (marks body ++ [.closing])
  | .exit _ | .printText _ | .printValue _ | .declare _ _ | .assign _ _ | .call _ _ => []

/-- The keywords and braces of statements, from the first statement to the last. -/
def marks : List Stmt → List Mark
  | [] => []
  | s :: ss => .keyword s.keyword :: (s.innerMarks ++ marks ss)

def elseMarks : Option (List Stmt) → List Mark
  | none => []
  | some ss => .keyword .otherwise :: .opening :: (marks ss ++ [.closing])

end

def Phrase.marks : Phrase → List Mark
  | .stmts ss => ImpAsm.marks ss
  | .block ss => .opening :: (ImpAsm.marks ss ++ [.closing])
  | .after _ s => s.innerMarks

/-- The keywords and braces among lexemes. -/
def lexemeMarks (ls : List Lexeme) : List Mark := ls.filterMap fun l => l.token.mark?

@[simp] theorem lexemeMarks_append (ls ms : List Lexeme) :
    lexemeMarks (ls ++ ms) = lexemeMarks ls ++ lexemeMarks ms := List.filterMap_append

theorem lexemeMarks_cons (l : Lexeme) (ls : List Lexeme) :
    lexemeMarks (l :: ls) = l.token.mark?.toList ++ lexemeMarks ls := by
  cases h : l.token.mark? <;> simp [lexemeMarks, h]

theorem mark?_of_isKeyword {t : Token} {k : Keyword} (h : t.isKeyword k) :
    t.mark? = some (.keyword k) := by
  have hk : t.kind = .keyword k := by simpa [Token.isKeyword] using h
  simp [Token.mark?, hk]

theorem mark?_of_isSeparator {t : Token} {c : Char} (h : t.isSeparator c) :
    t.mark? = if c = '\x7b' then some .opening else if c = '\x7d' then some .closing else none := by
  have hk := Derives.kind_of_isSeparator h
  have hc : t.text.toList.head? = some c := by simpa [Token.isSeparator, hk] using h
  simp [Token.mark?, Token.isSeparator, hk, hc]

theorem mark?_of_kind {t : Token} (h : t.kind ∈ [.operator, .int, .bool, .ident, .str]) :
    t.mark? = none := by
  simp only [List.mem_cons, List.not_mem_nil, or_false] at h
  rcases h with h | h | h | h | h <;> simp [Token.mark?, Token.isSeparator, h]

theorem IsSeparator.lexemeMarks {c : Char} {ls : List Lexeme} (h : IsSeparator c ls) :
    lexemeMarks ls =
      if c = '\x7b' then [.opening] else if c = '\x7d' then [.closing] else [] := by
  obtain ⟨t, rfl, ht⟩ := h
  rw [lexemeMarks_cons, mark?_of_isSeparator ht]
  split
  · rfl
  · split <;> rfl

theorem IsName.lexemeMarks {ls : List Lexeme} {x : String} (h : IsName ls x) :
    lexemeMarks ls = [] := by
  obtain ⟨t, rfl, ht, _⟩ := h
  simp [ImpAsm.lexemeMarks, mark?_of_kind (t := t) (by simp [ht])]

theorem IsEquals.lexemeMarks {ls : List Lexeme} (h : IsEquals ls) (hp : ∀ l ∈ ls, l.Proper) :
    lexemeMarks ls = [] := by
  obtain ⟨l, rfl, ho⟩ := h
  have hk := Derives.kind_of_operator? (hp l (by simp)) ho
  simp [ImpAsm.lexemeMarks, mark?_of_kind (t := l.token) (by simp [hk])]

theorem Readable.lexemeMarks {ls : List Lexeme} {e : Expr} (h : Readable ls e)
    (hp : ∀ l ∈ ls, l.Proper) : lexemeMarks ls = [] := by
  obtain ⟨n, hd, _⟩ := h
  apply List.filterMap_eq_nil_iff.mpr
  intro l hl
  rcases hd.lexeme_kinds hp l hl with hk | hk | hk
  · exact mark?_of_kind (List.mem_append_left [TokenKind.str] hk)
  · exact mark?_of_isSeparator hk
  · exact mark?_of_isSeparator hk

theorem CommaSeparated.lexemeMarks {α : Type} {R : List Lexeme → α → Prop} {ls : List Lexeme}
    {as : List α} (h : CommaSeparated R ls as)
    (hR : ∀ {ms a}, R ms a → (∀ l ∈ ms, l.Proper) → lexemeMarks ms = [])
    (hp : ∀ l ∈ ls, l.Proper) : lexemeMarks ls = [] := by
  induction h with
  | nil => rfl
  | one h => exact hR h hp
  | @cons ls ms a b as t h ht hs ih =>
    rw [lexemeMarks_append, lexemeMarks_cons, mark?_of_isSeparator ht,
      hR h fun l hl => hp l (by simp [hl]), ih fun l hl => hp l (by simp [hl])]
    rfl

/-- The keywords and braces of a program in its text are those of its statements: each statement is
there once, in its order and its block. -/
theorem Spells.lexemeMarks {ls : List Lexeme} {ph : Phrase} (h : Spells Readable ls ph)
    (hp : ∀ l ∈ ls, l.Proper) :
    lexemeMarks ls = ph.marks ∧ ∀ k s, ph = .after k s → k = s.keyword := by
  induction h with
  | nil => exact ⟨rfl, by simp⟩
  | @cons k t s ss ls ms hk h hs ih ihs =>
    simp only [List.mem_cons, List.mem_append, or_imp, forall_and] at hp
    obtain ⟨hm, hs⟩ := ih hp.2.1
    obtain rfl := hs k s rfl
    refine ⟨?_, by simp⟩
    rw [lexemeMarks_cons, mark?_of_isKeyword hk, lexemeMarks_append, hm, (ihs hp.2.2).1]
    rfl
  | block ha h hb ih =>
    simp only [List.mem_append, or_imp, forall_and] at hp
    refine ⟨?_, by simp⟩
    rw [lexemeMarks_append, lexemeMarks_append, ha.lexemeMarks, hb.lexemeMarks, (ih hp.2.1).1]
    rfl
  | exit ha he hb hc =>
    simp only [List.mem_append, or_imp, forall_and] at hp
    refine ⟨?_, by simp [Stmt.keyword]⟩
    simp [ha.lexemeMarks, he.lexemeMarks hp.2.1, hb.lexemeMarks, hc.lexemeMarks, Phrase.marks,
      Stmt.innerMarks]
  | printText ha ht hb hc =>
    refine ⟨?_, by simp [Stmt.keyword]⟩
    simp [lexemeMarks_cons, ha.lexemeMarks, mark?_of_kind, ht, hb.lexemeMarks, hc.lexemeMarks,
      Phrase.marks, Stmt.innerMarks]
  | printValue ha he hb hc =>
    simp only [List.mem_append, or_imp, forall_and] at hp
    refine ⟨?_, by simp [Stmt.keyword]⟩
    simp [ha.lexemeMarks, he.lexemeMarks hp.2.1, hb.lexemeMarks, hc.lexemeMarks, Phrase.marks,
      Stmt.innerMarks]
  | declare hx ha he hc =>
    simp only [List.mem_append, or_imp, forall_and] at hp
    refine ⟨?_, by simp [Stmt.keyword]⟩
    simp [hx.lexemeMarks, ha.lexemeMarks hp.2.1, he.lexemeMarks hp.2.2.1, hc.lexemeMarks,
      Phrase.marks, Stmt.innerMarks]
  | assign hx ha he hc =>
    simp only [List.mem_append, or_imp, forall_and] at hp
    refine ⟨?_, by simp [Stmt.keyword]⟩
    simp [hx.lexemeMarks, ha.lexemeMarks hp.2.1, he.lexemeMarks hp.2.2.1, hc.lexemeMarks,
      Phrase.marks, Stmt.innerMarks]
  | branch ha he hb hy ih =>
    simp only [List.mem_append, or_imp, forall_and] at hp
    refine ⟨?_, by simp [Stmt.keyword]⟩
    simp [ha.lexemeMarks, he.lexemeMarks hp.2.1, hb.lexemeMarks, (ih hp.2.2.2).1, Phrase.marks,
      Stmt.innerMarks, elseMarks]
  | branchElse ha he hb hy ht hn ihy ihn =>
    simp only [List.mem_append, List.mem_cons, or_imp, forall_and] at hp
    refine ⟨?_, by simp [Stmt.keyword]⟩
    simp [lexemeMarks_cons, ha.lexemeMarks, he.lexemeMarks hp.2.1, hb.lexemeMarks,
      (ihy hp.2.2.2.1).1, mark?_of_isKeyword ht, (ihn hp.2.2.2.2.2).1, Phrase.marks,
      Stmt.innerMarks, elseMarks]
  | loop ha he hb hy ih =>
    simp only [List.mem_append, or_imp, forall_and] at hp
    refine ⟨?_, by simp [Stmt.keyword]⟩
    simp [ha.lexemeMarks, he.lexemeMarks hp.2.1, hb.lexemeMarks, (ih hp.2.2.2).1, Phrase.marks,
      Stmt.innerMarks]
  | call hf ha he hb hc =>
    simp only [List.mem_append, or_imp, forall_and] at hp
    refine ⟨?_, by simp [Stmt.keyword]⟩
    simp [hf.lexemeMarks, ha.lexemeMarks, he.lexemeMarks Readable.lexemeMarks hp.2.2.1,
      hb.lexemeMarks, hc.lexemeMarks, Phrase.marks, Stmt.innerMarks]
  | processor hf ha he hb hy ih =>
    simp only [List.mem_append, or_imp, forall_and] at hp
    refine ⟨?_, by simp [Stmt.keyword]⟩
    simp [hf.lexemeMarks, ha.lexemeMarks, he.lexemeMarks (fun h _ => h.lexemeMarks) hp.2.2.1,
      hb.lexemeMarks, (ih hp.2.2.2.2).1, Phrase.marks, Stmt.innerMarks]

/-- The keywords and braces of tokens are those of their lexemes. -/
theorem lexemeMarks_lexemes (ts : List Token) :
    lexemeMarks (lexemes ts) = ts.filterMap Token.mark? := by
  have htokens (ls : List Lexeme) (hp : ∀ l ∈ ls, l.Proper) :
      (ls.flatMap Lexeme.tokens).filterMap Token.mark? = lexemeMarks ls := by
    induction ls with
    | nil => rfl
    | cons l ls ih =>
      have hl : l.second.toList.filterMap Token.mark? = [] := by
        apply List.filterMap_eq_nil_iff.mpr
        intro t ht
        apply mark?_of_kind
        simp [(hp l (by simp) t (by simpa using ht)).2]
      rw [List.flatMap_cons, List.filterMap_append, ih fun m hm => hp m (by simp [hm]),
        lexemeMarks_cons, Lexeme.tokens, List.filterMap_cons, hl]
      cases l.token.mark? <;> rfl
  rw [← htokens _ (lexemes_proper ts), flatMap_tokens_lexemes]

/-- The last lexeme is a separator. -/
def EndsInSeparator (ls : List Lexeme) : Prop := ∃ l ∈ ls.getLast?, l.token.kind = .separator

theorem EndsInSeparator.append {ms : List Lexeme} (h : EndsInSeparator ms) (ls : List Lexeme) :
    EndsInSeparator (ls ++ ms) := by
  obtain ⟨l, hl, hk⟩ := h
  rw [Option.mem_def] at hl
  exact ⟨l, by simp [List.getLast?_append, hl], hk⟩

theorem IsSeparator.endsInSeparator {c : Char} {ls : List Lexeme} (h : IsSeparator c ls) :
    EndsInSeparator ls := by
  obtain ⟨t, rfl, ht⟩ := h
  exact ⟨⟨t, none⟩, rfl, Derives.kind_of_isSeparator ht⟩

/-- Every part of a program ends in a separator, except an empty sequence of statements. -/
theorem Spells.endsInSeparator {E : List Lexeme → Expr → Prop} {ls : List Lexeme} {ph : Phrase}
    (h : Spells E ls ph) : (ls = [] ∧ ph = .stmts []) ∨ EndsInSeparator ls := by
  induction h with
  | nil => exact .inl ⟨rfl, rfl⟩
  | @cons k t s ss ls ms hk h hs ih ihs =>
    have hls : EndsInSeparator ls := ih.resolve_left (by simp)
    rcases ihs with ⟨rfl, _⟩ | hms
    · rw [List.append_nil]
      exact .inr (hls.append [_])
    · exact .inr ((hms.append ls).append [_])
  | block ha h hb ih => exact .inr ((hb.endsInSeparator.append _).append _)
  | exit ha he hb hc => exact .inr (((hc.endsInSeparator.append _).append _).append _)
  | @printText t as bs cs ha ht hb hc =>
    exact .inr ((((hc.endsInSeparator.append bs).append [_])).append as)
  | printValue ha he hb hc => exact .inr (((hc.endsInSeparator.append _).append _).append _)
  | declare hx ha he hc => exact .inr (((hc.endsInSeparator.append _).append _).append _)
  | assign hx ha he hc => exact .inr (((hc.endsInSeparator.append _).append _).append _)
  | branch ha he hb hy ih =>
    exact .inr ((((ih.resolve_left (by simp)).append _).append _).append _)
  | @branchElse e yes no t as ls bs ys ns ha he hb hy ht hn ihy ihn =>
    have hns : EndsInSeparator ns := ihn.resolve_left (by simp)
    exact .inr (((((hns.append [⟨t, none⟩]).append ys).append bs).append ls).append as)
  | loop ha he hb hy ih =>
    exact .inr ((((ih.resolve_left (by simp)).append _).append _).append _)
  | call hf ha he hb hc =>
    exact .inr ((((hc.endsInSeparator.append _).append _).append _).append _)
  | processor hp ha he hb hy ih =>
    exact .inr (((((ih.resolve_left (by simp)).append _).append _).append _).append _)

end ImpAsm

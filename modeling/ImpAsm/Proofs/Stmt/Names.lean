import ImpAsm.Proofs.Expr.Names
import ImpAsm.Proofs.Stmt.Acceptance
import ImpAsm.Proofs.Stmt.Scope

namespace ImpAsm

mutual

/-- The names of the variables and functions in a statement; processor bodies count. -/
def Stmt.names : Stmt → List String
  | .exit e => e.names
  | .printText _ => []
  | .printValue e => e.names
  | .declare x e => x :: e.names
  | .assign x e => x :: e.names
  | .branch e yes no => e.names ++ (stmtsNames yes ++ elseNames no)
  | .loop e body => e.names ++ stmtsNames body
  | .call f args => f :: args.flatMap Expr.names
  | .processor _ _ body => stmtsNames body

def stmtsNames : List Stmt → List String
  | [] => []
  | s :: ss => s.names ++ stmtsNames ss

def elseNames : Option (List Stmt) → List String
  | none => []
  | some ss => stmtsNames ss

end

mutual

/-- The functions that a program calls are among its names. -/
theorem Stmt.mem_externals {f : String} :
    ∀ {s : Symbols} (st : Stmt), f ∈ (st.collect s).externals →
    f ∈ s.externals ∨ f ∈ st.names
  | _, .exit _, h => .inl h
  | _, .printText _, h => .inl h
  | _, .printValue _, h => .inl h
  | _, .declare _ _, h => .inl h
  | _, .assign _ _, h => .inl h
  | _, .branch e yes no, h => by
    simp only [Stmt.names, List.mem_append]
    rcases mem_externals_collectElse no h with h | h
    · exact (mem_externals_collectAll yes h).imp_right fun h => .inr (.inl h)
    · exact .inr (.inr (.inr h))
  | _, .loop e body, h => by
    simp only [Stmt.names, List.mem_append]
    exact (mem_externals_collectAll body h).imp_right .inr
  | _, .call g args, h => by
    simp only [Stmt.collect, Symbols.addExternal] at h
    split at h
    · exact .inl h
    · rcases List.mem_append.mp h with h | h
      · exact .inl h
      · exact .inr (by simp [Stmt.names, List.mem_singleton.mp h])
  | _, .processor _ _ body, h => mem_externals_collectAll body h

theorem mem_externals_collectAll {f : String} : ∀ {s : Symbols} (ss : List Stmt),
    f ∈ (collectAll s ss).externals → f ∈ s.externals ∨ f ∈ stmtsNames ss
  | _, [], h => .inl h
  | _, st :: ss, h => by
    simp only [stmtsNames, List.mem_append]
    rcases mem_externals_collectAll ss h with h | h
    · exact (Stmt.mem_externals st h).imp_right .inl
    · exact .inr (.inr h)

theorem mem_externals_collectElse {f : String} : ∀ {s : Symbols} (no : Option (List Stmt)),
    f ∈ (collectElse s no).externals → f ∈ s.externals ∨ f ∈ elseNames no
  | _, none, h => .inl h
  | _, some ss, h => mem_externals_collectAll ss h

end

theorem mem_externals {p : Program} {f : String} (h : f ∈ (Program.symbols p).externals) :
    f ∈ stmtsNames p := by
  rcases mem_externals_collectAll p h with h | h
  · simp at h
  · exact h

mutual

theorem Stmt.mem_names_of_lets {l : String × Expr} : ∀ (s : Stmt), l ∈ s.lets → l.1 ∈ s.names
  | .exit e, h => by simp [Stmt.lets] at h
  | .printText text, h => by simp [Stmt.lets] at h
  | .printValue e, h => by simp [Stmt.lets] at h
  | .declare x e, h => by
    obtain rfl := List.mem_singleton.mp h
    simp [Stmt.names]
  | .assign x e, h => by simp [Stmt.lets] at h
  | .branch e yes no, h => by
    simp only [Stmt.names, List.mem_append]
    rcases List.mem_append.mp h with h | h
    · exact .inr (.inl (mem_names_of_stmtsLets yes h))
    · exact .inr (.inr (mem_names_of_elseLets no h))
  | .loop e body, h => by
    simp only [Stmt.names, List.mem_append]
    exact .inr (mem_names_of_stmtsLets body h)
  | .call f args, h => by simp [Stmt.lets] at h
  | .processor p params body, h => mem_names_of_stmtsLets body h

theorem mem_names_of_stmtsLets {l : String × Expr} : ∀ (ss : List Stmt), l ∈ stmtsLets ss →
    l.1 ∈ stmtsNames ss
  | [], h => by simp [stmtsLets] at h
  | s :: ss, h => by
    simp only [stmtsNames, List.mem_append]
    rcases List.mem_append.mp h with h | h
    · exact .inl (Stmt.mem_names_of_lets s h)
    · exact .inr (mem_names_of_stmtsLets ss h)

theorem mem_names_of_elseLets {l : String × Expr} : ∀ (no : Option (List Stmt)), l ∈ elseLets no →
    l.1 ∈ elseNames no
  | none, h => by simp [elseLets] at h
  | some ss, h => mem_names_of_stmtsLets ss h

end

/-- The variables of the data section are names of the program. -/
theorem mem_slots {p : Program} {v : String × Int32} (h : v ∈ (Program.symbols p).vars.slots) :
    v.1 ∈ stmtsNames p := by
  have hmem : v.1 ∈ p.vars := by
    refine Decidable.byContradiction fun hnot => ?_
    have hvalue := initialValue?_symbols p v.1
    rw [if_neg hnot, Variables.initialValue?, Option.map_eq_none_iff, List.find?_eq_none] at hvalue
    exact hvalue v h (by simp)
  obtain ⟨l, hl, hlv⟩ := List.mem_map.mp hmem
  exact hlv ▸ mem_names_of_stmtsLets p hl

def Phrase.names : Phrase → List String
  | .stmts ss => stmtsNames ss
  | .block ss => stmtsNames ss
  | .after _ s => s.names

/-- The names among lexemes. -/
def lexemeNames (ls : List Lexeme) : List String :=
  ls.filterMap fun l => if l.token.kind = .ident then some l.token.text else none

@[simp] theorem lexemeNames_append (ls ms : List Lexeme) :
    lexemeNames (ls ++ ms) = lexemeNames ls ++ lexemeNames ms := List.filterMap_append

theorem lexemeNames_ident {t : Token} (h : t.kind = .ident) :
    lexemeNames [⟨t, none⟩] = [t.text] := by
  simp [lexemeNames, h]

theorem mem_lexemeNames_cons {x : String} {ls : List Lexeme} (h : x ∈ lexemeNames ls) (l : Lexeme) :
    x ∈ lexemeNames (l :: ls) := by
  have happend := lexemeNames_append [l] ls
  rw [List.singleton_append] at happend
  rw [happend]
  exact List.mem_append_right _ h

theorem Derives.mem_names {k n : Nat} {ls : List Lexeme} {e : Expr} (h : Derives k ls e n) :
    ∀ x ∈ e.names, x ∈ lexemeNames ls := by
  induction h with
  | tighter _ _ ih => exact ih
  | chain _ _ _ _ ihl ihr =>
    intro x hx
    rw [lexemeNames_append, List.mem_append]
    rcases List.mem_append.mp hx with hx | hx
    · exact .inl (ihl x hx)
    · exact .inr (mem_lexemeNames_cons (ihr x hx) _)
  | signed | num | bool => simp [Expr.names]
  | unary _ _ _ ih => exact fun x hx => mem_lexemeNames_cons (ih x hx) _
  | ident hk =>
    rw [lexemeNames_ident hk]
    exact fun x hx => hx
  | parens _ _ _ ih =>
    intro x hx
    refine mem_lexemeNames_cons ?_ _
    rw [lexemeNames_append]
    exact List.mem_append_left _ (ih x hx)

theorem Readable.mem_names {ls : List Lexeme} {e : Expr} (h : Readable ls e) :
    ∀ x ∈ e.names, x ∈ lexemeNames ls := by
  obtain ⟨n, hd, _⟩ := h
  exact hd.mem_names

theorem IsName.mem {ls : List Lexeme} {x : String} (h : IsName ls x) : x ∈ lexemeNames ls := by
  obtain ⟨t, rfl, ht, rfl⟩ := h
  simp [lexemeNames_ident ht]

theorem CommaSeparated.mem_names {ls : List Lexeme} {args : List Expr}
    (h : CommaSeparated Readable ls args) : ∀ x ∈ args.flatMap Expr.names, x ∈ lexemeNames ls := by
  induction h with
  | nil => simp
  | one he =>
    intro x hx
    exact he.mem_names x (by simpa using hx)
  | cons he _ _ ih =>
    intro x hx
    rw [lexemeNames_append, List.mem_append]
    rw [List.flatMap_cons, List.mem_append] at hx
    rcases hx with hx | hx
    · exact .inl (he.mem_names x hx)
    · exact .inr (mem_lexemeNames_cons (ih x hx) _)

/-- The names of a program are names of its text. -/
theorem Spells.mem_names {ls : List Lexeme} {p : Phrase} (h : Spells Readable ls p) :
    ∀ x ∈ p.names, x ∈ lexemeNames ls := by
  induction h with
  | nil => simp [Phrase.names, stmtsNames]
  | cons _ _ _ ih ihs =>
    intro x hx
    refine mem_lexemeNames_cons ?_ _
    rw [lexemeNames_append, List.mem_append]
    rw [Phrase.names, stmtsNames, List.mem_append] at hx
    exact hx.imp (ih x) (ihs x)
  | block _ _ _ ih =>
    intro x hx
    simp only [lexemeNames_append, List.mem_append]
    exact .inr (.inl (ih x hx))
  | exit _ he _ _ | printValue _ he _ _ =>
    intro x hx
    simp only [lexemeNames_append, List.mem_append]
    exact .inr (.inl (he.mem_names x hx))
  | printText => simp [Phrase.names, Stmt.names]
  | declare hx _ he _ | assign hx _ he _ =>
    intro y hy
    simp only [lexemeNames_append, List.mem_append]
    rcases List.mem_cons.mp hy with rfl | hy
    · exact .inl hx.mem
    · exact .inr (.inr (.inl (he.mem_names y hy)))
  | branch _ he _ _ ihy =>
    intro x hx
    simp only [lexemeNames_append, List.mem_append]
    simp only [Phrase.names, Stmt.names, elseNames, List.append_nil, List.mem_append] at hx
    rcases hx with hx | hx
    · exact .inr (.inl (he.mem_names x hx))
    · exact .inr (.inr (.inr (ihy x hx)))
  | branchElse _ he _ _ _ _ ihy ihn =>
    intro x hx
    simp only [lexemeNames_append, List.mem_append]
    simp only [Phrase.names, Stmt.names, elseNames, List.mem_append] at hx
    rcases hx with hx | hx | hx
    · exact .inr (.inl (he.mem_names x hx))
    · exact .inr (.inr (.inr (.inl (ihy x hx))))
    · exact .inr (.inr (.inr (.inr (mem_lexemeNames_cons (ihn x hx) _))))
  | loop _ he _ _ ihy =>
    intro x hx
    simp only [lexemeNames_append, List.mem_append]
    simp only [Phrase.names, Stmt.names, List.mem_append] at hx
    rcases hx with hx | hx
    · exact .inr (.inl (he.mem_names x hx))
    · exact .inr (.inr (.inr (ihy x hx)))
  | call hf _ he _ _ =>
    intro x hx
    simp only [lexemeNames_append, List.mem_append]
    rcases List.mem_cons.mp hx with rfl | hx
    · exact .inl hf.mem
    · exact .inr (.inr (.inl (he.mem_names x hx)))
  | processor _ _ _ _ _ ihy =>
    intro x hx
    simp only [lexemeNames_append, List.mem_append]
    exact .inr (.inr (.inr (.inr (ihy x hx))))

/-- The names of a program that is read are words. -/
theorem isWord_names {s : String} {ts : List Token} {p : Program} (hs : tokenize s = .ok ts)
    (hp : parse ts = .ok p) : ∀ x ∈ stmtsNames p, IsWord x := by
  obtain ⟨us, q, rfl, hus⟩ := tokenize_getLast hs
  obtain ⟨hspells, _⟩ := (parse_concat_eq_ok (t := ⟨.eof, "", q⟩) rfl hus).mp hp
  intro x hx
  have hmem := hspells.mem_names x hx
  obtain ⟨l, hl, hname⟩ := List.mem_filterMap.mp hmem
  have htoken : l.token ∈ us := by
    rw [← flatMap_tokens_lexemes us]
    exact List.mem_flatMap.mpr ⟨l, hl, by simp [Lexeme.tokens]⟩
  split at hname
  · next hkind =>
    obtain rfl := Option.some.inj hname
    exact (tokenize_ident hs l.token (List.mem_append_left _ htoken) hkind).1
  · simp at hname

end ImpAsm

import ImpAsm.Proofs.Compilation.Layout
import ImpAsm.Proofs.Token.Locality

namespace ImpAsm

/-- The tokens of a text are worded alike wherever it stands. -/
theorem sameWording_of_shifted {n : Nat} {ts us : List Token}
    (h : List.Forall₂ (Token.Like (Shifted n)) ts us) : SameWording ts us := by
  have hoffset {i : Nat} {t u : Token} (ht : ts[i]? = some t) (hu : us[i]? = some u) :
      u.position.offset = t.position.offset + n := by
    obtain ⟨hi, rfl⟩ := List.getElem?_eq_some_iff.mp ht
    obtain ⟨hi', rfl⟩ := List.getElem?_eq_some_iff.mp hu
    exact (h.get hi hi').related
  constructor
  · rw [← List.forall₂_eq_eq_eq, List.forall₂_map_left_iff, List.forall₂_map_right_iff]
    exact h.imp fun t u htu => Prod.ext htu.kind htu.text
  · intro i a b a' b' ha hb ha' hb' _ _
    have hfirst := hoffset ha ha'
    have hsecond := hoffset hb hb'
    omega

theorem Spells.append {E : List Lexeme → Expr → Prop} {ls ms : List Lexeme} {p q : Program}
    (h : Spells E ls (.stmts p)) (h' : Spells E ms (.stmts q)) :
    Spells E (ls ++ ms) (.stmts (p ++ q)) := by
  induction p generalizing ls with
  | nil =>
    cases h with
    | nil => exact h'
  | cons s p ih =>
    cases h with
    | @cons k t s ss as bs hk hs hrest =>
      rw [List.cons_append, List.append_assoc]
      exact .cons hk hs (ih hrest)

theorem blockDepth_append (p q : Program) :
    blockDepth (p ++ q) = max (blockDepth p) (blockDepth q) := by
  induction p with
  | nil => simp [blockDepth]
  | cons s p ih => rw [List.cons_append, blockDepth, blockDepth, ih, Nat.max_assoc]

/-- The last token of a program is a separator. -/
theorem IsProgram.last {us : List Token} {p : Program} (h : IsProgram us p) :
    ∀ t ∈ us.getLast?, t.kind = .separator := by
  intro t ht
  rcases h.1.endsInSeparator with ⟨hnil, _⟩ | ⟨l, hl, hk⟩
  · have hus := flatMap_tokens_lexemes us
    rw [hnil] at hus
    simp [← hus] at ht
  · obtain ⟨ls, hls⟩ := List.getLast?_eq_some_iff.mp hl
    have hsecond : l.second = none :=
      (lexemes_proper us l (List.mem_of_getLast? hl)).second_eq_none (by simp [hk])
    have hus := flatMap_tokens_lexemes us
    rw [hls, List.flatMap_append, List.flatMap_singleton, Lexeme.tokens, hsecond] at hus
    obtain rfl : l.token = t := by simpa [← hus] using ht
    exact hk

/-- The tokens of a program followed by those of another one are both programs in a row. -/
theorem IsProgram.append {us vs : List Token} {p q : Program} (h : IsProgram us p)
    (h' : IsProgram vs q) : IsProgram (us ++ vs) (p ++ q) := by
  have hlexemes : lexemes (us ++ vs) = lexemes us ++ lexemes vs := by
    apply lexemes_append
    intro a ha b _ hj
    have hk := h.last a ha
    rw [(Token.kind_of_joins hj).1] at hk
    simp at hk
  refine ⟨?_, ?_⟩
  · rw [hlexemes]
    exact h.1.append h'.1
  · rw [blockDepth_append]
    exact Nat.max_le.mpr ⟨h.2, h'.2⟩

/-- A text that is a program is the same program wherever it stands. -/
theorem scan_isProgram {s : String} {ts : List Token} {p : Program} (h : tokenize s = .ok ts)
    (hp : parse ts = .ok p) (q : Position) :
    ∃ us r, scan q s.toList = ⟨us ++ [⟨.eof, "", r⟩], none⟩ ∧ (∀ u ∈ us, u.kind ≠ .eof) ∧
      IsProgram us p := by
  have hshift : q.offset = Position.start.offset + q.offset := by simp [Position.start]
  obtain ⟨hlike, hfault⟩ := scan_shifted hshift s.toList
  rw [tokenize_eq_ok.mp h] at hlike hfault
  have hnone : (scan q s.toList).fault = none := hfault.mp rfl
  obtain ⟨us, r, hus, hends⟩ := scan_getLast hnone
  have hparse : parse (us ++ [⟨.eof, "", r⟩]) = .ok p := by
    rw [← hus]
    rcases (sameWording_of_shifted hlike).parse with ⟨p', hp', hq'⟩ | ⟨e, e', he, _, _⟩
    · rw [hq', ← hp', hp]
    · simp [hp] at he
  refine ⟨us, r, ?_, hends, (parse_concat_eq_ok rfl hends).mp hparse⟩
  rw [← hus, ← hnone]

/-- Two texts that are programs, one behind the other with a new line between them, are the
statements of the first program followed by those of the second one. -/
theorem parse_concatenation {s₁ s₂ : String} {ts₁ ts₂ : List Token} {p₁ p₂ : Program}
    (h₁ : tokenize s₁ = .ok ts₁) (hp₁ : parse ts₁ = .ok p₁) (h₂ : tokenize s₂ = .ok ts₂)
    (hp₂ : parse ts₂ = .ok p₂) :
    ∃ ts, tokenize (s₁ ++ "\n" ++ s₂) = .ok ts ∧ parse ts = .ok (p₁ ++ p₂) := by
  obtain ⟨us, r, hus, hends, hfirst⟩ := scan_isProgram h₁ hp₁ .start
  obtain ⟨vs, r', hvs, hends', hsecond⟩ :=
    scan_isProgram h₂ hp₂ (Position.start.after (s₁.toList ++ ['\n']))
  -- the first text loses its end of input and keeps the tokens before it
  have hfault : (scan .start s₁.toList).fault = none := by rw [hus]
  obtain ⟨ws, q, hws, happend⟩ := scan_append hfault
  rw [hus] at hws
  obtain ⟨rfl, _⟩ := List.append_inj' hws rfl
  refine ⟨us ++ (vs ++ [⟨.eof, "", r'⟩]), ?_, ?_⟩
  · have hscan := happend s₂.toList
    rw [hvs] at hscan
    rw [tokenize_eq_ok, String.toList_append, String.toList_append, List.append_assoc]
    exact hscan
  · rw [← List.append_assoc]
    refine (parse_concat_eq_ok rfl ?_).mpr (hfirst.append hsecond)
    intro u hu
    exact (List.mem_append.mp hu).elim (hends u) (hends' u)

/-- The tokens of `if(x){} // else`, a branch whose remark is not its other side. -/
def remarkTokens : List Token :=
  [⟨.keyword .branch, "if", ⟨0, 1, 1⟩⟩, ⟨.separator, "(", ⟨2, 1, 3⟩⟩, ⟨.ident, "x", ⟨3, 1, 4⟩⟩,
    ⟨.separator, ")", ⟨4, 1, 5⟩⟩, ⟨.separator, "\x7b", ⟨5, 1, 6⟩⟩, ⟨.separator, "\x7d", ⟨6, 1, 7⟩⟩,
    ⟨.eof, "", ⟨15, 1, 16⟩⟩]

def exitTokens : List Token :=
  [⟨.keyword .exit, "exit", ⟨0, 1, 1⟩⟩, ⟨.separator, "(", ⟨4, 1, 5⟩⟩, ⟨.int, "0", ⟨5, 1, 6⟩⟩,
    ⟨.separator, ")", ⟨6, 1, 7⟩⟩, ⟨.separator, ";", ⟨7, 1, 8⟩⟩, ⟨.eof, "", ⟨8, 1, 9⟩⟩]

theorem concatenation_after_remark :
    ∃ ts, tokenize ("if(x)\x7b\x7d // else" ++ "\n" ++ "exit(0);") = .ok ts ∧
      parse ts = .ok [.branch (.ident "x") [] none, .exit (.num 0)] := by
  have h₁ : tokenize "if(x)\x7b\x7d // else" = .ok remarkTokens := by cbv
  have hp₁ : parse remarkTokens = .ok [.branch (.ident "x") [] none] := by cbv
  have h₂ : tokenize "exit(0);" = .ok exitTokens := by cbv
  have hp₂ : parse exitTokens = .ok [.exit (.num 0)] := by cbv
  exact parse_concatenation h₁ hp₁ h₂ hp₂

end ImpAsm

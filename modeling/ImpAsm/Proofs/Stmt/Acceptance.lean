import ImpAsm.Compilation
import ImpAsm.Proofs.Stmt.Outline
import ImpAsm.Proofs.Stmt.Programs
import ImpAsm.Proofs.Token.Scanning

namespace ImpAsm

theorem parse_eq_ok {ts : List Token} {p : Program} :
    parse ts = .ok p ↔ ∃ t, Parse.program.run ⟨.ofTokens ts 0, #[]⟩ = .ok p t := by
  unfold parse parseTraced parseFrom
  cases Parse.program.run ⟨.ofTokens ts 0, #[]⟩ with
  | error e t => simp
  | ok q t => simp

variable {us : List Token} {t : Token}

theorem lexemes_concat_of_not_operator (ht : t.kind ≠ .operator) :
    lexemes (us ++ [t]) = lexemes us ++ [⟨t, none⟩] := by
  rw [lexemes_append]
  · rfl
  · intro a _ b hb hj
    obtain rfl : t = b := by simpa using hb
    exact ht (Token.kind_of_joins hj).2

/-- Statements that reach the end of the input are all the lexemes before it. -/
theorem spans_atEnd_iff {d : Cursor} {ls : List Lexeme} {p : Program} (ht : t.kind = .eof)
    (hus : ∀ u ∈ us, u.kind ≠ .eof) (hp : Spells Readable ls (.stmts p))
    (hsp : (Cursor.ofTokens (us ++ [t]) 0).Spans ls d) (hd : d.atEnd) : ls = lexemes us := by
  have hr : ls ++ d.rest = lexemes us ++ [⟨t, none⟩] := by
    rw [← hsp.rest, ← lexemes_concat_of_not_operator (by simp [ht])]
    rfl
  have hlexemes : ∀ l ∈ lexemes us, l.token.kind ≠ .eof := by
    intro l hl
    apply hus
    rw [← flatMap_tokens_lexemes us]
    exact List.mem_flatMap.mpr ⟨l, hl, by simp [Lexeme.tokens]⟩
  rcases List.append_eq_append_iff.mp hr with ⟨ms, hus', hrest⟩ | ⟨ms, hls, hrest⟩
  · cases ms with
    | nil => simpa using hus'.symm
    | cons m ms =>
      have hm : d.peek = m.token := by simp [Cursor.peek, hrest]
      have he : m.token.kind = .eof := by simpa [Cursor.atEnd, hm] using hd
      exact absurd he (hlexemes m (by simp [hus']))
  · cases ms with
    | nil => simpa using hls
    | cons m ms =>
      obtain ⟨rfl, hms⟩ : ⟨t, none⟩ = m ∧ [] = ms ++ d.rest := by simpa using hrest
      obtain ⟨rfl, _⟩ := List.append_eq_nil_iff.mp hms.symm
      rcases hp.endsInSeparator with ⟨hnil, _⟩ | ⟨l, hl, hk⟩
      · simp [hnil] at hls
      · obtain rfl : ⟨t, none⟩ = l := by simpa [hls] using hl
        simp [ht] at hk

theorem parse_concat_eq_ok {p : Program} (ht : t.kind = .eof) (hus : ∀ u ∈ us, u.kind ≠ .eof) :
    parse (us ++ [t]) = .ok p ↔ IsProgram us p := by
  rw [parse_eq_ok, Parse.run_program_iff (Cursor.ofTokens_proper _ 0)]
  constructor
  · intro h
    obtain ⟨ls, d, hsp, hp, hn, hd⟩ := h
    obtain rfl := spans_atEnd_iff ht hus hp hsp hd
    exact ⟨hp, hn⟩
  · intro h
    obtain ⟨hp, hn⟩ := h
    have hlex : lexemes (us ++ [t]) = lexemes us ++ [⟨t, none⟩] :=
      lexemes_concat_of_not_operator (by simp [ht])
    refine ⟨lexemes us, ⟨0 + totalWidth (lexemes us), [⟨t, none⟩], endToken (us ++ [t])⟩,
      ⟨hlex, rfl, rfl⟩, hp, hn, ?_⟩
    simp [Cursor.atEnd, Cursor.peek, ht]

/-- The tokens of a text are read as a program exactly if those before the end of input spell it in
the grammar, within the limits on nesting and height. There is no other program that they spell,
and its statements are those of the text: the keywords and braces of the program, each statement
followed by its blocks, are the ones of the text in their order. -/
theorem parse_iff_isProgram (s : String) (ts : List Token) (h : tokenize s = .ok ts) :
    ∃ us q, ts = us ++ [⟨.eof, "", q⟩] ∧ (∀ t ∈ us, t.kind ≠ .eof) ∧
      (∀ p, parse ts = .ok p ↔ IsProgram us p) ∧
      (∀ p p', IsProgram us p → IsProgram us p' → p = p') ∧
      ∀ p, IsProgram us p → us.filterMap Token.mark? = marks p := by
  obtain ⟨us, q, rfl, hus⟩ := tokenize_getLast h
  have hparse (p : Program) := parse_concat_eq_ok (t := ⟨.eof, "", q⟩) (p := p) rfl hus
  refine ⟨us, q, rfl, hus, hparse, ?_, ?_⟩
  · intro p p' hp hp'
    have hpp : Except.ok p = Except.ok p' := ((hparse p).mpr hp).symm.trans ((hparse p').mpr hp')
    simpa using hpp
  · intro p hp
    rw [← lexemeMarks_lexemes]
    exact (hp.1.lexemeMarks (lexemes_proper us)).1

/-- The tokens of `if(x){}else{exit(0);}`. -/
def elseTokens : List Token :=
  [⟨.keyword .branch, "if", ⟨0, 1, 1⟩⟩, ⟨.separator, "(", ⟨2, 1, 3⟩⟩, ⟨.ident, "x", ⟨3, 1, 4⟩⟩,
    ⟨.separator, ")", ⟨4, 1, 5⟩⟩, ⟨.separator, "\x7b", ⟨5, 1, 6⟩⟩,
    ⟨.separator, "\x7d", ⟨6, 1, 7⟩⟩, ⟨.keyword .otherwise, "else", ⟨7, 1, 8⟩⟩,
    ⟨.separator, "\x7b", ⟨11, 1, 12⟩⟩, ⟨.keyword .exit, "exit", ⟨12, 1, 13⟩⟩,
    ⟨.separator, "(", ⟨16, 1, 17⟩⟩, ⟨.int, "0", ⟨17, 1, 18⟩⟩, ⟨.separator, ")", ⟨18, 1, 19⟩⟩,
    ⟨.separator, ";", ⟨19, 1, 20⟩⟩, ⟨.separator, "\x7d", ⟨20, 1, 21⟩⟩, ⟨.eof, "", ⟨21, 1, 22⟩⟩]

theorem isProgram_else :
    IsProgram elseTokens.dropLast [.branch (.ident "x") [] (some [.exit (.num 0)])] := by
  have h : tokenize "if(x)\x7b\x7delse\x7bexit(0);\x7d" = .ok elseTokens := by cbv
  obtain ⟨us, q, hts, _, hparse, _⟩ := parse_iff_isProgram _ _ h
  have hus : elseTokens.dropLast = us := by rw [hts, List.dropLast_concat]
  rw [hus, ← hparse]
  cbv

end ImpAsm

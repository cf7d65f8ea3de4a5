import ImpAsm.Proofs.Compilation.Layout
import ImpAsm.Proofs.Token.Faults
import ImpAsm.Proofs.Token.Locality

namespace ImpAsm

/-- Nothing but white space. -/
structure Blanks (ds : List Char) : Prop where
  blank : ∀ d ∈ ds, isBlank d

namespace Blanks

variable {ds : List Char}

theorem drop (h : Blanks ds) (k : Nat) : Blanks (ds.drop k) :=
  ⟨fun d hd => h.blank d (List.mem_of_mem_drop hd)⟩

/-- White space makes no run of other characters longer. -/
theorem takeWhile_append (h : Blanks ds) {P : Char → Bool} (hP : ∀ d, isBlank d → P d = false)
    (cs : List Char) : (cs ++ ds).takeWhile P = cs.takeWhile P := by
  induction cs with
  | nil =>
    cases ds with
    | nil => rfl
    | cons d ds => simp [hP d (h.blank d (by simp))]
  | cons c cs ih =>
    by_cases hc : P c
    · simp [hc, ih]
    · simp [hc]

theorem head?_append_ne (h : Blanks ds) {c : Char} (hc : isBlank c = false) {cs : List Char}
    (hcs : cs.head? ≠ some c) : (cs ++ ds).head? ≠ some c := by
  cases cs with
  | nil =>
    intro hhead
    have hblank := h.blank c (List.mem_of_mem_head? hhead)
    simp [hc] at hblank
  | cons d cs => exact hcs

/-- A string that white space closes was closed before. -/
theorem not_mem_append (h : Blanks ds) {c : Char} (hc : isBlank c = false) {cs : List Char}
    (hcs : c ∉ cs) :
    c ∉ cs ++ ds := by
  intro hmem
  rcases List.mem_append.mp hmem with hmem | hmem
  · exact hcs hmem
  · have hblank := h.blank c hmem
    simp [hc] at hblank

/-- A text is what is left of it without the white space at its end, and that white space. -/
theorem of_trimEnd (cs : List Char) : ∃ ds, Blanks ds ∧ cs = trimEnd cs ++ ds := by
  refine ⟨(cs.reverse.takeWhile isBlank).reverse, ⟨?_⟩, ?_⟩
  · intro d hd
    exact List.mem_takeWhile_imp (List.mem_reverse.mp hd)
  · rw [trimEnd, ← List.reverse_append, List.takeWhile_append_dropWhile, List.reverse_reverse]

end Blanks

/-- White space behind a text mends no fault in it. -/
theorem firstPiece_append_blanks_error {ds : List Char} (h : Blanks ds) {c : Char} {cs : List Char}
    {fault : LexicalFault} (hf : firstPiece c cs = .error fault) :
    firstPiece c (cs ++ ds) = .error fault := by
  rw [firstPiece_eq_error] at hf ⊢
  cases fault with
  | unterminatedString => exact ⟨hf.1, h.not_mem_append rfl hf.2⟩
  | unknownCharacter d => exact hf

/-- White space behind a text leaves its pieces as they are. Only a remark that goes on to the end
of the text may go on into the white space. -/
theorem firstPiece_append_blanks {ds : List Char} (h : Blanks ds) {c : Char} {cs : List Char}
    {piece : Piece} {m : Nat} (hf : firstPiece c cs = .ok (piece, m)) :
    m ≤ cs.length ∧ ∃ k, firstPiece c (cs ++ ds) = .ok (piece, m + k) ∧
      (k = 0 ∨ piece = .gap ∧ m = cs.length) := by
  have hrun (P : Char → Bool) : (cs.takeWhile P).length ≤ cs.length :=
    (List.takeWhile_prefix P).length_le
  revert hf
  fun_cases firstPiece c cs with
  | case1 hb =>
    rintro ⟨⟩
    exact ⟨Nat.zero_le _, 0, by rw [firstPiece, if_pos hb], .inl rfl⟩
  | case2 hb hd run =>
    rintro ⟨⟩
    refine ⟨hrun _, 0, ?_, .inl rfl⟩
    rw [firstPiece, if_neg hb, if_pos hd,
      h.takeWhile_append fun d hd => (isDigit_eq_false_of_isBlank hd).1]
    rfl
  | case3 hb hd ha run word =>
    rintro ⟨⟩
    refine ⟨hrun _, 0, ?_, .inl rfl⟩
    rw [firstPiece, if_neg hb, if_neg hd, if_pos ha,
      h.takeWhile_append fun d hd => (isDigit_eq_false_of_isBlank hd).2]
    rfl
  | case4 hb hd ha hq body hlen =>
    rintro ⟨⟩
    refine ⟨hlen, 0, ?_, .inl rfl⟩
    have hlen' : body.length < (cs ++ ds).length := by
      rw [List.length_append]
      omega
    rw [firstPiece, if_neg hb, if_neg hd, if_neg ha, if_pos hq, takeWhile_append_closed hlen,
      if_pos hlen']
  | case6 hb hd ha hq hs =>
    rintro ⟨⟩
    refine ⟨Nat.zero_le _, 0, ?_, .inl rfl⟩
    rw [firstPiece, if_neg hb, if_neg hd, if_neg ha, if_neg hq, if_pos hs]
  | case7 hb hd ha hq hs hslash =>
    rintro ⟨⟩
    have hhead : (cs ++ ds).head? = some '/' := by simp [hslash.2]
    refine ⟨hrun _, ?_⟩
    rw [firstPiece, if_neg hb, if_neg hd, if_neg ha, if_neg hq, if_neg hs, if_pos ⟨hslash.1, hhead⟩]
    by_cases hlen : (cs.takeWhile (· ≠ '\n')).length = cs.length
    · refine ⟨(ds.takeWhile (· ≠ '\n')).length, ?_, .inr ⟨rfl, hlen⟩⟩
      rw [List.takeWhile_append, if_pos hlen, List.length_append, hlen]
    · refine ⟨0, ?_, .inl rfl⟩
      rw [List.takeWhile_append, if_neg hlen]
      rfl
  | case8 hb hd ha hq hs hslash ho =>
    rintro ⟨⟩
    have hslash' : ¬ (c = '/' ∧ (cs ++ ds).head? = some '/') := by
      rintro ⟨hc, hhead⟩
      exact h.head?_append_ne rfl (fun hcs => hslash ⟨hc, hcs⟩) hhead
    refine ⟨Nat.zero_le _, 0, ?_, .inl rfl⟩
    rw [firstPiece, if_neg hb, if_neg hd, if_neg ha, if_neg hq, if_neg hs, if_neg hslash',
      if_pos ho]
  | _ => simp

/-- White space has no tokens but the end of the input. -/
theorem scan_blanks (p : Position) {ds : List Char} (h : Blanks ds) :
    scan p ds = ⟨[⟨.eof, "", p.after ds⟩], none⟩ := by
  induction ds generalizing p with
  | nil => rw [scan, Position.after_nil]
  | cons d ds ih =>
    have hd : firstPiece d ds = .ok (.gap, 0) := by rw [firstPiece, if_pos (h.blank d (by simp))]
    rw [scan, hd]
    exact ih _ (h.drop 1)

/-- Tokens that are the same unless both are ends of the input. -/
def SameButEnd (a b : Token) : Prop := a = b ∨ a.kind = .eof ∧ b.kind = .eof

/-- White space behind a text moves the end of the input and changes nothing else. -/
theorem scan_append_blanks (p : Position) (cs : List Char) {ds : List Char} (h : Blanks ds) :
    List.Forall₂ (Token.Like SameButEnd) (scan p (cs ++ ds)).tokens (scan p cs).tokens ∧
      (scan p (cs ++ ds)).fault = (scan p cs).fault := by
  have hends (q r : Position) : Token.Like SameButEnd ⟨.eof, "", q⟩ ⟨.eof, "", r⟩ :=
    ⟨rfl, rfl, .inr ⟨rfl, rfl⟩⟩
  fun_induction scan p cs with
  | case1 p =>
    rw [List.nil_append, scan_blanks p h]
    exact ⟨.cons (hends _ _) .nil, rfl⟩
  | case2 p c cs fault hf =>
    rw [List.cons_append, scan, firstPiece_append_blanks_error h hf]
    exact ⟨.nil, rfl⟩
  | case3 p c cs m hf ih =>
    obtain ⟨hm, k, hf', rfl | ⟨_, rfl⟩⟩ := firstPiece_append_blanks h hf
    · rw [List.cons_append, scan, hf']
      simpa only [Nat.add_zero, List.take_append_of_le_length hm, List.drop_append_of_le_length hm]
        using ih
    · -- a remark ends the text: behind it there is white space in one and nothing in the other
      rw [List.cons_append, scan, hf']
      simp only [List.drop_length_add_append, List.drop_length, scan_blanks _ (h.drop k)]
      rw [scan]
      exact ⟨.cons (hends _ _) .nil, rfl⟩
  | case4 p c cs kind text m hf tail ih =>
    obtain ⟨hm, k, hf', rfl | ⟨hgap, _⟩⟩ := firstPiece_append_blanks h hf
    · rw [Nat.add_zero] at hf'
      rw [List.cons_append, scan_token hf', List.take_append_of_le_length hm,
        List.drop_append_of_le_length hm]
      exact ⟨.cons ⟨rfl, rfl, .inl rfl⟩ ih.1, ih.2⟩
    · simp at hgap

/-- An end of the input is no operator, so where it is does not matter to what joins. -/
theorem SameButEnd.joins {a b a' b' : Token} (ha : SameButEnd a a') (hb : SameButEnd b b') :
    a.joins b = a'.joins b' := by
  have hend : (TokenKind.eof == TokenKind.operator) = false := rfl
  rcases ha with rfl | ⟨hk, hk'⟩
  · rcases hb with rfl | ⟨hk, hk'⟩
    · rfl
    · simp [Token.joins, hk, hk', hend]
  · simp [Token.joins, hk, hk', hend]

/-- Tokens that differ in where they end are the same program, or they have the same error, or their
errors have the same fault and are found at the end. -/
theorem parse_sameButEnd {ts us : List Token} (h : List.Forall₂ (Token.Like SameButEnd) ts us) :
    parse ts = parse us ∨
      ∃ e e', parse ts = .error (.syntactic e) ∧ parse us = .error (.syntactic e') ∧
        e.fault = e'.fault ∧ e.token.kind = .eof ∧ e'.token.kind = .eof := by
  have hcursor : (Cursor.ofTokens ts 0).Like SameButEnd 0 (Cursor.ofTokens us 0) := by
    refine ⟨lexemes_like h ?_, endToken_like h (.inl rfl), rfl⟩
    intro i a b a' b' ha hb ha' hb'
    obtain ⟨hi, rfl⟩ := List.getElem?_eq_some_iff.mp ha
    obtain ⟨hi', rfl⟩ := List.getElem?_eq_some_iff.mp ha'
    obtain ⟨hj, rfl⟩ := List.getElem?_eq_some_iff.mp hb
    obtain ⟨hj', rfl⟩ := List.getElem?_eq_some_iff.mp hb'
    exact (h.get hi hi').related.joins (h.get hj hj').related
  rcases (parseFrom_like (Cursor.ofTokens_proper ts 0) hcursor).2.2 with ⟨p, hp, hp'⟩ |
    ⟨e, e', he, he', hlike⟩
  · exact .inl (hp.trans hp'.symm)
  · rcases hlike.token.related with htoken | ⟨hk, hk'⟩
    · have heq : e = e' :=
        SyntaxError.Like.eq ⟨hlike.fault, ⟨hlike.token.kind, hlike.token.text, htoken⟩⟩
      exact .inl (he.trans (heq ▸ he'.symm))
    · exact .inr ⟨e, e', he, he', hlike.fault, hk, hk'⟩

/-- Without the white space at its end a text has the same lexical fault, or the same tokens before
the end. -/
theorem tokenize_trimEnd (s : String) :
    (∃ e, tokenize (String.ofList (trimEnd s.toList)) = .error e ∧ tokenize s = .error e) ∨
      ∃ ts us, tokenize (String.ofList (trimEnd s.toList)) = .ok ts ∧ tokenize s = .ok us ∧
        List.Forall₂ (Token.Like SameButEnd) us ts := by
  obtain ⟨ds, hds, hs⟩ := Blanks.of_trimEnd s.toList
  obtain ⟨htokens, hfault⟩ := scan_append_blanks .start (trimEnd s.toList) hds
  rw [← hs] at htokens hfault
  simp only [tokenize, Scan.result, String.toList_ofList, ← hfault]
  cases (scan .start s.toList).fault with
  | some found => exact .inl ⟨_, rfl, rfl⟩
  | none => exact .inr ⟨_, _, rfl, rfl, htokens⟩

/-- White space at the end of a text does not matter: without it the text has the same assembly or
the same error, or with it and without it an error with the same fault is found at the end of the
input. -/
theorem compile_trimEnd (s : String) :
    compile (String.ofList (trimEnd s.toList)) = compile s ∨
      ∃ e e', compile (String.ofList (trimEnd s.toList)) = .error (.syntactic e) ∧
        compile s = .error (.syntactic e') ∧ e.fault = e'.fault ∧
        e.token.describe = "end of input" ∧ e'.token.describe = "end of input" := by
  rcases tokenize_trimEnd s with ⟨e, htrimmed, hwhole⟩ | ⟨ts, us, htrimmed, hwhole, hlike⟩
  · left
    rw [compile_of_tokenize_error htrimmed, compile_of_tokenize_error hwhole]
  · rw [compile_of_tokenize htrimmed, compile_of_tokenize hwhole]
    rcases parse_sameButEnd hlike with heq | ⟨e', e, he', he, hfault, hk', hk⟩
    · exact .inl (by rw [heq])
    · refine .inr ⟨e, e', by rw [he]; rfl, by rw [he']; rfl, hfault.symm, ?_, ?_⟩
      · simp [Token.describe, hk]
      · simp [Token.describe, hk']

end ImpAsm

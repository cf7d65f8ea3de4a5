import ImpAsm.Proofs.Token.Rebuilding

namespace ImpAsm

/-- The pieces of a text, each before the characters `after`: white space, a remark up to the new
line that ends it, and lexemes that cannot be made longer. Two slashes are no operators but start a
remark. -/
inductive IsPiece : List Char → List Char → Prop where
  | blank {c : Char} {after : List Char} (hc : isBlank c) : IsPiece [c] after
  | remark {body after : List Char} (hbody : '\n' ∉ body) :
      IsPiece ('/' :: '/' :: body) ('\n' :: after)
  | number {run after : List Char} (h : IsRun Char.isDigit [] run after) : IsPiece run after
  | word {run after : List Char} (h : IsRun Char.isAlpha [] run after) : IsPiece run after
  | string {body after : List Char} (hbody : '"' ∉ body) : IsPiece ('"' :: (body ++ ['"'])) after
  | separator {c : Char} {after : List Char} (hc : c ∈ separators) : IsPiece [c] after
  | operator {c : Char} {after : List Char} (hc : c ∈ operators)
      (hslash : c = '/' → after.head? ≠ some '/') : IsPiece [c] after

/-- The characters split completely into pieces, where `after` stands behind them. -/
inductive Splits (after : List Char) : List Char → Prop where
  | nil : Splits after []
  | cons {piece cs : List Char} (hpiece : IsPiece piece (cs ++ after)) (h : Splits after cs) :
      Splits after (piece ++ cs)

/-- What is wrong with a character before `after` with which no piece starts: it opens a string that
is never closed, or it belongs to no class of characters. -/
def IsFault (c : Char) (after : List Char) : LexicalFault → Prop
  | .unterminatedString => c = '"' ∧ '"' ∉ after
  | .unknownCharacter d =>
    d = c ∧ isBlank c = false ∧ c.isDigit = false ∧ c.isAlpha = false ∧ c ≠ '"' ∧
      c ∉ separators ∧ c ∉ operators

/-- A text that splits into pieces up to a character with which no piece starts. -/
structure FaultsAt (text before : List Char) (c : Char) (after : List Char) (fault : LexicalFault) :
    Prop where
  text_eq : text = before ++ c :: after
  splits : Splits (c :: after) before
  fault : IsFault c after fault

/-- No piece is found exactly where there is a fault. -/
theorem firstPiece_eq_error {c : Char} {cs : List Char} {fault : LexicalFault} :
    firstPiece c cs = .error fault ↔ IsFault c cs fault := by
  constructor
  · fun_cases firstPiece c cs with
    | case5 hb hd ha hq body hlen =>
      rintro ⟨⟩
      have hall : body = cs :=
        (List.takeWhile_prefix _).eq_of_length (Nat.le_antisymm (List.takeWhile_prefix _).length_le
          (Nat.le_of_not_lt hlen))
      exact ⟨hq, hall ▸ not_mem_takeWhile_ne '"' cs⟩
    | case9 hb hd ha hq hs hslash ho =>
      rintro ⟨⟩
      exact ⟨rfl, Bool.eq_false_iff.mpr hb, Bool.eq_false_iff.mpr hd, Bool.eq_false_iff.mpr ha, hq,
        hs, ho⟩
    | _ => simp
  · intro h
    cases fault with
    | unterminatedString =>
      obtain ⟨rfl, hmem⟩ := h
      have hall : cs.takeWhile (· ≠ '"') = cs := by
        rw [List.takeWhile_eq_self_iff]
        intro d hd
        have hne : d ≠ '"' := fun heq => hmem (heq ▸ hd)
        simpa using hne
      rw [firstPiece, if_neg (by decide), if_neg (by decide), if_neg (by decide), if_pos rfl]
      simp only [hall, Nat.lt_irrefl, if_false]
    | unknownCharacter d =>
      obtain ⟨rfl, hb, hd, ha, hq, hs, ho⟩ := h
      have hslash : ¬ (d = '/' ∧ cs.head? = some '/') := by
        rintro ⟨rfl, _⟩
        exact ho (by decide)
      rw [firstPiece, if_neg (by simp [hb]), if_neg (by simp [hd]), if_neg (by simp [ha]),
        if_neg hq, if_neg hs, if_neg hslash, if_neg ho]

/-- What is taken from a text before its end is a piece; only a remark at the end has no new
line. -/
theorem isPiece_of_firstPiece {c : Char} {cs : List Char} {piece : Piece} {m : Nat}
    (h : firstPiece c cs = .ok (piece, m)) (hend : cs.drop m ≠ []) :
    IsPiece (c :: cs.take m) (cs.drop m) := by
  revert h
  fun_cases firstPiece c cs with
  | case1 hb =>
    rintro ⟨⟩
    exact .blank hb
  | case2 hb hd run =>
    rintro ⟨⟩
    obtain ⟨htake, hdrop⟩ := take_takeWhile Char.isDigit cs
    rw [htake, hdrop]
    exact .number (isRun_takeWhile hd (by simp))
  | case3 hb hd ha run word =>
    rintro ⟨⟩
    obtain ⟨htake, hdrop⟩ := take_takeWhile Char.isAlpha cs
    rw [htake, hdrop]
    exact .word (isRun_takeWhile ha (by simp))
  | case4 hb hd ha hq body hlen =>
    rintro ⟨⟩
    obtain ⟨hquote, htake⟩ : '"' ∉ body ∧ cs.take (body.length + 1) = body ++ ['"'] :=
      take_closed hlen
    rw [htake, hq]
    exact .string hquote
  | case6 hb hd ha hq hs =>
    rintro ⟨⟩
    exact .separator hs
  | case7 hb hd ha hq hs hslash =>
    rintro ⟨⟩
    obtain ⟨rfl, hhead⟩ := hslash
    obtain ⟨cs, rfl⟩ := List.head?_eq_some_iff.mp hhead
    obtain ⟨htake, hdrop⟩ := take_takeWhile (· ≠ '\n') ('/' :: cs)
    rw [hdrop] at hend ⊢
    obtain ⟨d, after, hafter⟩ := List.exists_cons_of_ne_nil hend
    have hd := head?_dropWhile (· ≠ '\n') ('/' :: cs) d (by rw [hafter]; rfl)
    obtain rfl : d = '\n' := by simpa using hd
    have hbody : ('/' :: cs).takeWhile (· ≠ '\n') = '/' :: cs.takeWhile (· ≠ '\n') := by simp
    rw [htake, hafter, hbody]
    exact .remark (not_mem_takeWhile_ne '\n' cs)
  | case8 hb hd ha hq hs hslash ho =>
    rintro ⟨⟩
    exact .operator ho fun hc hhead => hslash ⟨hc, hhead⟩
  | _ => simp

/-- A remark is taken up to the new line that ends it, or up to the end of the text. -/
theorem firstPiece_remark {body after : List Char} (hbody : '\n' ∉ body)
    (hafter : ∀ c ∈ after.head?, c = '\n') :
    firstPiece '/' ('/' :: body ++ after) = .ok (.gap, ('/' :: body).length) := by
  have hall : ∀ c ∈ '/' :: body, (c ≠ '\n' : Bool) := by
    intro c hc
    have hne : c ≠ '\n' := by
      rintro rfl
      simp [hbody] at hc
    simpa using hne
  have hhead : ∀ c ∈ after.head?, (c ≠ '\n' : Bool) = false := by
    intro c hc
    simp [hafter c hc]
  rw [firstPiece, if_neg (by decide), if_neg (by decide), if_neg (by decide), if_neg (by decide),
    if_neg (by decide), if_pos ⟨rfl, rfl⟩, takeWhile_append_of_head hall hhead]

/-- A piece is taken whole from every text that starts with it. -/
theorem firstPiece_of_isPiece {piece after : List Char} (h : IsPiece piece after) :
    ∃ c cs p, piece = c :: cs ∧ firstPiece c (cs ++ after) = .ok (p, cs.length) := by
  cases h with
  | @blank c _ hc => exact ⟨c, [], .gap, rfl, by rw [firstPiece, if_pos hc]; rfl⟩
  | @remark body after hbody =>
    exact ⟨'/', '/' :: body, .gap, rfl, firstPiece_remark hbody (by simp)⟩
  | number h =>
    obtain ⟨c, cs, rfl⟩ := List.exists_cons_of_ne_nil h.ne_nil
    exact ⟨c, cs, _, rfl,
      firstPiece_digits (h.all c (by simp)) (fun d hd => h.all d (by simp [hd])) h.after⟩
  | word h =>
    obtain ⟨c, cs, rfl⟩ := List.exists_cons_of_ne_nil h.ne_nil
    exact ⟨c, cs, _, rfl,
      firstPiece_letters (h.all c (by simp)) (fun d hd => h.all d (by simp [hd])) h.after⟩
  | @string body _ hbody =>
    refine ⟨'"', body ++ ['"'], .token .str (String.ofList body), rfl, ?_⟩
    rw [List.append_assoc, List.singleton_append, firstPiece_quoted hbody, List.length_append]
    rfl
  | separator hc => exact ⟨_, [], _, rfl, Word.firstPiece_separator hc _⟩
  | operator hc hslash => exact ⟨_, [], _, rfl, Word.firstPiece_operator hc hslash⟩

theorem fault_scan_cons {c : Char} {cs : List Char} {piece : Piece} {m : Nat}
    (h : firstPiece c cs = .ok (piece, m)) (p : Position) :
    (scan p (c :: cs)).fault = (scan (p.after (c :: cs.take m)) (cs.drop m)).fault := by
  rw [scan, h]
  cases piece <;> rfl

/-- The pieces that a text starts with have no fault in them. -/
theorem Splits.fault_scan {before after : List Char} (h : Splits after before) (p : Position) :
    (scan p (before ++ after)).fault = (scan (p.after before) after).fault := by
  induction h generalizing p with
  | nil => rfl
  | @cons piece cs hpiece _ ih =>
    obtain ⟨c, ds, x, rfl, hfirst⟩ := firstPiece_of_isPiece hpiece
    rw [List.append_assoc, List.cons_append, fault_scan_cons hfirst, List.take_left,
      List.drop_left, ih, ← Position.after_append]

/-- A piece before a text moves its fault back. -/
theorem FaultsAt.cons {c d : Char} {cs before after : List Char} {fault : LexicalFault}
    {piece : Piece} {m : Nat} (hf : firstPiece c cs = .ok (piece, m))
    (h : FaultsAt (cs.drop m) before d after fault) :
    FaultsAt (c :: cs) (c :: cs.take m ++ before) d after fault where
  text_eq := by rw [List.append_assoc, ← h.text_eq, List.cons_append, List.take_append_drop]
  splits := by
    have hpiece := isPiece_of_firstPiece hf (by simp [h.text_eq])
    rw [h.text_eq] at hpiece
    exact .cons hpiece h.splits
  fault := h.fault

/-- A text is at fault exactly where it splits up to a character with which no piece starts. -/
theorem fault_scan_iff {p q : Position} {text : List Char} {fault : LexicalFault} :
    (scan p text).fault = some (q, fault) ↔
      ∃ before c after, FaultsAt text before c after fault ∧ q = p.after before := by
  constructor
  · intro h
    fun_induction scan p text with
    | case1 p => simp at h
    | case2 p c cs f hf =>
      obtain ⟨rfl, rfl⟩ : p = q ∧ f = fault := by simpa using h
      exact ⟨[], c, cs, ⟨rfl, .nil, firstPiece_eq_error.mp hf⟩, rfl⟩
    | case3 p c cs m hf ih =>
      obtain ⟨before, d, after, hat, rfl⟩ := ih h
      exact ⟨_, d, after, hat.cons hf, (Position.after_append _ _ _).symm⟩
    | case4 p c cs k word m hf tail ih =>
      obtain ⟨before, d, after, hat, rfl⟩ := ih h
      exact ⟨_, d, after, hat.cons hf, (Position.after_append _ _ _).symm⟩
  · intro h
    obtain ⟨before, c, after, ⟨rfl, hsplits, hfault⟩, rfl⟩ := h
    rw [hsplits.fault_scan, scan, firstPiece_eq_error.mpr hfault]

theorem tokenize_eq_lexical {s : String} {err : CompileError} :
    tokenize s = .error err ↔
      ∃ p fault, (scan .start s.toList).fault = some (p, fault) ∧ err = .lexical p fault := by
  unfold tokenize Scan.result
  cases (scan .start s.toList).fault with
  | none => simp
  | some f =>
    obtain ⟨p, fault⟩ := f
    simp [eq_comm]

theorem tokenize_eq_error {s : String} {err : CompileError} :
    tokenize s = .error err ↔
      ∃ before c after fault, FaultsAt s.toList before c after fault ∧
        err = .lexical (.behind before) fault := by
  have hplace (before : List Char) : Position.start.after before = .behind before := by
    have hstart : Position.start = .behind [] := rfl
    rw [hstart, Position.behind_after, List.nil_append]
  rw [tokenize_eq_lexical]
  constructor
  · rintro ⟨p, fault, hfault, rfl⟩
    obtain ⟨before, c, after, hat, rfl⟩ := fault_scan_iff.mp hfault
    exact ⟨before, c, after, fault, hat, by rw [hplace]⟩
  · rintro ⟨before, c, after, fault, hat, rfl⟩
    exact ⟨.behind before, fault,
      fault_scan_iff.mpr ⟨before, c, after, hat, (hplace before).symm⟩, rfl⟩

/-- A text has at most one fault. -/
theorem FaultsAt.unique {s : String} {before before' after after' : List Char} {c c' : Char}
    {fault fault' : LexicalFault} (h : FaultsAt s.toList before c after fault)
    (h' : FaultsAt s.toList before' c' after' fault') :
    before = before' ∧ c = c' ∧ after = after' := by
  -- both are the error of the text, so they stand behind the same number of characters
  have herr := (tokenize_eq_error.mpr ⟨before, c, after, fault, h, rfl⟩).symm.trans
    (tokenize_eq_error.mpr ⟨before', c', after', fault', h', rfl⟩)
  have hlength : before.length = before'.length := by
    simp only [Except.error.injEq, CompileError.lexical.injEq, Position.behind,
      Position.mk.injEq] at herr
    exact herr.1.1
  obtain ⟨hbefore, htail⟩ := List.append_inj (h.text_eq.symm.trans h'.text_eq) hlength
  exact ⟨hbefore, List.cons.inj htail⟩

/-- A remark that reaches the end of a text is its last gap. -/
theorem fault_scan_remark {body : List Char} (hbody : '\n' ∉ body) (p : Position) :
    (scan p ('/' :: '/' :: body)).fault = none := by
  have hfirst : firstPiece '/' ('/' :: body ++ []) = .ok (.gap, ('/' :: body).length) :=
    firstPiece_remark hbody (by simp)
  rw [List.append_nil] at hfirst
  rw [fault_scan_cons hfirst, List.drop_length, scan]

/-- The reason of a fault is told by the character at which it is found. -/
theorem IsFault.message {c : Char} {after : List Char} {fault : LexicalFault}
    (h : IsFault c after fault) :
    fault.message =
      if c = '"' then "unterminated string literal"
      else "unknown character '" ++ c.toString ++ "'" := by
  cases fault with
  | unterminatedString =>
    obtain ⟨hc, _⟩ := h
    rw [if_pos hc]
    rfl
  | unknownCharacter d =>
    obtain ⟨rfl, _, _, _, hq, _, _⟩ := h
    rw [if_neg hq]
    rfl

/-- Lexical errors are exact. A text cannot be split into tokens exactly if it splits into pieces up
to a character that opens a string which is never closed, or that belongs to no class of characters.
There is at most one such character. The error stands at it, its line and column being counted from
what is before it, and tells the reason. So nothing in the pieces of a text causes an error, be they
remarks or closed strings, and neither does a remark that reaches the end of the text. -/
theorem tokenize_error_exact (s : String) :
    (∀ err, tokenize s = .error err ↔
      ∃ before c after fault, FaultsAt s.toList before c after fault ∧
        err = .lexical (.behind before) fault ∧
        fault.message =
          if c = '"' then "unterminated string literal"
          else "unknown character '" ++ c.toString ++ "'") ∧
    (∀ before c after fault before' c' after' fault', FaultsAt s.toList before c after fault →
      FaultsAt s.toList before' c' after' fault' → before = before' ∧ c = c' ∧ after = after') ∧
    (∀ before after, s.toList = before ++ after → Splits after before → ∀ p fault,
      tokenize s = .error (.lexical p fault) → before.length ≤ p.offset) ∧
    (∀ before body, s.toList = before ++ '/' :: '/' :: body → Splits ('/' :: '/' :: body) before →
      '\n' ∉ body → ∃ ts, tokenize s = .ok ts) := by
  refine ⟨?_, ?_, ?_, ?_⟩
  · intro err
    rw [tokenize_eq_error]
    constructor
    · rintro ⟨before, c, after, fault, hat, rfl⟩
      exact ⟨before, c, after, fault, hat, rfl, hat.fault.message⟩
    · rintro ⟨before, c, after, fault, hat, rfl, _⟩
      exact ⟨before, c, after, fault, hat, rfl⟩
  · intro before c after fault before' c' after' fault' h h'
    exact h.unique h'
  · intro before after hs hsplits p fault herr
    obtain ⟨p, fault, hfault, ⟨⟩⟩ := tokenize_eq_lexical.mp herr
    rw [hs, hsplits.fault_scan] at hfault
    obtain ⟨before', c, after', _, rfl⟩ := fault_scan_iff.mp hfault
    rw [offset_after, offset_after]
    omega
  · intro before body hs hsplits hbody
    cases hts : tokenize s with
    | ok ts => exact ⟨ts, rfl⟩
    | error err =>
      obtain ⟨p, fault, hfault, rfl⟩ := tokenize_eq_lexical.mp hts
      rw [hs, hsplits.fault_scan, fault_scan_remark hbody] at hfault
      cases hfault

/-- A quote in a remark, a hash in a string, a letter outside ASCII, and a string that is never
closed. -/
def faultyText : String := "x//\"\n\"#\" é\""

theorem tokenize_faultyText :
    tokenize faultyText = .error (.lexical ⟨9, 2, 5⟩ (.unknownCharacter 'é')) ∧
      (LexicalFault.unknownCharacter 'é').message = "unknown character 'é'" := by
  have hspace : IsPiece [' '] ['é', '"'] := .blank (by decide)
  have hstring : IsPiece ('"' :: (['#'] ++ ['"'])) [' ', 'é', '"'] := .string (by decide)
  have hnewline : IsPiece ['\n'] ['"', '#', '"', ' ', 'é', '"'] := .blank (by decide)
  have hremark : IsPiece ['/', '/', '"'] ['\n', '"', '#', '"', ' ', 'é', '"'] := .remark (by decide)
  have hword : IsPiece ['x'] ['/', '/', '"', '\n', '"', '#', '"', ' ', 'é', '"'] :=
    .word ⟨by simp, by simp, by simp, by simp⟩
  have hsplits : Splits ['é', '"'] ['x', '/', '/', '"', '\n', '"', '#', '"', ' '] :=
    .cons hword (.cons hremark (.cons hnewline (.cons hstring (.cons hspace .nil))))
  refine ⟨?_, by decide⟩
  exact ((tokenize_error_exact faultyText).1 _).mpr
    ⟨_, 'é', ['"'], .unknownCharacter 'é', ⟨by decide, hsplits, ⟨rfl, by decide⟩⟩, rfl, by decide⟩

end ImpAsm

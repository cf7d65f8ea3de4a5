import ImpAsm.Expr.Basic
import ImpAsm.Proofs.Text.Decimal
import ImpAsm.Proofs.Token.Grouping
import ImpAsm.Proofs.Token.Scanning

namespace ImpAsm

/-- The words that programs are written with. -/
inductive Word where
  | keyword (k : Keyword)
  | separator (c : Char)
  | operator (s : String)
  | name (x : String)
  | digits (n : Nat)
  | truth (b : Bool)
  | quoted (text : String)

/-- A name that is no reserved word. -/
def IsIdentifier (x : String) : Prop :=
  IsWord x ∧ (∀ k : Keyword, k.spelling ≠ x) ∧ x ≠ "true" ∧ x ≠ "false"

/-- The operators of programs: those of expressions and the one that binds values. -/
def symbols : List String := "=" :: "!" :: BinOp.all.map BinOp.symbol

namespace Word

def text : Word → String
  | keyword k => k.spelling
  | separator c => c.toString
  | operator s => s
  | name x => x
  | digits n => n.repr
  | truth b => if b then "true" else "false"
  | quoted t => "\"" ++ t ++ "\""

/-- The lexeme of a word that is written at `p`. -/
def lexeme (w : Word) (p : Position) : Lexeme :=
  match w with
  | keyword k => ⟨⟨.keyword k, k.spelling, p⟩, none⟩
  | separator c => ⟨⟨.separator, c.toString, p⟩, none⟩
  | operator s =>
    match s.toList with
    | [a, b] => ⟨⟨.operator, a.toString, p⟩, some ⟨.operator, b.toString, p.step a⟩⟩
    | _ => ⟨⟨.operator, s, p⟩, none⟩
  | name x => ⟨⟨.ident, x, p⟩, none⟩
  | digits n => ⟨⟨.int, n.repr, p⟩, none⟩
  | truth b => ⟨⟨.bool, if b then "true" else "false", p⟩, none⟩
  | quoted t => ⟨⟨.str, t, p⟩, none⟩

/-- The words that can be read back. -/
def Legible : Word → Prop
  | separator c => c ∈ separators
  | operator s => s ∈ symbols
  | name x => IsIdentifier x
  | quoted t => '"' ∉ t.toList
  | keyword _ | digits _ | truth _ => True

end Word

/-- The end of the text or a space. -/
def Spaced (cs : List Char) : Prop := ∀ c ∈ cs.head?, c = ' '

theorem scan_token {c : Char} {cs : List Char} {k : TokenKind} {text : String} {m : Nat}
    (h : firstPiece c cs = .ok (.token k text, m)) (p : Position) :
    scan p (c :: cs) =
      ⟨⟨k, text, p⟩ :: (scan (p.after (c :: cs.take m)) (cs.drop m)).tokens,
        (scan (p.after (c :: cs.take m)) (cs.drop m)).fault⟩ := by
  rw [scan, h]

theorem Spaced.head {cs : List Char} (h : Spaced cs) {P : Char → Bool} (hP : P ' ' = false) :
    ∀ c ∈ cs.head?, P c = false := by
  intro c hc
  rw [h c hc, hP]

/-- A run of characters ends where the next one is not of its class. -/
theorem takeWhile_append_of_head {P : Char → Bool} {cs ds : List Char} (hcs : ∀ c ∈ cs, P c)
    (hds : ∀ d ∈ ds.head?, P d = false) : (cs ++ ds).takeWhile P = cs := by
  rw [List.takeWhile_append_of_pos hcs]
  cases ds with
  | nil => simp
  | cons d ds => simp [hds d rfl]

/-- The characters of a word at `p` are scanned as its lexeme, if a space follows it. -/
def Word.Scans (w : Word) : Prop :=
  ∀ (p : Position) (rest : List Char), Spaced rest →
    scan p (w.text.toList ++ rest) =
      ⟨(w.lexeme p).tokens ++ (scan (p.after w.text.toList) rest).tokens,
        (scan (p.after w.text.toList) rest).fault⟩

/-- A word whose characters are all taken as one token. -/
theorem scans_of_firstPiece {w : Word} {k : TokenKind} {text : String} {c : Char} {cs : List Char}
    (hl : ∀ p, w.lexeme p = ⟨⟨k, text, p⟩, none⟩) (hw : w.text.toList = c :: cs)
    (h : ∀ rest, Spaced rest → firstPiece c (cs ++ rest) = .ok (.token k text, cs.length)) :
    w.Scans := by
  intro p rest hrest
  rw [hw, List.cons_append, scan_token (h rest hrest), List.take_left, List.drop_left, hl]
  rfl

theorem isAlpha_iff {c : Char} :
    c.isAlpha ↔ 65 ≤ c.toNat ∧ c.toNat ≤ 90 ∨ 97 ≤ c.toNat ∧ c.toNat ≤ 122 := by
  simp only [Char.isAlpha, Char.isUpper, Char.isLower, Bool.or_eq_true, Bool.and_eq_true,
    decide_eq_true_eq, ge_iff_le, UInt32.le_iff_toNat_le]
  exact Iff.rfl

theorem isDigit_iff {c : Char} : c.isDigit ↔ 48 ≤ c.toNat ∧ c.toNat ≤ 57 := by
  simp only [Char.isDigit, Bool.and_eq_true, decide_eq_true_eq, ge_iff_le, UInt32.le_iff_toNat_le]
  exact Iff.rfl

theorem isBlank_eq_false {c : Char} (h : c.isAlpha ∨ c.isDigit) : isBlank c = false := by
  rw [isAlpha_iff, isDigit_iff] at h
  simp only [isBlank, blankRanges, List.any_cons, List.any_nil, Bool.or_false, Bool.or_eq_false_iff,
    Bool.and_eq_false_iff, decide_eq_false_iff_not, Nat.not_le]
  omega

theorem isDigit_eq_false {c : Char} (h : c.isAlpha) : c.isDigit = false := by
  rw [isAlpha_iff] at h
  rw [Bool.eq_false_iff, ne_eq, isDigit_iff]
  omega

theorem firstPiece_letters {c : Char} {cs rest : List Char} (hc : c.isAlpha)
    (hcs : ∀ d ∈ cs, d.isAlpha) (hrest : ∀ d ∈ rest.head?, d.isAlpha = false) :
    firstPiece c (cs ++ rest) =
      .ok (.token (wordKind (String.ofList (c :: cs))) (String.ofList (c :: cs)), cs.length) := by
  have hb : isBlank c = false := isBlank_eq_false (.inl hc)
  simp [firstPiece, hb, isDigit_eq_false hc, hc, takeWhile_append_of_head hcs hrest]

theorem firstPiece_digits {c : Char} {cs rest : List Char} (hc : c.isDigit)
    (hcs : ∀ d ∈ cs, d.isDigit) (hrest : ∀ d ∈ rest.head?, d.isDigit = false) :
    firstPiece c (cs ++ rest) = .ok (.token .int (String.ofList (c :: cs)), cs.length) := by
  have hb : isBlank c = false := isBlank_eq_false (.inr hc)
  simp [firstPiece, hb, hc, takeWhile_append_of_head hcs hrest]

theorem firstPiece_quoted {cs rest : List Char} (hcs : '"' ∉ cs) :
    firstPiece '"' (cs ++ '"' :: rest) = .ok (.token .str (String.ofList cs), cs.length + 1) := by
  have hall : ∀ c ∈ cs, (c ≠ '"' : Bool) := by
    intro c hc
    simp only [ne_eq, decide_not, Bool.not_eq_true', decide_eq_false_iff_not]
    intro h
    exact hcs (h ▸ hc)
  have hbody : (cs ++ '"' :: rest).takeWhile (fun c => c ≠ '"') = cs := by
    rw [List.takeWhile_append_of_pos hall]
    simp
  have hb : isBlank '"' = false := rfl
  have hlen : cs.length < (cs ++ '"' :: rest).length := by simp
  unfold firstPiece
  rw [hb, if_neg (by simp), if_neg (by simp), if_neg (by simp), if_pos rfl]
  simp only [hbody, if_pos hlen]

namespace Word

theorem scans_letters {w : Word} {k : TokenKind} (hw : IsWord w.text) (hk : wordKind w.text = k)
    (hl : ∀ p, w.lexeme p = ⟨⟨k, w.text, p⟩, none⟩) : w.Scans := by
  obtain ⟨hne, halpha⟩ := hw
  obtain ⟨c, cs, hcs⟩ := List.exists_cons_of_ne_nil hne
  refine scans_of_firstPiece hl hcs ?_
  intro rest hrest
  have htext : String.ofList (c :: cs) = w.text := by rw [← hcs, String.ofList_toList]
  have hletter : ∀ d ∈ c :: cs, d.isAlpha := by
    rw [hcs] at halpha
    exact List.all_eq_true.mp halpha
  rw [firstPiece_letters (hletter c (by simp)) (fun d hd => hletter d (by simp [hd]))
    (hrest.head rfl), htext, hk]

theorem scans_keyword (k : Keyword) : (keyword k).Scans := by
  refine scans_letters (k := .keyword k) ⟨?_, ?_⟩ ?_ fun _ => rfl
  · cases k <;> simp [text, Keyword.spelling]
  · cases k <;> decide
  · cases k <;> decide

theorem scans_truth (b : Bool) : (truth b).Scans := by
  refine scans_letters (k := .bool) ⟨?_, ?_⟩ ?_ fun _ => rfl
  · cases b <;> simp [text]
  · cases b <;> decide
  · cases b <;> decide

theorem wordKind_of_isIdentifier {x : String} (h : IsIdentifier x) : wordKind x = .ident := by
  obtain ⟨_, hk, ht, hf⟩ := h
  have hnone : Keyword.ofSpelling? x = none := by
    rw [Keyword.ofSpelling?, List.find?_eq_none]
    intro k _
    simpa using hk k
  simp [wordKind, hnone, ht, hf]

theorem scans_name {x : String} (h : IsIdentifier x) : (name x).Scans :=
  scans_letters (k := .ident) h.1 (wordKind_of_isIdentifier h) fun _ => rfl

theorem scans_digits (n : Nat) : (digits n).Scans := by
  obtain ⟨c, cs, hcs⟩ := List.exists_cons_of_ne_nil (toList_repr_ne_nil n)
  have hdigit : ∀ d ∈ c :: cs, d.isDigit := fun d hd => isDigit_of_mem_repr (hcs ▸ hd)
  refine scans_of_firstPiece (fun _ => rfl) hcs ?_
  intro rest hrest
  have htext : String.ofList (c :: cs) = n.repr := by rw [← hcs, String.ofList_toList]
  rw [firstPiece_digits (hdigit c (by simp)) (fun d hd => hdigit d (by simp [hd])) (hrest.head rfl),
    htext]

theorem scans_quoted {t : String} (h : '"' ∉ t.toList) : (quoted t).Scans := by
  have hw : (quoted t).text.toList = '"' :: (t.toList ++ ['"']) := by simp [text]
  refine scans_of_firstPiece (fun _ => rfl) hw ?_
  intro rest _
  rw [List.append_assoc, List.singleton_append, firstPiece_quoted h]
  simp

theorem firstPiece_separator {c : Char} (hc : c ∈ separators) (cs : List Char) :
    firstPiece c cs = .ok (.token .separator c.toString, 0) := by
  simp only [separators, List.mem_cons, List.not_mem_nil, or_false] at hc
  rcases hc with rfl | rfl | rfl | rfl | rfl | rfl <;> rfl

theorem scans_separator {c : Char} (h : c ∈ separators) : (separator c).Scans := by
  have hw : (separator c).text.toList = [c] := by simp [text]
  refine scans_of_firstPiece (fun _ => rfl) hw ?_
  intro rest _
  exact firstPiece_separator h rest

theorem symbols_spelling : ∀ s ∈ symbols, s.toList.all (operators.contains ·) ∧
    (s.toList.length = 1 ∨ s.toList.length = 2 ∧ '/' ∉ s.toList ∧ s ∈ compoundOperators) := by
  decide

theorem firstPiece_operator {c : Char} {cs : List Char} (hc : c ∈ operators)
    (hcs : c = '/' → cs.head? ≠ some '/') :
    firstPiece c cs = .ok (.token .operator c.toString, 0) := by
  simp only [operators, List.mem_cons, List.not_mem_nil, or_false] at hc
  rcases hc with rfl | rfl | rfl | rfl | rfl | rfl | rfl | rfl | rfl | rfl
  case inr.inr.inr.inl => simp [firstPiece, hcs rfl, isBlank, blankRanges, separators, operators]
  all_goals rfl

/-- An operator is one character, or two that are joined. -/
theorem operator_cases {s : String} (h : s ∈ symbols) :
    (∃ a, s.toList = [a] ∧ a ∈ operators ∧ ∀ p, (operator s).lexeme p = ⟨⟨.operator, s, p⟩, none⟩) ∨
      ∃ a b, s.toList = [a, b] ∧ a ∈ operators ∧ b ∈ operators ∧ b ≠ '/' ∧ s ∈ compoundOperators ∧
        ∀ p, (operator s).lexeme p =
          ⟨⟨.operator, a.toString, p⟩, some ⟨.operator, b.toString, p.step a⟩⟩ := by
  obtain ⟨hall, h⟩ := symbols_spelling s h
  have hmem : ∀ c ∈ s.toList, c ∈ operators := by simpa using hall
  rcases h with hlen | ⟨hlen, hslash, hs⟩
  · obtain ⟨a, ha⟩ := List.length_eq_one_iff.mp hlen
    exact .inl ⟨a, ha, hmem a (by simp [ha]), fun p => by simp [lexeme, ha]⟩
  · obtain ⟨a, b, hab⟩ : ∃ a b, s.toList = [a, b] :=
      ⟨_, _, List.eq_getElem_of_length_eq_two _ hlen⟩
    refine .inr ⟨a, b, hab, hmem a (by simp [hab]), hmem b (by simp [hab]), ?_, hs,
      fun p => by simp [lexeme, hab]⟩
    intro hb
    simp [hab, hb] at hslash

theorem scans_operator {s : String} (h : s ∈ symbols) : (operator s).Scans := by
  rcases operator_cases h with ⟨a, hs, ha, hl⟩ | ⟨a, b, hs, ha, hb, hslash, _, hl⟩
  · have htext : a.toString = s := by
      rw [← String.toList_inj]
      simp [hs]
    refine scans_of_firstPiece hl hs ?_
    intro rest hrest
    rw [List.nil_append, firstPiece_operator ha, htext]
    · rfl
    · intro _ hr
      exact absurd (hrest _ hr) (by decide)
  · intro p rest hrest
    have hr : rest.head? ≠ some '/' := fun hr => absurd (hrest _ hr) (by decide)
    have hfirst : firstPiece a (b :: rest) = _ := firstPiece_operator ha fun _ => by
      simpa using hslash
    change scan p (s.toList ++ rest) = _
    rw [hs, hl, List.cons_append, List.cons_append, List.nil_append, scan_token hfirst,
      List.take_zero, List.drop_zero, Position.after_cons, Position.after_nil,
      scan_token (firstPiece_operator hb fun _ => hr)]
    change _ = Scan.mk ([_, _] ++ (scan (p.after s.toList) rest).tokens)
      (scan (p.after s.toList) rest).fault
    rw [hs]
    rfl

/-- Every legible word is scanned as its lexeme. -/
theorem Legible.scans {w : Word} (h : w.Legible) : w.Scans := by
  cases w with
  | keyword k => exact scans_keyword k
  | separator c => exact scans_separator h
  | operator s => exact scans_operator h
  | name x => exact scans_name h
  | digits n => exact scans_digits n
  | truth b => exact scans_truth b
  | quoted t => exact scans_quoted h

theorem token_position (w : Word) (p : Position) : (w.lexeme p).token.position = p := by
  cases w with
  | operator s =>
    simp only [lexeme]
    split <;> rfl
  | _ => rfl

/-- The tokens of a word are joined to its lexeme. -/
theorem Legible.lexemes_tokens {w : Word} (h : w.Legible) (p : Position) :
    lexemes (w.lexeme p).tokens = [w.lexeme p] := by
  cases w with
  | operator s =>
    rcases operator_cases h with ⟨a, _, _, hl⟩ | ⟨a, b, hs, _, _, _, hc, hl⟩
    · rw [hl]
      rfl
    · have htext : a.toString ++ b.toString = s := by
        rw [← String.toList_inj]
        simp [hs]
      have hoffset : (p.step a).offset = p.offset + 1 := by
        simp only [Position.step]
        split <;> rfl
      rw [hl]
      apply lexemes_cons_of_joins
      have hcontains : compoundOperators.contains (a.toString ++ b.toString) := by
        rw [htext]
        exact List.contains_iff_mem.mpr hc
      simp only [Token.joins, hoffset, hcontains, beq_self_eq_true, Bool.and_self]
  | _ => rfl

end Word

/-- The lexemes of words with a space between them, the first one at `p`. -/
def lexemesAt (p : Position) : List Word → List Lexeme
  | [] => []
  | w :: ws => w.lexeme p :: lexemesAt ((p.after w.text.toList).step ' ') ws

/-- The text of words with a space between them. -/
def spacedText (ws : List Word) : String := " ".intercalate (ws.map Word.text)

theorem toList_spacedText_cons (w : Word) (ws : List Word) :
    (spacedText (w :: ws)).toList =
      w.text.toList ++ if ws = [] then [] else ' ' :: (spacedText ws).toList := by
  cases ws with
  | nil => simp [spacedText]
  | cons v ws => simp [spacedText, List.intercalate]

theorem scan_space (p : Position) (cs : List Char) : scan p (' ' :: cs) = scan (p.step ' ') cs := by
  have h : firstPiece ' ' cs = .ok (.gap, 0) := rfl
  rw [scan, h]
  rfl

/-- Legible words with spaces between them are scanned as their lexemes. -/
theorem scan_spacedText {ws : List Word} (h : ∀ w ∈ ws, w.Legible) (p : Position) :
    ∃ q, scan p (spacedText ws).toList =
      ⟨(lexemesAt p ws).flatMap Lexeme.tokens ++ [⟨.eof, "", q⟩], none⟩ := by
  induction ws generalizing p with
  | nil => exact ⟨p, by rw [scan.eq_def]; rfl⟩
  | cons w ws ih =>
    have hw := (h w (by simp)).scans
    rw [toList_spacedText_cons]
    cases ws with
    | nil =>
      rw [if_pos rfl, hw p [] (by simp [Spaced]), scan]
      exact ⟨p.after w.text.toList, by simp [lexemesAt]⟩
    | cons v ws =>
      obtain ⟨q, hq⟩ := ih (fun u hu => h u (by simp [hu])) ((p.after w.text.toList).step ' ')
      rw [if_neg (by simp), hw p _ (by simp [Spaced]), scan_space, hq]
      exact ⟨q, by simp only [lexemesAt, List.flatMap_cons, List.append_assoc]⟩

theorem offset_after (p : Position) (cs : List Char) :
    (p.after cs).offset = p.offset + cs.length := by
  induction cs generalizing p with
  | nil => rfl
  | cons c cs ih =>
    have hstep : (p.step c).offset = p.offset + 1 := by
      simp only [Position.step]
      split <;> rfl
    rw [Position.after_cons, ih, hstep, List.length_cons]
    omega

/-- What ends a word does not touch what follows the next space. -/
theorem Word.Legible.not_joins {w : Word} (h : w.Legible) {p : Position} {a b : Token}
    (ha : a ∈ (w.lexeme p).tokens.getLast?)
    (hb : b.position = (p.after w.text.toList).step ' ') : ¬ a.joins b := by
  intro hj
  have hoffset : b.position.offset = a.position.offset + 1 := by
    simp only [Token.joins, Bool.and_eq_true, beq_iff_eq] at hj
    exact hj.1.2
  have hkind := (Token.kind_of_joins hj).1
  have hspace :
      ((p.after w.text.toList).step ' ').offset = p.offset + w.text.toList.length + 1 := by
    rw [← offset_after]
    rfl
  rw [hb, hspace] at hoffset
  cases w with
  | operator s =>
    rcases Word.operator_cases h with ⟨c, hs, _, hl⟩ | ⟨c, d, hs, _, _, _, _, hl⟩
    · rw [hl] at ha
      obtain rfl : Token.mk .operator s p = a := by simpa [Lexeme.tokens] using ha
      simp [Word.text, hs] at hoffset
    · rw [hl] at ha
      obtain rfl : Token.mk .operator d.toString (p.step c) = a := by
        simpa [Lexeme.tokens] using ha
      have hstep : (p.step c).offset = p.offset + 1 := offset_after p [c]
      simp [Word.text, hs, hstep] at hoffset
  | _ =>
    obtain rfl := Option.some.inj ha
    exact absurd hkind (by simp [Word.lexeme])

/-- The lexemes of words with spaces between them are the words. -/
theorem lexemes_lexemesAt {ws : List Word} (h : ∀ w ∈ ws, w.Legible) (p : Position) :
    lexemes ((lexemesAt p ws).flatMap Lexeme.tokens) = lexemesAt p ws := by
  induction ws generalizing p with
  | nil => rfl
  | cons w ws ih =>
    have hw := h w (by simp)
    rw [lexemesAt, List.flatMap_cons, lexemes_append, hw.lexemes_tokens,
      ih fun u hu => h u (by simp [hu])]
    · rfl
    · intro a ha b hb
      cases ws with
      | nil => simp [lexemesAt] at hb
      | cons v ws =>
        obtain rfl : (v.lexeme ((p.after w.text.toList).step ' ')).token = b := by
          simpa [lexemesAt, Lexeme.tokens] using hb
        exact hw.not_joins ha (v.token_position _)

/-- The place of the word that follows the words `ws`. -/
def Position.afterWords (p : Position) (ws : List Word) : Position :=
  ws.foldl (fun p w => (p.after w.text.toList).step ' ') p

theorem lexemesAt_append (p : Position) (ws vs : List Word) :
    lexemesAt p (ws ++ vs) = lexemesAt p ws ++ lexemesAt (p.afterWords ws) vs := by
  induction ws generalizing p with
  | nil => rfl
  | cons w ws ih => rw [List.cons_append, lexemesAt, ih]; rfl

end ImpAsm

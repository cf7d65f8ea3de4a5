import ImpAsm.Proofs.Source.Words

namespace ImpAsm

/-- The place behind the characters that a text starts with, said by counting: its line has one more
than the line feeds, and its column one more than the characters behind the last of them. -/
def Position.behind (before : List Char) : Position :=
  ⟨before.length, before.count '\n' + 1, (before.reverse.takeWhile (· ≠ '\n')).length + 1⟩

theorem Position.behind_step (before : List Char) (c : Char) :
    (behind before).step c = behind (before ++ [c]) := by
  rw [step]
  split
  · next hc => simp [behind, hc]
  · next hc => simp [behind, hc]

/-- Stepping over the characters one by one keeps the counts. -/
theorem Position.behind_after (before cs : List Char) :
    (behind before).after cs = behind (before ++ cs) := by
  induction cs generalizing before with
  | nil => simp
  | cons c cs ih => rw [after_cons, behind_step, ih, List.append_assoc, List.singleton_append]

/-- A token as it is written; a string has its quotes. -/
def Token.source (t : Token) : List Char :=
  if t.kind = .str then '"' :: (t.text.toList ++ ['"']) else t.text.toList

/-- What may stand before the characters `rest` without being a token: white space, and remarks that
run up to the end of their line. -/
inductive IsGap : List Char → List Char → Prop where
  | nil {rest : List Char} : IsGap [] rest
  | blank {c : Char} {gap rest : List Char} (hc : isBlank c) (h : IsGap gap rest) :
      IsGap (c :: gap) rest
  | remark {body gap rest : List Char} (hbody : '\n' ∉ body)
      (hend : ∀ c ∈ (gap ++ rest).head?, c = '\n') (h : IsGap gap rest) :
      IsGap ('/' :: '/' :: (body ++ gap)) rest

/-- A run of characters of one class that cannot be made longer. -/
structure IsRun (P : Char → Bool) (before run after : List Char) : Prop where
  ne_nil : run ≠ []
  all : ∀ c ∈ run, P c
  before : ∀ c ∈ before.getLast?, P c = false
  after : ∀ c ∈ after.head?, P c = false

/-- What is known of a token that stands between `before` and `after`. -/
def Token.Stands (before after : List Char) (t : Token) : Prop :=
  match t.kind with
  | .int => IsRun Char.isDigit before t.text.toList after
  | .keyword k => IsRun Char.isAlpha before t.text.toList after ∧ t.text = k.spelling
  | .bool => IsRun Char.isAlpha before t.text.toList after ∧ (t.text = "true" ∨ t.text = "false")
  | .ident =>
    IsRun Char.isAlpha before t.text.toList after ∧ (∀ k : Keyword, t.text ≠ k.spelling) ∧
      t.text ≠ "true" ∧ t.text ≠ "false"
  | .str => '"' ∉ t.text.toList
  | .separator => ∃ c ∈ separators, t.text = c.toString
  | .operator => ∃ c ∈ operators, t.text = c.toString
  | .eof | .unknown => False

/-- No run of digits or letters goes on from the end of one text into another. -/
structure Apart (before after : List Char) : Prop where
  digits : ∀ a ∈ before.getLast?, ∀ b ∈ after.head?, a.isDigit → b.isDigit = false
  letters : ∀ a ∈ before.getLast?, ∀ b ∈ after.head?, a.isAlpha → b.isAlpha = false

theorem apart_nil (after : List Char) : Apart [] after := ⟨by simp, by simp⟩

theorem Apart.append {piece after : List Char} (h : Apart piece after) (hp : piece ≠ [])
    (before : List Char) : Apart (before ++ piece) after := by
  have hlast : (before ++ piece).getLast? = piece.getLast? := by
    rw [List.getLast?_append, List.getLast?_eq_some_getLast hp, Option.some_or]
  exact ⟨by rw [hlast]; exact h.digits, by rw [hlast]; exact h.letters⟩

/-- A character that is neither a digit nor a letter ends every run. -/
theorem apart_of_last {piece : List Char} {c : Char} (hc : c.isDigit = false ∧ c.isAlpha = false)
    (hlast : piece.getLast? = some c) (after : List Char) : Apart piece after := by
  constructor
  · intro a ha b _ hdigit
    obtain rfl : c = a := by simpa [hlast] using ha
    simp [hc.1] at hdigit
  · intro a ha b _ hletter
    obtain rfl : c = a := by simpa [hlast] using ha
    simp [hc.2] at hletter

theorem apart_of_head {after : List Char}
    (h : ∀ c ∈ after.head?, c.isDigit = false ∧ c.isAlpha = false) (piece : List Char) :
    Apart piece after :=
  ⟨fun _ _ b hb _ => (h b hb).1, fun _ _ b hb _ => (h b hb).2⟩

theorem isDigit_eq_false_of_isBlank {c : Char} (h : isBlank c) :
    c.isDigit = false ∧ c.isAlpha = false := by
  constructor
  · rw [Bool.eq_false_iff]
    intro hc
    simp [isBlank_eq_false (.inr hc)] at h
  · rw [Bool.eq_false_iff]
    intro hc
    simp [isBlank_eq_false (.inl hc)] at h

theorem take_takeWhile (P : Char → Bool) (cs : List Char) :
    cs.take (cs.takeWhile P).length = cs.takeWhile P ∧
      cs.drop (cs.takeWhile P).length = cs.dropWhile P := by
  have h : cs.takeWhile P ++ cs.dropWhile P = cs := List.takeWhile_append_dropWhile
  constructor
  · have htake := congrArg (List.take (cs.takeWhile P).length) h
    rw [List.take_left] at htake
    exact htake.symm
  · have hdrop := congrArg (List.drop (cs.takeWhile P).length) h
    rw [List.drop_left] at hdrop
    exact hdrop.symm

theorem head?_dropWhile (P : Char → Bool) (cs : List Char) :
    ∀ c ∈ (cs.dropWhile P).head?, P c = false := by
  intro c hc
  have h := List.head?_dropWhile_not P cs
  rw [Option.mem_def.mp hc] at h
  exact h

theorem not_mem_takeWhile_ne (c : Char) (cs : List Char) : c ∉ cs.takeWhile (· ≠ c) := by
  intro hmem
  have hne := List.all_eq_true.mp List.all_takeWhile c hmem
  simp at hne

/-- What stands behind the body of a string that does not fill the text is the closing quote. -/
theorem take_closed {cs : List Char} (h : (cs.takeWhile (· ≠ '"')).length < cs.length) :
    '"' ∉ cs.takeWhile (· ≠ '"') ∧
      cs.take ((cs.takeWhile (· ≠ '"')).length + 1) = cs.takeWhile (· ≠ '"') ++ ['"'] := by
  refine ⟨not_mem_takeWhile_ne '"' cs, ?_⟩
  have hsplit : cs.takeWhile (· ≠ '"') ++ cs.dropWhile (· ≠ '"') = cs :=
    List.takeWhile_append_dropWhile
  cases hrest : cs.dropWhile (· ≠ '"') with
  | nil =>
    rw [hrest, List.append_nil] at hsplit
    simp only [hsplit, Nat.lt_irrefl] at h
  | cons d rest =>
    have hhead := head?_dropWhile (· ≠ '"') cs d (by rw [hrest]; rfl)
    obtain rfl : d = '"' := by simpa using hhead
    have htake := congrArg (List.take ((cs.takeWhile (· ≠ '"')).length + 1)) hsplit
    rw [hrest, List.take_length_add_append] at htake
    exact htake.symm

/-- The digits or letters that a text starts with are a run that cannot be made longer. -/
theorem isRun_takeWhile {P : Char → Bool} {before cs : List Char} {c : Char} (hc : P c)
    (hbefore : ∀ a ∈ before.getLast?, P a = false) :
    IsRun P before (c :: cs.takeWhile P) (cs.dropWhile P) where
  ne_nil := by simp
  all := by
    intro d hd
    rcases List.mem_cons.mp hd with rfl | hd
    · exact hc
    · exact List.all_eq_true.mp List.all_takeWhile d hd
  before := hbefore
  after := head?_dropWhile P cs

/-- A word has the kind of its entry in the table of reserved words. -/
theorem stands_word {before after : List Char} {w : String} {p : Position}
    (h : IsRun Char.isAlpha before w.toList after) :
    (Token.mk (wordKind w) w p).Stands before after := by
  unfold wordKind
  cases hk : Keyword.ofSpelling? w with
  | some k =>
    have hspelling : k.spelling = w := by simpa using List.find?_some hk
    exact ⟨h, hspelling.symm⟩
  | none =>
    have hnone : ∀ k : Keyword, w ≠ k.spelling := by
      intro k hkw
      have hall := List.find?_eq_none.mp hk k (by cases k <;> decide)
      simp [hkw] at hall
    by_cases hw : w = "true" ∨ w = "false"
    · simp only [if_pos hw]
      exact ⟨h, hw⟩
    · simp only [if_neg hw]
      obtain ⟨ht, hf⟩ := not_or.mp hw
      exact ⟨h, hnone, ht, hf⟩

/-- A piece of a text that separates tokens goes before any gap. -/
theorem firstPiece_gap {c : Char} {cs : List Char} {m : Nat}
    (h : firstPiece c cs = .ok (.gap, m)) :
    Apart (c :: cs.take m) (cs.drop m) ∧
      ∀ gap rest, cs.drop m = gap ++ rest → IsGap gap rest →
        IsGap (c :: cs.take m ++ gap) rest := by
  revert h
  fun_cases firstPiece c cs with
  | case1 hc =>
    simp only [Except.ok.injEq, Prod.mk.injEq, true_and]
    rintro rfl
    refine ⟨apart_of_last (c := c) (isDigit_eq_false_of_isBlank hc) rfl _, ?_⟩
    intro gap rest _ hgap
    exact .blank hc hgap
  | case7 hb hd ha hq hs hslash =>
    simp only [Except.ok.injEq, Prod.mk.injEq, true_and]
    rintro rfl
    obtain ⟨rfl, hhead⟩ := hslash
    obtain ⟨cs, rfl⟩ := List.head?_eq_some_iff.mp hhead
    obtain ⟨htake, hdrop⟩ := take_takeWhile (· ≠ '\n') ('/' :: cs)
    have hend : ∀ c ∈ (('/' :: cs).dropWhile (· ≠ '\n')).head?, c = '\n' := by
      intro c hc
      simpa using head?_dropWhile _ _ c hc
    rw [htake, hdrop]
    refine ⟨apart_of_head ?_ _, ?_⟩
    · intro c hc
      rw [hend c hc]
      decide
    · intro gap rest hsplit hgap
      rw [hsplit] at hend
      have hbody : ('/' :: cs).takeWhile (· ≠ '\n') = '/' :: cs.takeWhile (· ≠ '\n') := by simp
      rw [hbody]
      exact .remark (not_mem_takeWhile_ne '\n' cs) hend hgap
  | _ => simp

/-- A piece of a text that is a token is written as the token, and what is known of the token
holds. -/
theorem firstPiece_stands {before : List Char} {c : Char} {cs : List Char} {k : TokenKind}
    {text : String} {m : Nat} (hbefore : Apart before (c :: cs))
    (h : firstPiece c cs = .ok (.token k text, m)) (p : Position) :
    (Token.mk k text p).source = c :: cs.take m ∧
      (Token.mk k text p).Stands before (cs.drop m) ∧ Apart (c :: cs.take m) (cs.drop m) := by
  revert h
  fun_cases firstPiece c cs with
  | case2 hb hd run =>
    simp only [Except.ok.injEq, Prod.mk.injEq, Piece.token.injEq]
    rintro ⟨⟨rfl, rfl⟩, rfl⟩
    obtain ⟨htake, hdrop⟩ := take_takeWhile Char.isDigit cs
    have hrun :
        IsRun Char.isDigit before (c :: cs.takeWhile Char.isDigit) (cs.dropWhile Char.isDigit) := by
      refine isRun_takeWhile hd ?_
      intro a ha
      rw [Bool.eq_false_iff]
      intro hdigit
      simp [hbefore.digits a ha c rfl hdigit] at hd
    rw [htake, hdrop]
    refine ⟨by simp [Token.source, run], by simpa [Token.Stands, run] using hrun, ?_⟩
    constructor
    · exact fun _ _ b hb _ => hrun.after b hb
    · intro a ha b _ hletter
      have hdigit := hrun.all a (List.mem_of_getLast? ha)
      simp [isDigit_eq_false hletter] at hdigit
  | case3 hb hd ha run word =>
    simp only [Except.ok.injEq, Prod.mk.injEq, Piece.token.injEq]
    rintro ⟨⟨rfl, rfl⟩, rfl⟩
    obtain ⟨htake, hdrop⟩ := take_takeWhile Char.isAlpha cs
    have hrun :
        IsRun Char.isAlpha before (c :: cs.takeWhile Char.isAlpha) (cs.dropWhile Char.isAlpha) := by
      refine isRun_takeWhile ha ?_
      intro a hmem
      rw [Bool.eq_false_iff]
      intro hletter
      simp [hbefore.letters a hmem c rfl hletter] at ha
    rw [htake, hdrop]
    refine ⟨?_, stands_word (by simpa [word, run] using hrun), ?_⟩
    · have hstr : wordKind word ≠ .str := by
        unfold wordKind
        split
        · simp
        · split <;> simp
      rw [Token.source, if_neg hstr, String.toList_ofList]
    · constructor
      · intro a hmem b _ hdigit
        have hletter := hrun.all a (List.mem_of_getLast? hmem)
        simp [isDigit_eq_false hletter] at hdigit
      · exact fun _ _ b hb _ => hrun.after b hb
  | case4 hb hd ha hq body hlen =>
    simp only [Except.ok.injEq, Prod.mk.injEq, Piece.token.injEq]
    rintro ⟨⟨rfl, rfl⟩, rfl⟩
    obtain ⟨hquote, htake⟩ : '"' ∉ body ∧ cs.take (body.length + 1) = body ++ ['"'] :=
      take_closed hlen
    rw [htake]
    refine ⟨by simp [Token.source, hq], by simpa [Token.Stands] using hquote, ?_⟩
    refine apart_of_last (c := '"') (by decide) ?_ _
    rw [← List.cons_append, List.getLast?_concat]
  | case6 hb hd ha hq hs =>
    simp only [Except.ok.injEq, Prod.mk.injEq, Piece.token.injEq]
    rintro ⟨⟨rfl, rfl⟩, rfl⟩
    have hclass : c.isDigit = false ∧ c.isAlpha = false :=
      ⟨Bool.eq_false_iff.mpr hd, Bool.eq_false_iff.mpr ha⟩
    exact ⟨by simp [Token.source], ⟨c, hs, rfl⟩, apart_of_last hclass rfl _⟩
  | case8 hb hd ha hq hs hslash ho =>
    simp only [Except.ok.injEq, Prod.mk.injEq, Piece.token.injEq]
    rintro ⟨⟨rfl, rfl⟩, rfl⟩
    have hclass : c.isDigit = false ∧ c.isAlpha = false :=
      ⟨Bool.eq_false_iff.mpr hd, Bool.eq_false_iff.mpr ha⟩
    exact ⟨by simp [Token.source], ⟨c, ho, rfl⟩, apart_of_last hclass rfl _⟩
  | _ => simp

/-- The characters `cs` that stand behind `before` are gaps and the tokens `ts`. -/
inductive Rebuilds : List Char → List Char → List Token → Prop where
  | done {before gap : List Char} (hgap : IsGap gap []) :
      Rebuilds before gap [⟨.eof, "", .behind (before ++ gap)⟩]
  | token {before gap after : List Char} {t : Token} {ts : List Token}
      (hgap : IsGap gap (t.source ++ after)) (hp : t.position = .behind (before ++ gap))
      (ht : t.Stands (before ++ gap) after)
      (h : Rebuilds (before ++ gap ++ t.source) after ts) :
      Rebuilds before (gap ++ (t.source ++ after)) (t :: ts)

/-- A piece that may stand before every gap of a text makes its first gap longer. -/
theorem Rebuilds.append_gap {before piece cs : List Char} {ts : List Token}
    (h : Rebuilds (before ++ piece) cs ts)
    (hpiece : ∀ gap rest, cs = gap ++ rest → IsGap gap rest → IsGap (piece ++ gap) rest) :
    Rebuilds before (piece ++ cs) ts := by
  cases h with
  | done hgap =>
    rw [List.append_assoc]
    exact .done (hpiece _ [] (by simp) hgap)
  | @token _ gap after t ts hgap hp ht h =>
    rw [← List.append_assoc]
    rw [List.append_assoc before piece gap] at hp ht h
    exact .token (hpiece gap _ rfl hgap) hp ht h

/-- The tokens of a text rebuild it. -/
theorem scan_rebuilds {before cs : List Char} {p : Position} (hp : p = .behind before)
    (hbefore : Apart before cs) (h : (scan p cs).fault = none) :
    Rebuilds before cs (scan p cs).tokens := by
  have place {before : List Char} {p : Position} (hp : p = .behind before) (piece : List Char) :
      p.after piece = .behind (before ++ piece) := by
    rw [hp, Position.behind_after]
  fun_induction scan p cs generalizing before with
  | case1 p =>
    have hdone : Rebuilds before [] [⟨.eof, "", .behind (before ++ [])⟩] := .done .nil
    simpa [hp] using hdone
  | case2 p c cs fault hf => simp at h
  | case3 p c cs m hf ih =>
    obtain ⟨hapart, hgap⟩ := firstPiece_gap hf
    have hrest := ih (place hp _) (hapart.append (by simp) before) h
    have hwhole := hrest.append_gap hgap
    rwa [List.cons_append, List.take_append_drop] at hwhole
  | case4 p c cs k text m hf tail =>
    rename_i ih
    obtain ⟨hsource, hstands, hapart⟩ := firstPiece_stands hbefore hf p
    have hrest := ih (place hp _) (hapart.append (by simp) before) h
    have hwhole : Rebuilds before ([] ++ ((Token.mk k text p).source ++ cs.drop m))
        (⟨k, text, p⟩ :: tail.tokens) := by
      refine .token .nil ?_ ?_ ?_
      · simpa using hp
      · simpa using hstands
      · rw [List.append_nil, hsource]
        exact hrest
    rwa [hsource, List.nil_append, List.cons_append, List.take_append_drop] at hwhole

/-- A text with a gap before each of its tokens. -/
def partsText (parts : List (List Char × Token)) : List Char :=
  parts.flatMap fun part => part.1 ++ part.2.source

@[simp] theorem partsText_cons (part : List Char × Token) (parts : List (List Char × Token)) :
    partsText (part :: parts) = part.1 ++ (part.2.source ++ partsText parts) := by
  simp [partsText]

/-- The gaps and tokens of a text as a list. -/
theorem Rebuilds.parts {start cs : List Char} {ts : List Token} (h : Rebuilds start cs ts) :
    ∃ parts last, cs = partsText parts ++ last ∧ IsGap last [] ∧
      ts = parts.map (·.2) ++ [⟨.eof, "", .behind (start ++ cs)⟩] ∧
      ∀ before gap t after, parts = before ++ (gap, t) :: after →
        IsGap gap (t.source ++ (partsText after ++ last)) ∧
        t.position = .behind (start ++ (partsText before ++ gap)) ∧
        t.Stands (start ++ (partsText before ++ gap)) (partsText after ++ last) := by
  induction h with
  | @done before gap hgap => exact ⟨[], gap, rfl, hgap, rfl, by simp⟩
  | @token start gap after t ts hgap hp ht h ih =>
    obtain ⟨parts, last, rfl, hlast, rfl, hall⟩ := ih
    refine ⟨(gap, t) :: parts, last, by simp, hlast, by simp, ?_⟩
    intro before gap' t' after hsplit
    cases before with
    | nil =>
      obtain ⟨⟨rfl, rfl⟩, rfl⟩ : (gap = gap' ∧ t = t') ∧ parts = after := by simpa using hsplit
      exact ⟨hgap, hp, ht⟩
    | cons part before =>
      obtain ⟨rfl, htail⟩ := List.cons.inj hsplit
      have hpart := hall before gap' t' after htail
      simpa using hpart

/-- A text that is split into tokens is its tokens with gaps between them. Only the last token is an
end of input, and it stands at the end. Each token stands where its characters start, runs of digits
and letters are taken whole, and no token is of an unknown kind. -/
theorem tokenize_rebuilds {s : String} {ts : List Token} (h : tokenize s = .ok ts) :
    ∃ parts last, s.toList = partsText parts ++ last ∧ IsGap last [] ∧
      ts = parts.map (·.2) ++ [⟨.eof, "", .behind s.toList⟩] ∧
      (∀ t ∈ parts.map (·.2), t.kind ≠ .eof ∧ t.kind ≠ .unknown) ∧
      ∀ before gap t after, parts = before ++ (gap, t) :: after →
        IsGap gap (t.source ++ (partsText after ++ last)) ∧
        t.position = .behind (partsText before ++ gap) ∧
        t.Stands (partsText before ++ gap) (partsText after ++ last) := by
  have hs := tokenize_eq_ok.mp h
  have hfault : (scan .start s.toList).fault = none := by rw [hs]
  have hstart : Position.start = .behind [] := rfl
  have hrebuilds := scan_rebuilds hstart (apart_nil _) hfault
  rw [hs] at hrebuilds
  obtain ⟨parts, last, hsource, hlast, hts, hall⟩ := hrebuilds.parts
  refine ⟨parts, last, hsource, hlast, hts, ?_, hall⟩
  intro t ht
  obtain ⟨⟨gap, t⟩, hmem, rfl⟩ := List.mem_map.mp ht
  obtain ⟨before, after, hsplit⟩ := List.append_of_mem hmem
  have hstands := (hall before gap t after hsplit).2.2
  rw [Token.Stands] at hstands
  constructor
  · intro hk
    rw [show t.kind = .eof from hk] at hstands
    exact hstands
  · intro hk
    rw [show t.kind = .unknown from hk] at hstands
    exact hstands

/-- A string over two lines, a remark outside ASCII, and a name that touches a number. -/
def notedText : String := "\"a\n\" // é\nx12 "

theorem rebuilds_notedText :
    ∃ parts last, notedText.toList = partsText parts ++ last ∧ IsGap last [] ∧
      parts.map (·.2) =
        [⟨.str, "a\n", ⟨0, 1, 1⟩⟩, ⟨.ident, "x", ⟨10, 3, 1⟩⟩, ⟨.int, "12", ⟨11, 3, 2⟩⟩] := by
  have h : tokenize notedText = .ok ([⟨.str, "a\n", ⟨0, 1, 1⟩⟩, ⟨.ident, "x", ⟨10, 3, 1⟩⟩,
      ⟨.int, "12", ⟨11, 3, 2⟩⟩] ++ [⟨.eof, "", ⟨14, 3, 5⟩⟩]) := by cbv
  obtain ⟨parts, last, hs, hlast, hts, _, _⟩ := tokenize_rebuilds h
  exact ⟨parts, last, hs, hlast, (List.append_inj_left' hts rfl).symm⟩

end ImpAsm

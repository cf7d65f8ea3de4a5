import ImpAsm.Proofs.Source.Words
import ImpAsm.Proofs.Token.Likeness

namespace ImpAsm

theorem takeWhile_append_newline {P : Char → Bool} (hP : P '\n' = false) (cs ds : List Char) :
    (cs ++ '\n' :: ds).takeWhile P = cs.takeWhile P := by
  induction cs with
  | nil => simp [hP]
  | cons c cs ih =>
    by_cases hc : P c
    · simp [hc, ih]
    · simp [hc]

/-- A string that is closed in a text is closed there whatever follows the text. -/
theorem takeWhile_append_closed {P : Char → Bool} {cs : List Char}
    (h : (cs.takeWhile P).length < cs.length) (ds : List Char) :
    (cs ++ ds).takeWhile P = cs.takeWhile P := by
  rw [List.takeWhile_append, if_neg (Nat.ne_of_lt h)]

/-- The first piece of a text is the same with a new line behind the text. -/
theorem firstPiece_append {c : Char} {cs : List Char} {piece : Piece} {m : Nat}
    (h : firstPiece c cs = .ok (piece, m)) (ds : List Char) :
    firstPiece c (cs ++ '\n' :: ds) = .ok (piece, m) ∧ m ≤ cs.length := by
  have hrun (P : Char → Bool) : (cs.takeWhile P).length ≤ cs.length :=
    (List.takeWhile_prefix P).length_le
  revert h
  fun_cases firstPiece c cs with
  | case1 hb =>
    rintro ⟨⟩
    exact ⟨by rw [firstPiece, if_pos hb], Nat.zero_le _⟩
  | case2 hb hd run =>
    rintro ⟨⟩
    refine ⟨?_, hrun _⟩
    rw [firstPiece, if_neg hb, if_pos hd, takeWhile_append_newline rfl]
  | case3 hb hd ha run word =>
    rintro ⟨⟩
    refine ⟨?_, hrun _⟩
    rw [firstPiece, if_neg hb, if_neg hd, if_pos ha, takeWhile_append_newline rfl]
  | case4 hb hd ha hq body hlen =>
    rintro ⟨⟩
    refine ⟨?_, hlen⟩
    have hlen' : body.length < (cs ++ '\n' :: ds).length := by
      rw [List.length_append]
      omega
    rw [firstPiece, if_neg hb, if_neg hd, if_neg ha, if_pos hq, takeWhile_append_closed hlen,
      if_pos hlen']
  | case6 hb hd ha hq hs =>
    rintro ⟨⟩
    exact ⟨by rw [firstPiece, if_neg hb, if_neg hd, if_neg ha, if_neg hq, if_pos hs], Nat.zero_le _⟩
  | case7 hb hd ha hq hs hslash =>
    rintro ⟨⟩
    refine ⟨?_, hrun _⟩
    obtain ⟨ds', rfl⟩ := List.head?_eq_some_iff.mp hslash.2
    rw [firstPiece, if_neg hb, if_neg hd, if_neg ha, if_neg hq, if_neg hs, if_pos ⟨hslash.1, rfl⟩,
      takeWhile_append_newline rfl]
  | case8 hb hd ha hq hs hslash ho =>
    rintro ⟨⟩
    have hslash' : ¬ (c = '/' ∧ (cs ++ '\n' :: ds).head? = some '/') := by
      cases cs with
      | nil => simp
      | cons d cs => exact hslash
    refine ⟨?_, Nat.zero_le _⟩
    rw [firstPiece, if_neg hb, if_neg hd, if_neg ha, if_neg hq, if_neg hs, if_neg hslash',
      if_pos ho]
  | _ => simp

theorem scan_newline (p : Position) (cs : List Char) :
    scan p ('\n' :: cs) = scan (p.step '\n') cs := by
  have h : firstPiece '\n' cs = .ok (.gap, 0) := rfl
  rw [scan, h]
  rfl

/-- The tokens of a text stay as they are if a new line and another text follow it; only the end of
the input makes room for the tokens of the second text. -/
theorem scan_append {p : Position} {cs : List Char} (h : (scan p cs).fault = none) :
    ∃ us q, (scan p cs).tokens = us ++ [⟨.eof, "", q⟩] ∧ ∀ ds, scan p (cs ++ '\n' :: ds) =
      ⟨us ++ (scan (p.after (cs ++ ['\n'])) ds).tokens,
        (scan (p.after (cs ++ ['\n'])) ds).fault⟩ := by
  have place (p : Position) (c : Char) (cs : List Char) (m : Nat) :
      (p.after (c :: cs.take m)).after (cs.drop m ++ ['\n']) = p.after (c :: cs ++ ['\n']) := by
    rw [← Position.after_append, ← List.append_assoc, List.cons_append, List.take_append_drop]
  fun_induction scan p cs with
  | case1 p => exact ⟨[], p, rfl, scan_newline p⟩
  | case2 p c cs fault hf => simp at h
  | case3 p c cs m hf ih =>
    obtain ⟨us, q, htokens, happend⟩ := ih h
    refine ⟨us, q, htokens, ?_⟩
    intro ds
    obtain ⟨hpiece, hlen⟩ := firstPiece_append hf ds
    rw [List.cons_append, scan, hpiece, ← place p c cs m, ← happend,
      ← List.take_append_of_le_length hlen, ← List.drop_append_of_le_length hlen]
  | case4 p c cs k text m hf tail ih =>
    obtain ⟨us, q, htokens, happend⟩ := ih h
    refine ⟨⟨k, text, p⟩ :: us, q, congrArg (List.cons _) htokens, ?_⟩
    intro ds
    obtain ⟨hpiece, hlen⟩ := firstPiece_append hf ds
    rw [List.cons_append, scan_token hpiece, List.take_append_of_le_length hlen,
      List.drop_append_of_le_length hlen, happend, place]
    rfl

/-- Tokens with `n` more characters before the second one. -/
def Shifted (n : Nat) (a b : Token) : Prop := b.position.offset = a.position.offset + n

/-- Where a text stands changes nothing but the positions of its tokens. -/
theorem scan_shifted {n : Nat} {p q : Position} (h : q.offset = p.offset + n) (cs : List Char) :
    List.Forall₂ (Token.Like (Shifted n)) (scan p cs).tokens (scan q cs).tokens ∧
      ((scan p cs).fault = none ↔ (scan q cs).fault = none) := by
  have hafter {p q : Position} (h : q.offset = p.offset + n) (ds : List Char) :
      (q.after ds).offset = (p.after ds).offset + n := by
    rw [offset_after, offset_after]
    omega
  fun_induction scan p cs generalizing q with
  | case1 p =>
    rw [scan]
    exact ⟨.cons ⟨rfl, rfl, h⟩ .nil, Iff.rfl⟩
  | case2 p c cs fault hf =>
    rw [scan, hf]
    exact ⟨.nil, by simp⟩
  | case3 p c cs more hf ih =>
    rw [scan, hf]
    exact ih (hafter h _)
  | case4 p c cs k text more hf tail =>
    rename_i ih
    rw [scan, hf]
    obtain ⟨htokens, hfault⟩ := ih (hafter h _)
    exact ⟨.cons ⟨rfl, rfl, h⟩ htokens, hfault⟩

end ImpAsm

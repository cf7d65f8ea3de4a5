import ImpAsm.Error

namespace ImpAsm

theorem tokenize_eq_ok {s : String} {ts : List Token} :
    tokenize s = .ok ts ↔ scan .start s.toList = ⟨ts, none⟩ := by
  unfold tokenize Scan.result
  cases hs : scan .start s.toList with
  | mk tokens fault =>
    cases fault with
    | none => simp
    | some f => simp

/-- What holds of every piece of a text holds of all its tokens. -/
theorem scan_forall {P : TokenKind → String → Prop} (heof : P .eof "")
    (h : ∀ {c cs k text m}, firstPiece c cs = .ok (.token k text, m) → P k text) (p : Position)
    (cs : List Char) : ∀ t ∈ (scan p cs).tokens, P t.kind t.text := by
  fun_induction scan p cs with
  | case1 p => simpa using heof
  | case2 p c cs fault hf => simp
  | case3 p c cs more hf ih => exact ih
  | case4 p c cs k text more hf tail ih =>
    intro t ht
    rcases List.mem_cons.mp ht with rfl | ht
    · exact h hf
    · exact ih t ht

theorem wordKind_ne_eof (w : String) : wordKind w ≠ .eof := by
  unfold wordKind
  split
  · simp
  · split <;> simp

/-- A run of letters. -/
def IsWord (w : String) : Prop := w.toList ≠ [] ∧ w.toList.all Char.isAlpha

/-- The end of the input is no piece of a text, and a name is a word that is not reserved. -/
theorem firstPiece_token {c : Char} {cs : List Char} {k : TokenKind} {text : String} {m : Nat}
    (h : firstPiece c cs = .ok (.token k text, m)) :
    k ≠ .eof ∧ (k = .ident → IsWord text ∧ wordKind text = .ident) := by
  revert h
  fun_cases firstPiece c cs with
  | case3 _ _ ha run word =>
    simp only [Except.ok.injEq, Prod.mk.injEq, Piece.token.injEq]
    intro h
    obtain ⟨⟨rfl, rfl⟩, _⟩ := h
    refine ⟨wordKind_ne_eof _, fun hk => ⟨⟨by simp [word], ?_⟩, hk⟩⟩
    rw [String.toList_ofList, List.all_cons, ha, List.all_takeWhile]
    rfl
  | _ => simp +contextual [eq_comm]

/-- The tokens of a text end in the only end of input among them. -/
theorem scan_getLast {p : Position} {cs : List Char} (h : (scan p cs).fault = none) :
    ∃ us q, (scan p cs).tokens = us ++ [⟨.eof, "", q⟩] ∧ ∀ t ∈ us, t.kind ≠ .eof := by
  fun_induction scan p cs with
  | case1 p => exact ⟨[], p, rfl, by simp⟩
  | case2 p c cs fault hf => simp at h
  | case3 p c cs more hf ih => exact ih h
  | case4 p c cs k text more hf tail ih =>
    obtain ⟨us, q, htail, hus⟩ := ih h
    refine ⟨⟨k, text, p⟩ :: us, q, congrArg (List.cons _) htail, ?_⟩
    intro t ht
    rcases List.mem_cons.mp ht with rfl | ht
    · exact (firstPiece_token hf).1
    · exact hus t ht

theorem tokenize_getLast {s : String} {ts : List Token} (h : tokenize s = .ok ts) :
    ∃ us q, ts = us ++ [⟨.eof, "", q⟩] ∧ ∀ t ∈ us, t.kind ≠ .eof := by
  have hs := tokenize_eq_ok.mp h
  have hfault : (scan .start s.toList).fault = none := by rw [hs]
  have hlast := scan_getLast hfault
  rwa [hs] at hlast

/-- Names are words that are not reserved. -/
theorem tokenize_ident {s : String} {ts : List Token} (h : tokenize s = .ok ts) :
    ∀ t ∈ ts, t.kind = .ident → IsWord t.text ∧ wordKind t.text = .ident := by
  have hs := tokenize_eq_ok.mp h
  have hall := scan_forall (P := fun k text => k = .ident → IsWord text ∧ wordKind text = .ident)
    (by simp) (fun hf => (firstPiece_token hf).2) .start s.toList
  rwa [hs] at hall

end ImpAsm

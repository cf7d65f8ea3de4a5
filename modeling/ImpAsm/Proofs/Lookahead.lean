import Mathlib.Computability.Language
import ImpAsm.Proofs.Cursor

namespace ImpAsm

/-- A single token that joins no token before it, wherever that stands. -/
def Lexeme.Loose (l : Lexeme) : Prop := l.second = none ∧ l.token.position.offset = 0

/-- A token that is not taken from a text. -/
def Lexeme.made (k : TokenKind) (text : String) : Lexeme := ⟨⟨k, text, ⟨0, 0, 0⟩⟩, none⟩

theorem Lexeme.loose_made (k : TokenKind) (text : String) : (made k text).Loose := ⟨rfl, rfl⟩

/-- Some lexemes complete `ls` to a text of the language. -/
def Viable (L : Language Lexeme) (ls : List Lexeme) : Prop :=
  ∃ ms, (∀ l ∈ ms, l.Loose) ∧ ls ++ ms ∈ L

/-- A text of the language opens `w`, and the lexeme behind it satisfies `F`. -/
def Opens (L : Language Lexeme) (F : Option Lexeme → Prop) (w ls : List Lexeme) : Prop :=
  ∃ rest, w = ls ++ rest ∧ ls ∈ L ∧ F rest.head?

/-- Whatever comes behind `ls` and the lexeme `next`, `ls` is the text of the language that opens
it. -/
def Settles (L : Language Lexeme) (F : Option Lexeme → Prop) (ls : List Lexeme)
    (next : Option Lexeme) : Prop :=
  ls ∈ L ∧ ∀ w, w.head? = next → ∀ ls', Opens L F (ls ++ w) ls' → ls' = ls

/-- `ls` can be completed to a text of the language, but nothing that starts with `ls` and the
lexeme `next` is opened by one. -/
def Breaks (L : Language Lexeme) (F : Option Lexeme → Prop) (ls : List Lexeme)
    (next : Option Lexeme) : Prop :=
  Viable L ls ∧ ∀ w, w.head? = next → ∀ ls', ¬ Opens L F (ls ++ w) ls'

/-- Every lexeme may come next. -/
def anyNext (_ : Option Lexeme) : Prop := True

/-- What starts with a text of `M` in front of `G` may follow where `F` is asked for. -/
def Continues (M : Language Lexeme) (G F : Option Lexeme → Prop) : Prop :=
  ∀ ls ∈ M, ∀ rest : List Lexeme, G rest.head? → F (ls ++ rest).head?

section Languages

variable {L M : Language Lexeme} {F G : Option Lexeme → Prop} {ls ms w : List Lexeme}

theorem Viable.mul (h : Viable L ls) (h' : Viable M []) : Viable (L * M) ls := by
  obtain ⟨ms, hms, hL⟩ := h
  obtain ⟨ns, hns, hM⟩ := h'
  refine ⟨ms ++ ns, ?_, ?_⟩
  · intro l hl
    rcases List.mem_append.mp hl with hl | hl
    · exact hms l hl
    · exact hns l hl
  · rw [← List.append_assoc]
    exact Language.append_mem_mul hL hM

theorem Viable.of_mem (h : ls ∈ L) : Viable L ls := ⟨[], by simp, by simpa using h⟩

theorem Viable.append (h : ls ∈ L) (h' : Viable M ms) : Viable (L * M) (ls ++ ms) := by
  obtain ⟨ns, hns, hM⟩ := h'
  refine ⟨ns, hns, ?_⟩
  rw [List.append_assoc]
  exact Language.append_mem_mul h hM

theorem viable_one : Viable 1 [] := .of_mem rfl

theorem Viable.mono (h : Viable L ls) (hLM : L ≤ M) : Viable M ls := by
  obtain ⟨ms, hms, hL⟩ := h
  exact ⟨ms, hms, hLM hL⟩

/-- A text of two languages in a row is opened by the first one. -/
theorem Opens.mul (h : Opens (L * M) G w ls) (hF : Continues M G F) :
    ∃ as bs w', ls = as ++ bs ∧ w = as ++ w' ∧ Opens L F w as ∧ Opens M G w' bs := by
  obtain ⟨rest, rfl, hls, hG⟩ := h
  obtain ⟨as, has, bs, hbs, rfl⟩ := Language.mem_mul.mp hls
  refine ⟨as, bs, bs ++ rest, rfl, List.append_assoc as bs rest, ?_, rest, rfl, hbs, hG⟩
  exact ⟨bs ++ rest, List.append_assoc as bs rest, has, hF bs hbs rest hG⟩

/-- The next lexeme is seen from in front of the lexemes before it. -/
theorem head?_append_congr {w' : List Lexeme} (h : w.head? = w'.head?) :
    (ls ++ w).head? = (ls ++ w').head? := by
  cases ls with
  | nil => exact h
  | cons l ls => rfl

/-- Lexemes of a kind, one by one. -/
def single (P : Lexeme → Prop) : Language Lexeme := {ls | ∃ l, P l ∧ ls = [l]}

variable {P : Lexeme → Prop}

theorem mem_single {l : Lexeme} (h : P l) : [l] ∈ single P := ⟨l, h, rfl⟩

theorem viable_single {l : Lexeme} (hl : l.Loose) (h : P l) : Viable (single P) [] :=
  ⟨[l], by simpa using hl, mem_single h⟩

theorem settles_single {l : Lexeme} (h : P l) (next : Option Lexeme) :
    Settles (single P) F [l] next := by
  refine ⟨mem_single h, ?_⟩
  intro w _ ls' hopens
  obtain ⟨rest, heq, ⟨l', _, rfl⟩, _⟩ := hopens
  obtain ⟨rfl, _⟩ : l = l' ∧ w = rest := by simpa using heq
  rfl

theorem breaks_single {next : Option Lexeme} (h : Viable (single P) [])
    (hnext : ∀ l ∈ next, ¬ P l) : Breaks (single P) F [] next := by
  refine ⟨h, ?_⟩
  intro w hw ls' hopens
  obtain ⟨rest, heq, ⟨l', hl', rfl⟩, _⟩ := hopens
  have hhead : w.head? = some l' := by
    rw [List.nil_append] at heq
    rw [heq]
    rfl
  exact hnext l' (hw.symm.trans hhead) hl'

theorem continues_single (h : ∀ l, P l → F (some l)) : Continues (single P) G F := by
  intro ls hls rest _
  obtain ⟨l, hl, rfl⟩ := hls
  exact h l hl

theorem continues_single_mul (h : ∀ l, P l → F (some l)) : Continues (single P * M) G F := by
  intro ls hls rest _
  obtain ⟨_, ⟨l, hl, rfl⟩, bs, _, rfl⟩ := Language.mem_mul.mp hls
  exact h l hl

theorem continues_any : Continues M G anyNext := fun _ _ _ _ => trivial

/-- The texts of a token that satisfies a condition. -/
def tokenText (P : Token → Prop) : Language Lexeme := single fun l => l.second = none ∧ P l.token

/-- The texts of the separator `c`. -/
def separatorText (c : Char) : Language Lexeme := tokenText fun t => t.isSeparator c

theorem viable_separatorText (c : Char) : Viable (separatorText c) [] := by
  refine viable_single (Lexeme.loose_made .separator (String.singleton c)) ⟨rfl, ?_⟩
  simp [Lexeme.made, Token.isSeparator]

end Languages

/-- The faults that come from the limit on nesting. -/
def SyntaxFault.IsLimit (fault : SyntaxFault) : Prop :=
  fault = .expressionTooDeep ∨ fault = .blockTooDeep

/-- From `c` to `d` lies a text of the language, and the lexeme at `d` rules out any other one. -/
def Finds (L : Language Lexeme) (F : Option Lexeme → Prop) (c d : Cursor) : Prop :=
  ∃ ls, c.Spans ls d ∧ Settles L F ls d.rest.head?

/-- An error other than one about limits names the first token that rules out every text of the
language: the lexemes from `c` up to it can be completed, but not with the lexeme there. -/
def Misses (L : Language Lexeme) (F : Option Lexeme → Prop) (c : Cursor) (e : SyntaxError) : Prop :=
  e.fault.IsLimit ∨
    ∃ ls d, c.Spans ls d ∧ e.token = d.peek ∧ Breaks L F ls d.rest.head?

section Cursors

variable {L M : Language Lexeme} {F G : Option Lexeme → Prop} {c d m : Cursor} {e : SyntaxError}

theorem Cursor.Spans.head?_append {ls w : List Lexeme} (h : c.Spans ls d)
    (hw : w.head? = d.rest.head?) : (ls ++ w).head? = c.rest.head? := by
  rw [h.rest]
  exact head?_append_congr hw

theorem Finds.proper (h : Finds L F c d) (hc : c.Proper) : d.Proper := by
  obtain ⟨ls, hsp, _⟩ := h
  exact hc.of_spans hsp

theorem finds_nil (c : Cursor) : Finds 1 F c c := by
  refine ⟨[], .refl c, rfl, ?_⟩
  intro w _ ls' hopens
  obtain ⟨_, _, hls', _⟩ := hopens
  exact hls'

theorem Misses.of_breaks (htoken : e.token = c.peek) (h : Breaks L F [] c.rest.head?) :
    Misses L F c e := .inr ⟨[], c, .refl c, htoken, h⟩

theorem Finds.mul (h : Finds L F c m) (h' : Finds M G m d) (hF : Continues M G F) :
    Finds (L * M) G c d := by
  obtain ⟨ls, hls, hL, honly⟩ := h
  obtain ⟨ms, hms, hM, honly'⟩ := h'
  refine ⟨ls ++ ms, hls.trans hms, Language.append_mem_mul hL hM, ?_⟩
  intro w hw ns hns
  rw [List.append_assoc] at hns
  obtain ⟨as, bs, w', rfl, hcut, has, hbs⟩ := hns.mul hF
  obtain rfl := honly _ (hms.head?_append hw) as has
  obtain rfl : ms ++ w = w' := List.append_cancel_left hcut
  rw [honly' w hw bs hbs]

/-- An error in the first part is one of the whole. -/
theorem Misses.left (h : Misses L F c e) (hM : Viable M []) (hF : Continues M G F) :
    Misses (L * M) G c e := by
  refine h.imp_right ?_
  intro hall
  obtain ⟨ls, d, hsp, htoken, hviable, hdead⟩ := hall
  refine ⟨ls, d, hsp, htoken, hviable.mul hM, ?_⟩
  intro w hw ns hns
  obtain ⟨as, _, _, _, _, has, _⟩ := hns.mul hF
  exact hdead w hw as has

/-- An error behind the first part is one of the whole. -/
theorem Misses.right (h : Finds L F c m) (h' : Misses M G m e) (hF : Continues M G F) :
    Misses (L * M) G c e := by
  refine h'.imp_right ?_
  intro hall
  obtain ⟨ms, d, hms, htoken, hviable, hdead⟩ := hall
  obtain ⟨ls, hls, hL, honly⟩ := h
  refine ⟨ls ++ ms, d, hls.trans hms, htoken, hviable.append hL, ?_⟩
  intro w hw ns hns
  rw [List.append_assoc] at hns
  obtain ⟨as, bs, w', rfl, hcut, has, hbs⟩ := hns.mul hF
  obtain rfl := honly _ (hms.head?_append hw) as has
  obtain rfl : ms ++ w = w' := List.append_cancel_left hcut
  exact hdead w hw bs hbs

/-- The language may be larger, as long as its texts that start with the lexeme at `c` stay the
same. -/
theorem Finds.widen (h : Finds L F c d) (hLM : L ≤ M)
    (hopens : ∀ w ls, w.head? = c.rest.head? → Opens M F w ls → Opens L F w ls) :
    Finds M F c d := by
  obtain ⟨ls, hls, hL, honly⟩ := h
  refine ⟨ls, hls, hLM hL, ?_⟩
  intro w hw ns hns
  exact honly w hw ns (hopens _ ns (hls.head?_append hw) hns)

/-- So it may for errors, and it is enough that some text of the smaller language opens what one of
the larger language opens. -/
theorem Misses.widen (h : Misses L F c e) (hLM : L ≤ M)
    (hopens : ∀ w ls, w.head? = c.rest.head? → Opens M G w ls → ∃ ls', Opens L F w ls') :
    Misses M G c e := by
  refine h.imp_right ?_
  intro hall
  obtain ⟨ls, d, hsp, htoken, hviable, hdead⟩ := hall
  refine ⟨ls, d, hsp, htoken, hviable.mono hLM, ?_⟩
  intro w hw ns hns
  obtain ⟨ls', hls'⟩ := hopens _ ns (hsp.head?_append hw) hns
  exact hdead w hw ls' hls'

/-- A lexeme of a kind is found. -/
theorem finds_single {P : Lexeme → Prop} {l : Lexeme} (hl : c.rest.head? = some l) (h : P l) :
    Finds (single P) F c c.next :=
  ⟨[l], Cursor.spans_singleton.mpr ⟨hl, rfl⟩, settles_single h _⟩

theorem finds_separator {x : Char} (hc : c.Proper) (h : c.peek.isSeparator x) :
    Finds (separatorText x) F c c.next := by
  have hkind : c.peek.kind = .separator := by
    simp only [Token.isSeparator, Bool.and_eq_true, beq_iff_eq] at h
    exact h.1
  exact finds_single (hc.head?_eq (by simp [hkind]) (by simp [hkind])) ⟨rfl, h⟩

theorem misses_separator {x : Char} (htoken : e.token = c.peek) (h : ¬ c.peek.isSeparator x) :
    Misses (separatorText x) F c e := by
  refine .of_breaks htoken (breaks_single ?_ ?_)
  · exact viable_separatorText x
  · intro l hl hsep
    exact h (Cursor.peek_of_head? hl ▸ hsep.2)

end Cursors

end ImpAsm

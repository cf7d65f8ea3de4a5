import ImpAsm.Proofs.Expr.Likeness
import ImpAsm.Proofs.Stmt.FirstFault

namespace ImpAsm

variable {Q : Token → Token → Prop} {k : Nat}

namespace Cursor

variable {c d m : Cursor}

/-- From `c` one comes to `d` without passing an end of the input. -/
def Goes (c d : Cursor) : Prop := ∃ ls, c.Spans ls d ∧ ∀ l ∈ ls, l.token.kind ≠ .eof

theorem Goes.refl (c : Cursor) : c.Goes c := ⟨[], .refl c, by simp⟩

theorem Goes.trans (h : c.Goes m) (h' : m.Goes d) : c.Goes d := by
  obtain ⟨ls, hls, hends⟩ := h
  obtain ⟨ms, hms, hends'⟩ := h'
  refine ⟨ls ++ ms, hls.trans hms, ?_⟩
  intro l hl
  rcases List.mem_append.mp hl with hl | hl
  · exact hends l hl
  · exact hends' l hl

theorem Goes.proper (h : c.Goes d) (hc : c.Proper) : d.Proper := by
  obtain ⟨ls, hsp, _⟩ := h
  exact hc.of_spans hsp

/-- One goes over a lexeme that is not an end. -/
theorem Proper.goes_next (hc : c.Proper) (h : c.peek.kind ≠ .eof) : c.Goes c.next := by
  obtain ⟨l, ls, hr⟩ := List.exists_cons_of_ne_nil (hc.rest_ne_nil h)
  refine ⟨[l], spans_next hr, ?_⟩
  intro l' hl'
  obtain rfl : l' = l := by simpa using hl'
  rwa [← peek_of_head? (by rw [hr]; rfl)]

theorem Goes.length_le (h : c.Goes d) : d.rest.length ≤ c.rest.length := by
  obtain ⟨ls, hsp, _⟩ := h
  exact hsp.length_le

end Cursor

namespace Parse

variable {α β : Type}

/-- Two runs, the first one from `c`, that end alike: with the same value in front of like places,
or with like errors at like places. No end of the input is passed. -/
inductive SameRun (Q : Token → Token → Prop) (k : Nat) (c : Cursor) :
    EStateM.Result SyntaxError ParseState α → EStateM.Result SyntaxError ParseState α → Prop where
  | ok {a : α} {t t' : ParseState} (hgoes : c.Goes t.cursor) (h : t.cursor.Like Q k t'.cursor) :
      SameRun Q k c (.ok a t) (.ok a t')
  | error {e e' : SyntaxError} {t t' : ParseState} (hgoes : c.Goes t.cursor)
      (h : t.cursor.Like Q k t'.cursor) (he : e.Like Q e') :
      SameRun Q k c (.error e t) (.error e' t')

/-- Two rules that run alike from like places. -/
structure Agree (Q : Token → Token → Prop) (k : Nat) (p p' : Parse α) : Prop where
  runs : ∀ {s s' : ParseState}, s.cursor.Proper → s.cursor.Like Q k s'.cursor →
    SameRun Q k s.cursor (p.run s) (p'.run s')

theorem SameRun.after {c m : Cursor} {r r' : EStateM.Result SyntaxError ParseState α}
    (hgoes : c.Goes m) (h : SameRun Q k m r r') : SameRun Q k c r r' := by
  cases h with
  | ok hgoes' h => exact .ok (hgoes.trans hgoes') h
  | error hgoes' h he => exact .error (hgoes.trans hgoes') h he

/-- What follows a rule has to run alike from where the rule gets to. -/
theorem SameRun.bind {x x' : Parse α} {f f' : α → Parse β} {s s' : ParseState} {c : Cursor}
    (h : SameRun Q k c (x.run s) (x'.run s'))
    (hf : ∀ a t t', c.Goes t.cursor → t.cursor.Like Q k t'.cursor →
      SameRun Q k t.cursor ((f a).run t) ((f' a).run t')) :
    SameRun Q k c ((x >>= f).run s) ((x' >>= f').run s') := by
  rw [run_bind, run_bind]
  generalize x.run s = r at h ⊢
  generalize x'.run s' = r' at h ⊢
  cases h with
  | ok hgoes ht => exact .after hgoes (hf _ _ _ hgoes ht)
  | error hgoes ht he => exact .error hgoes ht he

theorem Agree.bind {x x' : Parse α} {f f' : α → Parse β} (hx : Agree Q k x x')
    (hf : ∀ a, Agree Q k (f a) (f' a)) : Agree Q k (x >>= f) (x' >>= f') := by
  constructor
  intro s s' hs h
  refine (hx.runs hs h).bind ?_
  intro a t t' hgoes ht
  exact (hf a).runs (hgoes.proper hs) ht

/-- Rules that agree run alike behind the lexeme at the cursor. -/
theorem Agree.next {x x' : Parse α} (hx : Agree Q k x x') {s s' : ParseState} (hs : s.cursor.Proper)
    (h : s.cursor.Like Q k s'.cursor) (hk : s.cursor.peek.kind ≠ .eof) :
    SameRun Q k s.cursor.next (x.run ⟨s.cursor.next, s.events⟩)
      (x'.run ⟨s'.cursor.next, s'.events⟩) :=
  hx.runs (s := ⟨s.cursor.next, s.events⟩) ((hs.goes_next hk).proper hs) h.next

theorem agree_pure (a : α) : Agree Q k (pure a) (pure a) := ⟨fun _ h => .ok (.refl _) h⟩

theorem agree_report (e : Event) : Agree Q k (report e) (report e) := ⟨fun _ h => .ok (.refl _) h⟩

theorem agree_fail (fault : SyntaxFault) : Agree Q k (fail fault : Parse α) (fail fault) :=
  ⟨fun _ h => .error (.refl _) h (h.error fault)⟩

theorem Agree.map {x x' : Parse α} (hx : Agree Q k x x') (f : α → β) :
    Agree Q k (f <$> x) (f <$> x') :=
  hx.bind fun a => agree_pure (f a)

/-- A choice by the token at the cursor, which is taken if it satisfies the condition. -/
theorem agree_take {P : Token → Prop} [DecidablePred P] {x x' : Token → Parse α} {y y' : Parse α}
    (hP : ∀ t, P t → t.kind ≠ .eof) (hlike : ∀ t t', t.Like Q t' → (P t ↔ P t'))
    (hx : ∀ t t', t.Like Q t' → Agree Q k (x t) (x' t')) (hy : Agree Q k y y') :
    Agree Q k (do let t ← peek; if P t then do { skip; x t } else y)
      (do let t ← peek; if P t then do { skip; x' t } else y') := by
  constructor
  intro s s' hs h
  simp only [run_bind, run_peek, ← hlike _ _ h.peek]
  split
  · next hp =>
    rw [run_bind, run_bind]
    exact .after (hs.goes_next (hP _ hp)) ((hx _ _ h.peek).next hs h (hP _ hp))
  · exact hy.runs hs h

/-- A choice by whether the cursor is at the end. -/
theorem agree_atEnd {x x' y y' : Parse α} (hx : Agree Q k x x') (hy : Agree Q k y y') :
    Agree Q k (do if (← here).atEnd then x else y) (do if (← here).atEnd then x' else y') := by
  constructor
  intro s s' hs h
  simp only [run_bind, run_here, ← h.atEnd]
  split
  · exact hx.runs hs h
  · exact hy.runs hs h

theorem agree_separator (c : Char) (place : Place) :
    Agree Q k (separator c place) (separator c place) := by
  constructor
  intro s s' hs h
  simp only [separator, run_bind, run_peek, ← h.peek.isSeparator]
  split
  · next hc => exact .ok (hs.goes_next (kind_of_isSeparator hc).2) h.next
  · exact (agree_fail _).runs hs h

theorem agree_equals (place : Place) : Agree Q k (equals place) (equals place) := by
  constructor
  intro s s' hs h
  simp only [equals, run_bind, run_here, ← h.operator?]
  split
  · next ho =>
    obtain ⟨l, hl, hsym⟩ := Operand.operator_eq_head? ho
    have hk : s.cursor.peek.kind = .operator := by
      rw [Cursor.peek_of_head? hl]
      exact Derives.kind_of_operator? (hs.lexemes l (List.mem_of_mem_head? hl)) hsym
    exact .ok (hs.goes_next (by simp [hk])) h.next
  · exact (agree_fail _).runs hs h

theorem agree_name (place : Place) : Agree Q k (name place) (name place) := by
  refine agree_take (P := fun t => t.kind = .ident) ?_ ?_ ?_ (agree_fail _)
  · intro t ht
    simp [ht]
  · intro t t' h
    rw [h.kind]
  · intro t t' h
    rw [h.text]
    exact agree_pure _

theorem agree_expression : Agree Q k expression expression := by
  constructor
  intro s s' hs h
  simp only [run, expression]
  rcases (blind_readExpr h).cases with ⟨e, e', hx, hx', he⟩ | ⟨o, d, d', hx, hx', hd⟩
  · simp only [hx, hx']
    exact .error (.refl _) h he
  · obtain ⟨ls, hsp, ⟨n, hderives, _⟩, _⟩ := readExpr_sound hs ⟨d.2, hx⟩
    have hproper : ∀ l ∈ ls, l.Proper := by
      intro l hl
      apply hs.lexemes
      rw [hsp.rest]
      exact List.mem_append_left _ hl
    simp only [hx, hx']
    exact .ok ⟨ls, hsp, Unlimited.endless ⟨n, hderives⟩ hproper⟩ hd

/-- Items are repeated alike. The induction is on what is left to read. -/
theorem agree_many {item? : Token → Option (Parse α)}
    (hk : ∀ t item, item? t = some item → t.kind ≠ .eof)
    (hlike : ∀ t t', t.Like Q t' → item? t = item? t')
    (hitem : ∀ t item, item? t = some item → Agree Q k item item) :
    Agree Q k (many item?) (many item?) := by
  constructor
  intro s s' hs h
  induction hn : s.cursor.rest.length using Nat.strongRecOn generalizing s s' with
  | ind n ih =>
    subst hn
    rw [run_many, run_many, ← hlike _ _ h.peek]
    by_cases hrest : s.cursor.rest = []
    · rw [if_pos hrest, if_pos (h.rest_eq_nil.mp hrest)]
      exact .ok (.refl _) h
    rw [if_neg hrest, if_neg fun hnil => hrest (h.rest_eq_nil.mpr hnil)]
    cases hx : item? s.cursor.peek with
    | none => exact .ok (.refl _) h
    | some item =>
      have hgoes := hs.goes_next (hk _ _ hx)
      refine .after hgoes (((hitem _ _ hx).next hs h (hk _ _ hx)).bind ?_)
      intro a t t' ht hlike'
      have hlt : t.cursor.rest.length < s.cursor.rest.length :=
        Nat.lt_of_le_of_lt ht.length_le (Cursor.next_lt hrest)
      refine (ih _ hlt (ht.proper (hgoes.proper hs)) hlike' rfl).bind ?_
      intro as u u' _ hu
      exact .ok (.refl _) hu

theorem agree_commaList {item : Parse α} (hitem : Agree Q k item item) (place : Place) :
    Agree Q k (commaList item place) (commaList item place) := by
  have hmany : Agree Q k (many fun t => if t.isSeparator ',' then some item else none)
      (many fun t => if t.isSeparator ',' then some item else none) := by
    refine agree_many ?_ ?_ ?_
    · intro t item' h
      by_cases ht : t.isSeparator ','
      · exact (kind_of_isSeparator ht).2
      · simp [ht] at h
    · intro t t' h
      rw [h.isSeparator]
    · intro t item' h
      obtain ⟨_, rfl⟩ : t.isSeparator ',' ∧ item = item' := by simpa using h
      exact hitem
  refine agree_take (P := fun t => t.isSeparator ')') ?_ ?_ (fun _ _ _ => agree_pure []) ?_
  · intro t ht
    exact (kind_of_isSeparator ht).2
  · intro t t' h
    rw [h.isSeparator]
  · exact hitem.bind fun first => hmany.bind fun others =>
      (agree_separator ')' place).bind fun _ => agree_pure (first :: others)

theorem agree_binding (w : Keyword) : Agree Q k (binding w) (binding w) :=
  (agree_name _).bind fun x => (agree_equals _).bind fun _ => agree_expression.bind fun e =>
    (agree_separator ';' _).bind fun _ => agree_pure (x, e)

theorem agree_condition (w : Keyword) : Agree Q k (condition w) (condition w) :=
  (agree_separator '(' _).bind fun _ => agree_expression.bind fun e =>
    (agree_separator ')' _).bind fun _ => agree_pure e

theorem agree_noStatement : Agree Q k (noStatement : Parse α) noStatement := by
  constructor
  intro s s' hs h
  simp only [noStatement, run_bind, run_peek, ← h.peek.isKeyword]
  split
  · exact (agree_fail _).runs hs h
  · exact (agree_fail _).runs hs h

section Forms

variable {block : Place → Parse (List Stmt)} {form : Parse Stmt}

theorem agree_print (hf : form? block .print = some form) : Agree Q k form form := by
  obtain rfl := Option.some.inj hf
  have hend (stmt : Stmt) :=
    (agree_separator (Q := Q) (k := k) ')' .afterPrintArgument).bind fun _ =>
    (agree_separator ';' (.afterStatement .print)).bind fun _ => agree_pure stmt
  refine (agree_separator '(' _).bind fun _ => agree_take (P := fun t => t.kind = .str) ?_ ?_ ?_ ?_
  · intro t ht
    simp [ht]
  · intro t t' h
    rw [h.kind]
  · intro t t' h
    rw [h.text]
    exact (agree_pure _).bind hend
  · exact (agree_expression.map _).bind hend

variable (hblock : ∀ place, Agree Q k (block place) (block place))

include hblock

theorem agree_branch (hf : form? block .branch = some form) : Agree Q k form form := by
  obtain rfl := Option.some.inj hf
  refine (agree_condition .branch).bind fun e => (hblock _).bind fun yes =>
    agree_take (P := fun t => t.isKeyword .otherwise) ?_ ?_ ?_ (agree_pure _)
  · intro t ht
    simp [kind_of_isKeyword ht]
  · intro t t' h
    rw [h.isKeyword]
  · intro _ _ _
    exact (hblock _).bind fun no => agree_pure (Stmt.branch e yes (some no))

/-- Each statement form runs alike behind its keyword. -/
theorem agree_form {w : Keyword} (hf : form? block w = some form) : Agree Q k form form := by
  cases w with
  | print => exact agree_print hf
  | branch => exact agree_branch hblock hf
  | exit =>
    obtain rfl := Option.some.inj hf
    exact (agree_separator '(' _).bind fun _ => agree_expression.bind fun e =>
      (agree_separator ')' _).bind fun _ => (agree_separator ';' _).bind fun _ =>
        agree_pure (Stmt.exit e)
  | declare =>
    obtain rfl := Option.some.inj hf
    exact (agree_binding .declare).bind fun b => agree_pure (Stmt.declare b.1 b.2)
  | assign =>
    obtain rfl := Option.some.inj hf
    exact (agree_binding .assign).bind fun b => agree_pure (Stmt.assign b.1 b.2)
  | loop =>
    obtain rfl := Option.some.inj hf
    exact (agree_condition .loop).bind fun e => (hblock _).bind fun body =>
      agree_pure (Stmt.loop e body)
  | call =>
    obtain rfl := Option.some.inj hf
    exact (agree_name _).bind fun f => (agree_separator '(' _).bind fun _ =>
      (agree_commaList agree_expression _).bind fun args =>
        (agree_separator ';' _).bind fun _ => agree_pure (Stmt.call f args)
  | processor =>
    obtain rfl := Option.some.inj hf
    exact (agree_name _).bind fun p => (agree_separator '(' _).bind fun _ =>
      (agree_commaList (agree_name _) _).bind fun params =>
        (hblock _).bind fun body => agree_pure (Stmt.processor p params body)
  | otherwise => simp [form?] at hf

theorem agree_statements : Agree Q k (statements block) (statements block) := by
  refine agree_many ?_ ?_ ?_
  · intro t item h hk
    simp [hk] at h
  · intro t t' h
    rw [h.kind]
  · intro t item h
    cases hk : t.kind with
    | keyword w =>
      simp only [hk, Option.map_eq_some_iff] at h
      obtain ⟨form, hf, rfl⟩ := h
      exact (agree_form hblock hf).bind fun stmt =>
        (agree_report (.statementParsed w)).bind fun _ => agree_pure stmt
    | _ => simp [hk] at h

end Forms

theorem agree_block (n : Nat) (place : Place) : Agree Q k (block n place) (block n place) := by
  induction n generalizing place with
  | zero => exact (agree_separator '\x7b' place).bind fun _ => agree_fail _
  | succ n ih =>
    refine (agree_separator '\x7b' place).bind fun _ => (agree_statements ih).bind fun body =>
      agree_take (P := fun t => t.isSeparator '\x7d') ?_ ?_ (fun _ _ _ => agree_pure body)
        (agree_atEnd (agree_fail _) agree_noStatement)
    · intro t ht
      exact (kind_of_isSeparator ht).2
    · intro t t' h
      rw [h.isSeparator]

/-- Programs are read alike at like places, and reading passes no end of the input. -/
theorem agree_program : Agree Q k program program :=
  (agree_statements (agree_block nestingLimit)).bind fun stmts =>
    agree_atEnd ((agree_report (.programParsed stmts.length)).bind fun _ => agree_pure stmts)
      agree_noStatement

end Parse

/-- Reading from like places gets to like places, with the same program or with like errors. -/
theorem parseFrom_like {c c' : Cursor} (hc : c.Proper) (h : c.Like Q k c') :
    c.Goes (parseFrom c).2 ∧ (parseFrom c).2.Like Q k (parseFrom c').2 ∧
      ((∃ p, (parseFrom c).1.result = .ok p ∧ (parseFrom c').1.result = .ok p) ∨
        ∃ e e', (parseFrom c).1.result = .error (.syntactic e) ∧
          (parseFrom c').1.result = .error (.syntactic e') ∧ e.Like Q e') := by
  have hrun : Parse.SameRun Q k c (Parse.program.run ⟨c, #[]⟩) (Parse.program.run ⟨c', #[]⟩) :=
    Parse.agree_program.runs (s := ⟨c, #[]⟩) hc h
  unfold parseFrom
  generalize Parse.program.run ⟨c, #[]⟩ = r at hrun ⊢
  generalize Parse.program.run ⟨c', #[]⟩ = r' at hrun ⊢
  cases hrun with
  | ok hgoes ht => exact ⟨hgoes, ht, .inl ⟨_, rfl, rfl⟩⟩
  | error hgoes ht he => exact ⟨hgoes, ht, .inr ⟨_, _, rfl, rfl, he⟩⟩

end ImpAsm

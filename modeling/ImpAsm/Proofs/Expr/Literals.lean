import ImpAsm.Proofs.Expr.Misfits
import ImpAsm.Proofs.Text.Numerals

namespace ImpAsm

open Turn Operand

/-- The reader takes what lies from `c` on, a sign perhaps and the integer at `d`, as the number
that it is, and refuses it if it is none. -/
structure ReadsInteger (r : Reader) (c : Cursor) (sign : String) (d : Cursor) : Prop where
  value : ∀ w : Int32, Numeral (sign ++ d.peek.text).toList w.toInt →
    Reads r c (leaf (.num w)) d.next
  refused : (∀ w : Int32, ¬ Numeral (sign ++ d.peek.text).toList w.toInt) →
    r c = .error ⟨d.peek, .literalOutOfRange⟩

namespace Operand

variable {c : Cursor}

theorem readsInteger_unary (hc : c.Proper) (hk : c.peek.kind = .int) (k : Nat) :
    ReadsInteger (unary (k + 1)) c "" c := by
  have hrest := hc.rest_ne_nil (by simp [hk])
  have hop : c.operator? = none := by
    rw [Cursor.operator?_of_head? (hc.head?_eq (by simp [hk]) (by simp [hk]))]
    simp [Lexeme.operator?, hk]
  have hunary : unary (k + 1) c = integer "" c hrest := by
    simp [unary, hop, primary, hrest, hk]
  constructor
  · intro w hw
    exact ⟨(c.following hrest).2,
      hunary.trans (integer_eq_ok.mpr ⟨w, readWord?_eq_some.mpr hw, rfl⟩)⟩
  · intro hnone
    rw [hunary, integer, readWord?_eq_none.mpr hnone]
    rfl

theorem readsInteger_minus (hc : c.Proper) (hop : c.operator? = some "-")
    (hk : c.next.peek.kind = .int) (k : Nat) :
    ReadsInteger (unary (k + 1)) c "-" c.next := by
  obtain ⟨l, hl, _⟩ := operator_eq_head? hop
  have hrest := (hc.of_spans (Cursor.spans_singleton.mpr ⟨hl, rfl⟩)).rest_ne_nil (by simp [hk])
  constructor
  · intro w hw
    refine ⟨(Cursor.afterNext (c.next.following hrest)).2, ?_⟩
    have hint : integer "-" c.next hrest = .ok (leaf (.num w), c.next.following hrest) :=
      integer_eq_ok.mpr ⟨w, readWord?_eq_some.mpr hw, rfl⟩
    simp only [unary, hop, if_true, negated]
    rw [dif_pos ⟨hrest, hk⟩, hint]
    rfl
  · intro hnone
    simp only [unary, hop, if_true, negated]
    rw [dif_pos ⟨hrest, hk⟩, integer, readWord?_eq_none.mpr hnone]
    rfl

end Operand

/-- The number of open parentheses behind a lexeme; there is none if it closes one that is not
open. -/
def Lexeme.depth? (n : Nat) (l : Lexeme) : Option Nat :=
  if l.operator?.isSome then some n
  else if l.token.isSeparator '(' then some (n + 1)
  else if l.token.isSeparator ')' then if n = 0 then none else some (n - 1)
  else some n

/-- The number of open parentheses behind lexemes. -/
def depth? (n : Nat) (ls : List Lexeme) : Option Nat := ls.foldlM Lexeme.depth? n

@[simp] theorem depth?_nil (n : Nat) : depth? n [] = some n := rfl

@[simp] theorem depth?_cons (n : Nat) (l : Lexeme) (ls : List Lexeme) :
    depth? n (l :: ls) = (l.depth? n).bind fun m => depth? m ls := List.foldlM_cons

@[simp] theorem depth?_append (n : Nat) (ls ms : List Lexeme) :
    depth? n (ls ++ ms) = (depth? n ls).bind fun m => depth? m ms := List.foldlM_append

namespace Lexeme

theorem depth?_operator {l : Lexeme} {s : String} (h : l.operator? = some s) (n : Nat) :
    l.depth? n = some n := by
  simp [Lexeme.depth?, h]

theorem depth?_token {t : Token} (h : t.kind ≠ .separator) (n : Nat) :
    Lexeme.depth? n ⟨t, none⟩ = some n := by
  simp [Lexeme.depth?, Token.isSeparator, h]

theorem depth?_opening {t : Token} (h : t.isSeparator '(') (n : Nat) :
    Lexeme.depth? n ⟨t, none⟩ = some (n + 1) := by
  simp [Lexeme.depth?, Lexeme.operator?, Derives.kind_of_isSeparator h, h]

theorem depth?_closing {t : Token} (h : t.isSeparator ')') (n : Nat) :
    Lexeme.depth? n ⟨t, none⟩ = if n = 0 then none else some (n - 1) := by
  have hopening : ¬ t.isSeparator '(' := by
    intro h'
    simp_all [Token.isSeparator]
  simp [Lexeme.depth?, Lexeme.operator?, Derives.kind_of_isSeparator h, h, hopening]

end Lexeme

open Lexeme in
/-- An expression closes what it opens. -/
theorem Derives.depth?_eq {k m : Nat} {ls : List Lexeme} {e : Expr}
    (h : Derives k ls e m) (n : Nat) :
    depth? n ls = some n := by
  induction h generalizing n with
  | tighter hk h ih => exact ih n
  | chain ho hp hl hr ihl ihr => simp [ihl, ihr, depth?_operator ho]
  | signed ho hk hw => simp [depth?_operator ho, depth?_token, hk]
  | unary ho hi h ih => simp [depth?_operator ho, ih]
  | num hk hw => simp [depth?_token, hk]
  | bool hk => simp [depth?_token, hk]
  | ident hk => simp [depth?_token, hk]
  | parens ha h hb ih => simp [depth?_opening ha, ih, depth?_closing hb]

/-- In an expression that starts at token number `start`, the lexemes `ls` up to `d` can stand where
they do and close no more than they open, and `turn` is due behind them. -/
structure Due (ts : List Token) (start : Nat) (ls : List Lexeme) (d : Cursor) (turn : Turn) :
    Prop where
  spans : (Cursor.ofTokens ts start).Spans ls d
  takes : ∃ roles, (operand false).Takes ls roles turn
  nested : ∃ n, depth? 0 ls = some n

/-- Of the lexemes from number `start` on, the one at `d` has the roles `here`: the tree that is
read has them behind the roles of the lexemes `ls` before it, or there is an error, found beyond
it. -/
inductive Taken (ts : List Token) (start : Nat) (ls : List Lexeme) (d : Cursor) (here : List Role) :
    Prop where
  | tree {e : Expr} {stop : Nat} {before others : List Role}
      (hparse : parseExpr ts start = .ok (e, stop))
      (hbefore : (operand false).allRoles? ls = some before)
      (hroles : e.roles = before ++ here ++ others)
  | error {e : SyntaxError} {ms : List Lexeme} {d' : Cursor}
      (hparse : parseExpr ts start = .error e)
      (hspans : d.next.Spans ms d') (htoken : e.token = d'.peek)

variable {ts : List Token} {start stop : Nat} {ls : List Lexeme} {d : Cursor} {turn : Turn}
  {l : Lexeme}

theorem parseExpr_eq_error {e : SyntaxError} (h : parseExpr ts start = .error e) :
    readExpr (.ofTokens ts start) = .error e := by
  unfold parseExpr at h
  split at h
  · next e' he => rw [he, Except.error.inj h]
  · simp at h

theorem parseExpr_misfit {e : SyntaxError} (h : parseExpr ts start = .error e) :
    Misfit (Refuses readExpr) (operand false) (.ofTokens ts start) e :=
  misfit_readExpr (Cursor.ofTokens_proper ts start) (parseExpr_eq_error h)

/-- An expression does not end before `d` if one is due that goes on there. -/
theorem Due.goes_on {e : Expr} (h : Due ts start ls d turn)
    (hopen : turn = operator → binOp? d ≠ none) (hparse : parseExpr ts start = .ok (e, stop)) :
    ∃ l more, d.rest.head? = some l ∧ (operand false).Takes (ls ++ l :: more) e.roles operator := by
  obtain ⟨o, d', hread, rfl, rfl⟩ := parseExpr_eq_ok.mp hparse
  obtain ⟨ls', hsp', ⟨n, hd, _⟩, _, hstop⟩ :=
    readExpr_sound (Cursor.ofTokens_proper ts start) hread
  have htakes : (operand false).Takes ls' o.expr.roles operator := hd.takes (by simp)
  have hrest : ls ++ d.rest = ls' ++ d'.rest := h.spans.rest.symm.trans hsp'.rest
  obtain ⟨roles, hls⟩ := h.takes
  have hne : ls ≠ ls' := by
    rintro rfl
    obtain rfl := h.spans.unique hsp'
    exact hopen (hls.next.symm.trans htakes.next) hstop
  rcases List.append_eq_append_iff.mp hrest with ⟨more, rfl, hmore⟩ | ⟨more, rfl, hmore⟩
  · cases more with
    | nil => simp at hne
    | cons l more => exact ⟨l, more, by simp [hmore], htakes⟩
  · cases more with
    | nil => simp at hne
    | cons x more =>
      -- Behind the expression only a closing parenthesis could stand, but none is open there.
      obtain ⟨_, _, _, _, hx, _⟩ := hls.cut
      have hhead : d'.rest.head? = some x := by simp [hmore]
      have hclosing : d'.peek.isSeparator ')' := by
        rw [binOp?, Cursor.operator?_of_head? hhead] at hstop
        rw [htakes.next, roles?, hstop] at hx
        rw [Cursor.peek_of_head? hhead]
        by_contra hno
        simp [hno] at hx
      have hk := Derives.kind_of_isSeparator hclosing
      have hproper := (Cursor.ofTokens_proper ts start).of_spans hsp'
      obtain rfl : ⟨d'.peek, none⟩ = x := by
        simpa [hhead, eq_comm] using hproper.head?_eq (by simp [hk]) (by simp [hk])
      obtain ⟨m, hm⟩ := h.nested
      simp [hd.depth?_eq, Lexeme.depth?_closing hclosing] at hm

/-- What can stand where it is due has its roles there, as long as no limit is passed. -/
theorem Due.taken {here : List Role} (h : Due ts start ls d turn)
    (hopen : turn = operator → binOp? d ≠ none) (hl : d.rest.head? = some l)
    (hroles : turn.roles? l = some here) (hlimits : WithinLimits ls l) :
    Taken ts start ls d here := by
  obtain ⟨_, hls⟩ := h.takes
  cases hparse : parseExpr ts start with
  | ok x =>
    obtain ⟨e, stop⟩ := x
    obtain ⟨x, more, hx, htakes⟩ := h.goes_on hopen hparse
    obtain rfl : l = x := by simpa [hl] using hx
    obtain ⟨before, here', others, hbefore, hhere, _, hall⟩ := htakes.cut
    obtain rfl : here = here' := by
      rw [hls.next, hroles] at hhere
      exact Option.some.inj hhere
    exact .tree hparse hbefore.roles hall
  | error e =>
    rcases (parseExpr_misfit hparse).place h.spans hls hl hlimits with
      ⟨_, hnone⟩ | ⟨_, ms, d', hsp, htoken⟩
    · simp [hnone] at hroles
    · exact .error hparse hsp htoken

/-- What cannot stand where it is due is an error, as long as no limit is passed. -/
theorem Due.refused (h : Due ts start ls d turn) (hopen : turn = operator → binOp? d ≠ none)
    (hl : d.rest.head? = some l) (hroles : turn.roles? l = none) (hlimits : WithinLimits ls l) :
    parseExpr ts start = .error (d.error (turn.fault d.peek)) := by
  obtain ⟨_, hls⟩ := h.takes
  cases hparse : parseExpr ts start with
  | ok x =>
    obtain ⟨x, more, hx, htakes⟩ := h.goes_on hopen hparse
    obtain rfl : l = x := by simpa [hl] using hx
    obtain ⟨_, _, _, _, hhere, _⟩ := htakes.cut
    simp [hls.next, hroles] at hhere
  | error e =>
    rcases (parseExpr_misfit hparse).place h.spans hls hl hlimits with ⟨he, _⟩ | ⟨hsome, _⟩
    · rw [he]
    · exact absurd hroles hsome

theorem due_start (ts : List Token) (start : Nat) :
    Due ts start [] (.ofTokens ts start) (operand false) :=
  ⟨.refl _, ⟨[], takes_nil _⟩, 0, rfl⟩

/-- Lexemes that close what they open take what is due. -/
theorem Due.append {next : Turn} {roles : List Role} {ms : List Lexeme} {d' : Cursor}
    (h : Due ts start ls d turn) (hsp : d.Spans ms d') (ht : turn.Takes ms roles next)
    (hdepth : ∀ n, depth? n ms = some n) : Due ts start (ls ++ ms) d' next where
  spans := h.spans.trans hsp
  takes := by
    obtain ⟨_, hls⟩ := h.takes
    exact ⟨_, hls.append ht⟩
  nested := by
    obtain ⟨n, hn⟩ := h.nested
    exact ⟨n, by simp [hn, hdepth]⟩

theorem Due.behind_operator {next : Turn} {roles : List Role} {s : String}
    (h : Due ts start ls d turn) (hl : d.rest.head? = some l) (hop : l.operator? = some s)
    (ht : turn.Takes [l] roles next) : Due ts start (ls ++ [l]) d.next next :=
  h.append (Cursor.spans_singleton.mpr ⟨hl, rfl⟩) ht (by simp [Lexeme.depth?_operator hop])

section Integers

variable {signed : Bool} (h : Due ts start ls d (operand signed)) (hk : d.peek.kind = .int)

include h hk

theorem Due.integer_head? : d.rest.head? = some ⟨d.peek, none⟩ :=
  ((Cursor.ofTokens_proper ts start).of_spans h.spans).head?_eq (by simp [hk]) (by simp [hk])

/-- An integer where an operand is due is the number that it is together with a minus before it, if
that is not behind an operand. -/
theorem Due.integer {w : Int32} (hw : Numeral (sign signed ++ d.peek.text).toList w.toInt) :
    Due ts start (ls ++ [⟨d.peek, none⟩]) d.next operator ∧
      (WithinLimits ls ⟨d.peek, none⟩ → Taken ts start ls d [.number w]) := by
  have hread := readWord?_eq_some.mpr hw
  constructor
  · exact h.append (Cursor.spans_singleton.mpr ⟨h.integer_head? hk, rfl⟩) (takes_integer hk hread)
      (by simp [Lexeme.depth?_token, hk])
  · intro hlimits
    have hroles := roles?_integer hk signed
    rw [hread] at hroles
    exact h.taken (by simp) (h.integer_head? hk) hroles hlimits

theorem Due.integer_refused
    (hnone : ∀ w : Int32, ¬ Numeral (sign signed ++ d.peek.text).toList w.toInt)
    (hlimits : WithinLimits ls ⟨d.peek, none⟩) :
    parseExpr ts start = .error ⟨d.peek, .literalOutOfRange⟩ := by
  have hroles := roles?_integer hk signed
  rw [readWord?_eq_none.mpr hnone] at hroles
  have hfault : (operand signed).fault d.peek = .literalOutOfRange := by simp [Turn.fault, hk]
  have hrefused := h.refused (by simp) (h.integer_head? hk) hroles hlimits
  rwa [hfault] at hrefused

/-- If another integer would make an expression within the limits, this one makes the same
expression with its own number. -/
theorem Due.integer_replaced {w : Int32} {t : Token} {ms : List Lexeme} {d' : Cursor} {e : Expr}
    (hw : Numeral (sign signed ++ d.peek.text).toList w.toInt) (ht : t.kind = .int)
    (hreadable : Readable (ls ++ ⟨t, none⟩ :: ms) e) (hsp : d.next.Spans ms d')
    (hstop : binOp? d' = none) :
    ∃ e' before others v, parseExpr ts start = .ok (e', d'.index) ∧
      e.roles = before ++ .number v :: others ∧ e'.roles = before ++ .number w :: others := by
  obtain ⟨_, hls⟩ := h.takes
  obtain ⟨n, hd, hn, hh⟩ := hreadable
  obtain ⟨e', hd', hh'⟩ := hd.replace_integer rfl ht hk hls.next (readWord?_eq_some.mpr hw)
  have hwhole : (Cursor.ofTokens ts start).Spans (ls ++ ⟨d.peek, none⟩ :: ms) d' :=
    h.spans.trans (Cursor.spans_cons.mpr ⟨h.integer_head? hk, hsp⟩)
  have hread := readExpr_complete hwhole ⟨n, hd', hn, hh' ▸ hh⟩ hstop
  have htakes : (operand false).Takes (ls ++ ⟨t, none⟩ :: ms) e.roles operator :=
    hd.takes (by simp)
  have htakes' : (operand false).Takes (ls ++ ⟨d.peek, none⟩ :: ms) e'.roles operator :=
    hd'.takes (by simp)
  obtain ⟨before, here, others, hbefore, hhere, hothers, hroles⟩ := htakes.cut
  obtain ⟨before', here', others', hbefore', hhere', hothers', hroles'⟩ := htakes'.cut
  -- before and behind the integer the lexemes have the same roles in both trees
  obtain rfl : before = before' := Option.some.inj (hbefore.roles.symm.trans hbefore'.roles)
  rw [hls.next, after_integer ht] at hothers
  rw [hls.next, after_integer hk] at hothers'
  obtain rfl : others = others' := Option.some.inj (hothers.symm.trans hothers')
  rw [hls.next, roles?_integer ht, Option.map_eq_some_iff] at hhere
  rw [hls.next, roles?_integer hk, readWord?_eq_some.mpr hw] at hhere'
  obtain ⟨v, _, rfl⟩ := hhere
  obtain rfl : [.number w] = here' := by simpa using hhere'
  refine ⟨e', before, others, v, parseExpr_eq_ok.mpr ⟨_, d', hread, rfl, rfl⟩, ?_, ?_⟩
  · simpa using hroles
  · simpa using hroles'

end Integers

/-- A minus behind an operand is the operator. -/
theorem Due.minus (h : Due ts start ls d operator) (hl : d.rest.head? = some l)
    (hop : l.operator? = some "-") (hlimits : WithinLimits ls l) :
    Taken ts start ls d [.binary .sub] := by
  have hsub : l.operator? = some BinOp.sub.symbol := hop
  refine h.taken ?_ hl (by simp [roles?, hsub, BinOp.ofSymbol?_symbol]) hlimits
  simp [binOp?_of_head? hl hsub]

/-- An integer is refused only where an operand is due, and if it is no number with the sign it has
there. -/
theorem parseExpr_literalOutOfRange {t : Token}
    (h : parseExpr ts start = .error ⟨t, .literalOutOfRange⟩) :
    ∃ ls d signed, (Cursor.ofTokens ts start).Spans ls d ∧
      (operand false).afterAll ls = operand signed ∧ d.peek = t ∧ t.kind = .int ∧
      ∀ w : Int32, ¬ Numeral (sign signed ++ t.text).toList w.toInt := by
  obtain ⟨ls, d, roles, next, hsp, ht, htoken, ⟨hfault, hnone⟩ | ⟨hdeep, _⟩⟩ := parseExpr_misfit h
  · obtain rfl : t = d.peek := htoken
    cases next with
    | operator => simp [Turn.fault] at hfault
    | operand signed =>
      have hk : d.peek.kind = .int := by
        by_contra hk
        simp [Turn.fault, hk] at hfault
      have hproper := (Cursor.ofTokens_proper ts start).of_spans hsp
      have hroles := hnone _ (hproper.head?_eq (by simp [hk]) (by simp [hk]))
      refine ⟨ls, d, signed, hsp, ht.next, rfl, hk, readWord?_eq_none.mp ?_⟩
      simpa [roles?_integer hk] using hroles
  · simp at hdeep

/-- How integers and the minus before them are read in an expression that starts at token number
`start`. -/
structure KeepsIntegers (ts : List Token) (start : Nat) : Prop where
  /-- A minus where an operand is due may be the sign of what comes next. -/
  folded : ∀ ls d l signed, Due ts start ls d (operand signed) → d.rest.head? = some l →
    l.operator? = some "-" → Due ts start (ls ++ [l]) d.next (operand true)
  /-- An integer with its sign becomes the number that it is, if no limit is passed up to it. -/
  value : ∀ ls d signed, Due ts start ls d (operand signed) → d.peek.kind = .int →
    ∀ w : Int32, Numeral (sign signed ++ d.peek.text).toList w.toInt →
      Due ts start (ls ++ [⟨d.peek, none⟩]) d.next operator ∧
        (WithinLimits ls ⟨d.peek, none⟩ → Taken ts start ls d [.number w])
  /-- The tokens are read as an expression with its number if they would be an expression within the
  limits with another integer in its place. -/
  replaced : ∀ ls d signed, Due ts start ls d (operand signed) → d.peek.kind = .int →
    ∀ w : Int32, Numeral (sign signed ++ d.peek.text).toList w.toInt →
      ∀ t ms d' e, t.kind = .int → Readable (ls ++ ⟨t, none⟩ :: ms) e → d.next.Spans ms d' →
        binOp? d' = none → ∃ e' before others v, parseExpr ts start = .ok (e', d'.index) ∧
          e.roles = before ++ .number v :: others ∧ e'.roles = before ++ .number w :: others
  /-- An integer with its sign that is no number is refused, if no limit is passed up to it. -/
  refused : ∀ ls d signed, Due ts start ls d (operand signed) → d.peek.kind = .int →
    (∀ w : Int32, ¬ Numeral (sign signed ++ d.peek.text).toList w.toInt) →
      WithinLimits ls ⟨d.peek, none⟩ → parseExpr ts start = .error ⟨d.peek, .literalOutOfRange⟩
  /-- Behind an operand an operator is due. -/
  complete : ∀ ls d ms d' k e n, Due ts start ls d (operand false) → d.Spans ms d' →
    Derives k ms e n → Due ts start (ls ++ ms) d' operator
  /-- A minus behind an operand is the operator, and no sign of what comes next. -/
  minus : ∀ ls d l, Due ts start ls d operator → d.rest.head? = some l → l.operator? = some "-" →
    Due ts start (ls ++ [l]) d.next (operand false) ∧
      (WithinLimits ls l → Taken ts start ls d [.binary .sub])
  /-- Nothing else is refused as an integer. -/
  only : ∀ t, parseExpr ts start = .error ⟨t, .literalOutOfRange⟩ →
    ∃ ls d signed, (Cursor.ofTokens ts start).Spans ls d ∧
      (operand false).afterAll ls = operand signed ∧ d.peek = t ∧ t.kind = .int ∧
      ∀ w : Int32, ¬ Numeral (sign signed ++ t.text).toList w.toInt

theorem keepsIntegers (ts : List Token) (start : Nat) : KeepsIntegers ts start where
  folded := by
    intro ls d l signed h hl hop
    exact h.behind_operator hl hop (takes_minus hop)
  value := by
    intro ls d signed h hk w hw
    exact h.integer hk hw
  replaced := by
    intro ls d signed h hk w hw t ms d' e ht hreadable hsp hstop
    exact h.integer_replaced hk hw ht hreadable hsp hstop
  refused := by
    intro ls d signed h hk hnone hlimits
    exact h.integer_refused hk hnone hlimits
  complete := by
    intro ls d ms d' k e n h hsp hd
    exact h.append hsp (hd.takes (by simp)) hd.depth?_eq
  minus := by
    intro ls d l h hl hop
    exact ⟨h.behind_operator hl hop (@takes_binary l .sub hop), h.minus hl hop⟩
  only := by
    intro t h
    exact parseExpr_literalOutOfRange h

/-- Integers of any length keep their value or are refused. A number is a text of digits with at
most one sign that fits a word: up to 2147483647 without a sign and up to 2147483648 behind a minus.
Where an operand is read, an integer alone or behind a minus is taken as its number or refused, and
so it is wherever an operand is due in an expression and no limit on nesting and height is passed up
to it; the minus belongs to it only if it does not stand behind an operand. -/
theorem parseExpr_integers (ts : List Token) (start : Nat) :
    (∀ ds, IsDigits ds → ∀ w : Int32,
      (Numeral ds w.toInt ↔ decimalValue ds ≤ 2147483647 ∧ w = .ofInt (decimalValue ds)) ∧
      (Numeral ('-' :: ds) w.toInt ↔
        decimalValue ds ≤ 2147483648 ∧ w = .ofInt (-decimalValue ds))) ∧
    (∀ (c : Cursor) (k : Nat), c.Proper →
      (c.peek.kind = .int → ReadsInteger (unary (k + 1)) c "" c) ∧
      (c.operator? = some "-" → c.next.peek.kind = .int →
        ReadsInteger (unary (k + 1)) c "-" c.next)) ∧
    Due ts start [] (.ofTokens ts start) (operand false) ∧ KeepsIntegers ts start ∧
    SyntaxFault.literalOutOfRange.message = "integer literal out of range" := by
  refine ⟨fun ds h w => numeral_word_digits h w, ?_, due_start ts start,
    keepsIntegers ts start, rfl⟩
  intro c k hc
  exact ⟨fun hk => readsInteger_unary hc hk k, fun hop hk => readsInteger_minus hc hop hk k⟩

/-- The tokens of `-2147483648 - 2147483648`. -/
def leastWordTokens : List Token :=
  [⟨.operator, "-", ⟨0, 1, 1⟩⟩, ⟨.int, "2147483648", ⟨1, 1, 2⟩⟩, ⟨.operator, "-", ⟨12, 1, 13⟩⟩,
    ⟨.int, "2147483648", ⟨14, 1, 15⟩⟩]

/-- The first integer is the least word; the second one has an operator before it and is no word.
With `0` in its place the tokens are an expression. -/
theorem literalOutOfRange_leastWord :
    Taken leastWordTokens 0 (lexemes (leastWordTokens.take 1)) (.ofTokens leastWordTokens 1)
      [.number (-2147483648)] ∧
    parseExpr leastWordTokens 0 =
      .error ⟨⟨.int, "2147483648", ⟨14, 1, 15⟩⟩, .literalOutOfRange⟩ := by
  obtain ⟨hdigits, _, hstart, hkeeps, _⟩ := parseExpr_integers leastWordTokens 0
  have hds : IsDigits "2147483648".toList := ⟨by simp, by simp⟩
  have hvalue : decimalValue "2147483648".toList = 2147483648 := by cbv
  have hsign := hkeeps.folded _ _ ⟨⟨.operator, "-", ⟨0, 1, 1⟩⟩, none⟩ _ hstart rfl rfl
  have hword := (hdigits _ hds (-2147483648)).2.mpr ⟨by omega, by rw [hvalue]; rfl⟩
  have hleast := hkeeps.value _ _ _ hsign rfl _ hword
  have hsub := hkeeps.minus _ _ ⟨⟨.operator, "-", ⟨12, 1, 13⟩⟩, none⟩ hleast.1 rfl rfl
  have hleft : Derives 7 (lexemes (leastWordTokens.take 2)) (.num (-2147483648)) 0 :=
    .signed rfl rfl (readWord?_eq_some.mpr hword)
  have hlimits : WithinLimits (lexemes (leastWordTokens.take 1)) ⟨leastWordTokens[1], none⟩ :=
    ⟨_, [], _, rfl, 0, hleft.looser (by omega) (by omega), by decide, by decide⟩
  refine ⟨hleast.2 hlimits, hkeeps.refused _ _ _ hsub.1 rfl ?_ ?_⟩
  · intro w hw
    have hle := ((hdigits _ hds w).1.mp hw).1
    omega
  · let zero : Token := ⟨.int, "0", ⟨14, 1, 15⟩⟩
    have hright : Derives 8 [⟨zero, none⟩] (.num 0) 0 := .num rfl (by decide)
    have hwhole : Derives BinOp.sub.power (lexemes (leastWordTokens.take 2) ++
        ⟨leastWordTokens[2], none⟩ :: [⟨zero, none⟩])
        (.binary .sub (.num (-2147483648)) (.num 0)) (max 0 0) :=
      .chain rfl rfl (hleft.looser (by decide) (by decide)) (hright.looser (by decide) (by decide))
    exact ⟨⟨zero, none⟩, [], _, rfl, 0, hwhole.looser (by decide) (by decide), by decide, by decide⟩

end ImpAsm

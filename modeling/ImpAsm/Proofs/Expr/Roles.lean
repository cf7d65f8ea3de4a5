import ImpAsm.Proofs.Expr.Acceptance

namespace ImpAsm

/-- What is due behind some lexemes of an expression: an operand, perhaps behind a minus that may be
its sign, or an operator. -/
inductive Turn where
  | operand (signed : Bool)
  | operator
deriving DecidableEq

/-- What the lexemes of an expression become in its tree. -/
inductive Role where
  | number (w : Int32)
  | truth (b : Bool)
  | name (x : String)
  | unary (op : UnOp)
  | binary (op : BinOp)
deriving DecidableEq

/-- The nodes of a tree from left to right. -/
def Expr.roles : Expr → List Role
  | num w => [.number w]
  | bool b => [.truth b]
  | ident x => [.name x]
  | unary op e => .unary op :: e.roles
  | binary op l r => l.roles ++ .binary op :: r.roles

namespace Turn

/-- What is due behind one more lexeme. A minus can be a sign only where an operand is due. -/
def after : Turn → Lexeme → Turn
  | operand _, l =>
    match l.operator? with
    | some s => operand (s = "-")
    | none => if l.token.isSeparator '(' then operand false else operator
  | operator, l => if l.operator?.isSome then operand false else operator

/-- A minus that is not a sign after all is an operator. -/
def pending (signed : Bool) : List Role := if signed then [.unary .neg] else []

def sign (signed : Bool) : String := if signed then "-" else ""

/-- The role of a lexeme, together with that of a minus before it; there is none if the lexeme
cannot stand there. -/
def roles? : Turn → Lexeme → Option (List Role)
  | operand signed, l =>
    match l.operator? with
    | some "-" => some (pending signed)
    | some "!" => some (pending signed ++ [.unary .not])
    | some _ => none
    | none =>
      match l.token.kind with
      | .int => (readWord? (sign signed ++ l.token.text).toList).map fun w => [.number w]
      | .bool => some (pending signed ++ [.truth (l.token.text == "true")])
      | .ident => some (pending signed ++ [.name l.token.text])
      | _ => if l.token.isSeparator '(' then some (pending signed) else none
  | operator, l =>
    match l.operator?.bind BinOp.ofSymbol? with
    | some op => some [.binary op]
    | none => if l.token.isSeparator ')' then some [] else none

/-- What is due behind lexemes. -/
def afterAll (turn : Turn) (ls : List Lexeme) : Turn := ls.foldl after turn

/-- The roles of lexemes, if each of them can stand where it does. -/
def allRoles? (turn : Turn) : List Lexeme → Option (List Role)
  | [] => some []
  | l :: ls => do
    let here ← turn.roles? l
    let others ← allRoles? (turn.after l) ls
    return here ++ others

@[simp] theorem afterAll_nil (turn : Turn) : turn.afterAll [] = turn := rfl

@[simp] theorem afterAll_cons (turn : Turn) (l : Lexeme) (ls : List Lexeme) :
    turn.afterAll (l :: ls) = (turn.after l).afterAll ls := rfl

theorem afterAll_append (turn : Turn) (ls ms : List Lexeme) :
    turn.afterAll (ls ++ ms) = (turn.afterAll ls).afterAll ms := List.foldl_append

theorem allRoles?_append (turn : Turn) (ls ms : List Lexeme) :
    turn.allRoles? (ls ++ ms) = do
      let first ← turn.allRoles? ls
      let others ← (turn.afterAll ls).allRoles? ms
      return first ++ others := by
  induction ls generalizing turn with
  | nil => simp [allRoles?]
  | cons l ls ih =>
    simp only [List.cons_append, allRoles?, ih, afterAll_cons]
    cases turn.roles? l with
    | none => rfl
    | some here =>
      cases allRoles? (turn.after l) ls with
      | none => rfl
      | some first =>
        cases allRoles? ((turn.after l).afterAll ls) ms with
        | none => rfl
        | some others => simp

/-- The lexemes have these roles, and this is due behind them. -/
structure Takes (turn : Turn) (ls : List Lexeme) (roles : List Role) (next : Turn) : Prop where
  roles : turn.allRoles? ls = some roles
  next : turn.afterAll ls = next

theorem Takes.append {turn next last : Turn} {ls ms : List Lexeme} {rs ss : List Role}
    (h : turn.Takes ls rs next) (h' : next.Takes ms ss last) :
    turn.Takes (ls ++ ms) (rs ++ ss) last where
  roles := by
    rw [allRoles?_append, h.roles, h.next]
    simp [h'.roles]
  next := by rw [afterAll_append, h.next, h'.next]

theorem Takes.cons {turn next : Turn} {l : Lexeme} {ls : List Lexeme} {rs ss : List Role}
    (hl : turn.roles? l = some rs) (h : (turn.after l).Takes ls ss next) :
    turn.Takes (l :: ls) (rs ++ ss) next where
  roles := by
    rw [allRoles?, hl]
    simp [h.roles]
  next := h.next

theorem takes_nil (turn : Turn) : turn.Takes [] [] turn := ⟨rfl, rfl⟩

theorem takes_single {turn next : Turn} {l : Lexeme} {rs : List Role} (hl : turn.roles? l = some rs)
    (hn : turn.after l = next) : turn.Takes [l] rs next := by
  have h := Takes.cons hl (takes_nil (turn.after l))
  rwa [List.append_nil, hn] at h

section Operands

variable {signed : Bool} {l : Lexeme} {t : Token}

theorem takes_minus (h : l.operator? = some "-") :
    (operand signed).Takes [l] (pending signed) (operand true) :=
  takes_single (by simp [roles?, h]) (by simp [after, h])

theorem takes_not (h : l.operator? = some "!") :
    (operand signed).Takes [l] (pending signed ++ [.unary .not]) (operand false) :=
  takes_single (by simp [roles?, h]) (by simp [after, h])

theorem takes_unary {op : UnOp} (h : l.operator? = some op.symbol) (signed : Bool) :
    ∃ roles, (operand signed).Takes [l] roles (operand (op = .neg)) := by
  cases op with
  | neg => exact ⟨_, takes_minus h⟩
  | not => exact ⟨_, takes_not h⟩

theorem roles?_integer (hk : t.kind = .int) (signed : Bool) : (operand signed).roles? ⟨t, none⟩ =
    (readWord? (sign signed ++ t.text).toList).map fun w => [.number w] := by
  simp [roles?, Lexeme.operator?, hk]

theorem after_integer (hk : t.kind = .int) (signed : Bool) :
    (operand signed).after ⟨t, none⟩ = operator := by
  simp [after, Lexeme.operator?, Token.isSeparator, hk]

theorem takes_integer {w : Int32} (hk : t.kind = .int)
    (hw : readWord? (sign signed ++ t.text).toList = some w) :
    (operand signed).Takes [⟨t, none⟩] [.number w] operator :=
  takes_single (by rw [roles?_integer hk, hw]; rfl) (after_integer hk signed)

theorem takes_bool (hk : t.kind = .bool) :
    (operand signed).Takes [⟨t, none⟩] (pending signed ++ [.truth (t.text == "true")]) operator :=
  takes_single (by simp [roles?, Lexeme.operator?, hk])
    (by simp [after, Lexeme.operator?, Token.isSeparator, hk])

theorem takes_ident (hk : t.kind = .ident) :
    (operand signed).Takes [⟨t, none⟩] (pending signed ++ [.name t.text]) operator :=
  takes_single (by simp [roles?, Lexeme.operator?, hk])
    (by simp [after, Lexeme.operator?, Token.isSeparator, hk])

theorem takes_opening (h : t.isSeparator '(') :
    (operand signed).Takes [⟨t, none⟩] (pending signed) (operand false) := by
  have hk := Derives.kind_of_isSeparator h
  exact takes_single (by simp [roles?, Lexeme.operator?, hk, h])
    (by simp [after, Lexeme.operator?, hk, h])

theorem takes_closing (h : t.isSeparator ')') : operator.Takes [⟨t, none⟩] [] operator := by
  have hk := Derives.kind_of_isSeparator h
  exact takes_single (by simp [roles?, Lexeme.operator?, hk, h])
    (by simp [after, Lexeme.operator?, hk])

theorem takes_binary {op : BinOp} (h : l.operator? = some op.symbol) :
    operator.Takes [l] [.binary op] (operand false) :=
  takes_single (by simp [roles?, h, BinOp.ofSymbol?_symbol]) (by simp [after, h])

end Operands

end Turn

open Turn

/-- The tree of an expression, read from left to right, is its text: integers are numbers with the
minus before them if an operand was due there, and every other minus is an operator. -/
theorem Derives.takes {k n : Nat} {ls : List Lexeme} {e : Expr} (h : Derives k ls e n)
    {signed : Bool} (hsigned : signed → ∀ l ∈ ls.head?, l.token.kind ≠ .int) :
    (operand signed).Takes ls (pending signed ++ e.roles) operator := by
  induction h generalizing signed with
  | tighter hk h ih => exact ih hsigned
  | @chain k m n ls rs l r o op ho hp hl hr ihl ihr =>
    obtain ⟨x, xs, rfl⟩ := List.exists_cons_of_ne_nil hl.ne_nil
    have hright := (takes_binary ho).append (@ihr false (by simp))
    simpa [Expr.roles, pending] using (ihl hsigned).append hright
  | @signed o t w ho hk hw =>
    exact (takes_minus ho).append (takes_integer hk hw)
  | @unary n ls e o op ho hi h ih =>
    cases op with
    | neg => exact (takes_minus ho).append (ih fun _ => hi rfl)
    | not =>
      have hnot : (operand signed).Takes [o] _ _ := takes_not ho
      simpa [Expr.roles, pending] using hnot.append (@ih false (by simp))
  | @num t w hk hw =>
    cases signed with
    | true => exact absurd hk (hsigned rfl _ rfl)
    | false => exact takes_integer hk (by simpa [sign] using hw)
  | bool hk => exact takes_bool hk
  | ident hk => exact takes_ident hk
  | @parens n ls e a b ha h hb ih =>
    have hopening : (operand signed).Takes [⟨a, none⟩] _ _ := takes_opening ha
    have hinner := (@ih false (by simp)).append (takes_closing hb)
    simpa [Expr.roles, pending] using hopening.append hinner

/-- Lexemes that can stand where they do can be cut at any of them. -/
theorem Turn.Takes.cut {turn last : Turn} {ls more : List Lexeme} {l : Lexeme} {roles : List Role}
    (h : turn.Takes (ls ++ l :: more) roles last) :
    ∃ before here others, turn.Takes ls before (turn.afterAll ls) ∧
      (turn.afterAll ls).roles? l = some here ∧
      ((turn.afterAll ls).after l).allRoles? more = some others ∧
      roles = before ++ here ++ others := by
  have hroles := h.roles
  simp only [allRoles?_append, allRoles?, Option.bind_eq_bind, Option.bind_eq_some_iff,
    Option.pure_def, Option.some.injEq] at hroles
  obtain ⟨before, hbefore, _, ⟨here, hhere, others, hothers, rfl⟩, rfl⟩ := hroles
  exact ⟨before, here, others, ⟨hbefore, rfl⟩, hhere, hothers,
    (List.append_assoc before here others).symm⟩

/-- Behind a lexeme that is taken it does not matter whether a minus stood before it. -/
theorem Turn.afterAll_operand_cons (a b : Bool) (l : Lexeme) (ls : List Lexeme) :
    (operand a).afterAll (l :: ls) = (operand b).afterAll (l :: ls) := rfl

/-- A lexeme that is not the first one stands behind the first one. -/
theorem exists_tail_of_ne {a b : Lexeme} {as ls ms : List Lexeme} (h : a :: as = ls ++ b :: ms)
    (hne : a ≠ b) : ∃ more, ls = a :: more ∧ as = more ++ b :: ms := by
  rcases List.cons_eq_append_iff.mp h with ⟨_, heq⟩ | ⟨more, hls, has⟩
  · exact absurd (List.cons.inj heq).1.symm hne
  · exact ⟨more, hls, has⟩

/-- An integer in an expression can be replaced by any other one that is a word with its sign. The
induction follows the expression down to the integer. -/
theorem Derives.replace_integer {k n : Nat} {us ls ms : List Lexeme} {e : Expr} {t t' : Token}
    {signed : Bool} {w : Int32} (h : Derives k us e n) (hus : us = ls ++ ⟨t, none⟩ :: ms)
    (hk : t.kind = .int) (hk' : t'.kind = .int)
    (hsigned : (operand false).afterAll ls = operand signed)
    (hw : readWord? (sign signed ++ t'.text).toList = some w) :
    ∃ e', Derives k (ls ++ ⟨t', none⟩ :: ms) e' n ∧ e'.height = e.height := by
  have hoperator {o : Lexeme} {s : String} (ho : o.operator? = some s) : o ≠ ⟨t, none⟩ := by
    rintro rfl
    simp [Lexeme.operator?, hk] at ho
  have hseparator {u : Token} {c : Char} (hu : u.isSeparator c) :
      (⟨u, none⟩ : Lexeme) ≠ ⟨t, none⟩ := by
    rintro ⟨⟩
    simp [kind_of_isSeparator hu] at hk
  induction h generalizing ls ms signed with
  | tighter hlt h ih =>
    obtain ⟨e', hd, hh⟩ := ih hus hsigned hw
    exact ⟨e', .tighter hlt hd, hh⟩
  | @chain k i j as bs l r o op ho hp hl hr ihl ihr =>
    rcases List.append_eq_append_iff.mp hus with ⟨more, rfl, hmore⟩ | ⟨more, rfl, hmore⟩
    · obtain ⟨more, rfl, rfl⟩ := exists_tail_of_ne hmore (hoperator ho)
      have hbehind : (operand false).afterAll more = operand signed := by
        have hleft : (operand false).afterAll as = operator := (hl.takes (by simp)).next
        rw [afterAll_append, hleft, afterAll_cons] at hsigned
        simpa [after, ho] using hsigned
      obtain ⟨r', hd, hh⟩ := ihr rfl hbehind hw
      refine ⟨.binary op l r', ?_, by simp [Expr.height, hh]⟩
      rw [List.append_assoc, List.cons_append]
      exact .chain ho hp hl hd
    · obtain ⟨more, rfl, rfl⟩ := exists_tail_of_ne hmore (hoperator ho).symm
      obtain ⟨l', hd, hh⟩ := ihl rfl hsigned hw
      refine ⟨.binary op l' r, ?_, by simp [Expr.height, hh]⟩
      have hchain := Derives.chain ho hp hd hr
      rwa [List.append_assoc, List.cons_append] at hchain
  | @signed o u v ho hu hv =>
    obtain ⟨more, rfl, hmore⟩ := exists_tail_of_ne hus (hoperator ho)
    obtain ⟨rfl, rfl, rfl⟩ : more = [] ∧ t = u ∧ ms = [] := by
      cases more <;> simp_all
    obtain rfl : signed = true := by simpa [after, ho, eq_comm] using hsigned
    exact ⟨.num w, .signed ho hk' hw, rfl⟩
  | @unary n as e o op ho hi h ih =>
    obtain ⟨more, rfl, rfl⟩ := exists_tail_of_ne hus (hoperator ho)
    -- behind a minus the integer would be signed, so there is something else in between
    have hneg : op = .neg → more ≠ [] := by
      rintro hop rfl
      exact hi hop _ rfl hk
    have hinner : (operand false).afterAll more = operand signed := by
      cases more with
      | nil =>
        cases op with
        | neg => exact absurd rfl (hneg rfl)
        | not => simpa [after, ho, UnOp.symbol] using hsigned
      | cons x more =>
        simpa [after, ho, afterAll_operand_cons _ false] using hsigned
    obtain ⟨e', hd, hh⟩ := ih rfl hinner hw
    refine ⟨.unary op e', .unary ho ?_ hd, by simp [Expr.height, hh]⟩
    intro hop
    obtain ⟨x, more, rfl⟩ := List.exists_cons_of_ne_nil (hneg hop)
    exact hi hop
  | @num u v hu hv =>
    obtain ⟨rfl, rfl, rfl⟩ : ls = [] ∧ t = u ∧ ms = [] := by
      cases ls <;> simp_all
    obtain rfl : signed = false := by simpa [eq_comm] using hsigned
    exact ⟨.num w, .num hk' (by simpa [sign] using hw), rfl⟩
  | bool hu | ident hu =>
    cases ls <;> simp_all
  | @parens n as e a b ha h hb ih =>
    obtain ⟨more, rfl, hmore⟩ := exists_tail_of_ne hus (hseparator ha)
    have hinner : (operand false).afterAll more = operand signed := by
      simpa [after, Lexeme.operator?, kind_of_isSeparator ha, ha] using hsigned
    rcases List.append_eq_append_iff.mp hmore with ⟨_, rfl, hend⟩ | ⟨_, rfl, hend⟩
    · -- behind the closing parenthesis nothing is left
      obtain ⟨_, _, hnil⟩ := exists_tail_of_ne hend (hseparator hb)
      simp at hnil
    · obtain ⟨_, rfl, rfl⟩ := exists_tail_of_ne hend (hseparator hb).symm
      obtain ⟨e', hd, hh⟩ := ih rfl hinner hw
      have hparens := Derives.parens ha hd hb
      rw [List.append_assoc, List.cons_append] at hparens
      exact ⟨e', hparens, hh⟩

end ImpAsm

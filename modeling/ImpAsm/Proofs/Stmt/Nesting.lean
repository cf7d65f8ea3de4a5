import ImpAsm.Stmt.Parser

namespace ImpAsm

/-- A rule that is told how many blocks are open where it starts, and tells how many are open where
it stops. -/
def Counted (α : Type) := (s : ParseState) → Nat → EStateM.Result SyntaxError s.Onward α × Nat

namespace Counted

theorem onward_trans {s : ParseState} (t : s.Onward) (u : t.1.Onward) :
    u.1.cursor.rest.length ≤ s.cursor.rest.length :=
  Nat.le_trans u.2 t.2

instance : Monad Counted where
  pure a := fun s d => ((pure a : Parse _) s, d)
  bind x f := fun s d =>
    match x s d with
    | (.error e t, d) => (.error e t, d)
    | (.ok a t, d) =>
      match f a t.1 d with
      | (.error e u, d) => (.error e ⟨u.1, onward_trans t u⟩, d)
      | (.ok b u, d) => (.ok b ⟨u.1, onward_trans t u⟩, d)

/-- A rule that does not count opens and closes no block. -/
instance : MonadLift Parse Counted where
  monadLift p := fun s d => (p s, d)

/-- How many blocks are open. -/
def depth : Counted Nat := fun s d => ((pure d : Parse Nat) s, d)

/-- Opens a block for a rule and closes it again, also if the rule fails. -/
def inside {α : Type} (x : Counted α) : Counted α := fun s d =>
  let (r, d) := x s (d + 1)
  (r, d - 1)

/-- Reads items as long as the token at the cursor starts one; see `Parse.items`. -/
def items {α : Type} (item? : Token → Option (Counted α)) (s : ParseState) (d : Nat) :
    EStateM.Result SyntaxError s.Onward (List α) × Nat :=
  if h : s.cursor.rest = [] then (.ok [] ⟨s, Nat.le_refl _⟩, d)
  else
    match item? s.cursor.peek with
    | none => (.ok [] ⟨s, Nat.le_refl _⟩, d)
    | some item =>
      have hn := Cursor.next_lt h
      match item { s with cursor := s.cursor.next } d with
      | (.error e t, d) => (.error e ⟨t.1, Nat.le_trans t.2 s.cursor.next_le⟩, d)
      | (.ok a t, d) =>
        have ht := Nat.lt_of_le_of_lt t.2 hn
        match items item? t.1 d with
        | (.error e u, d) => (.error e ⟨u.1, Nat.le_of_lt (Nat.lt_of_le_of_lt u.2 ht)⟩, d)
        | (.ok as u, d) => (.ok (a :: as) ⟨u.1, Nat.le_of_lt (Nat.lt_of_le_of_lt u.2 ht)⟩, d)
termination_by s.cursor.rest.length

def many {α : Type} (item? : Token → Option (Counted α)) : Counted (List α) := items item?

/-- What follows the keyword of a statement. Only three statements have blocks. -/
def form? (block : Place → Counted (List Stmt)) : Keyword → Option (Counted Stmt)
  | .branch => some do
    let e ← Parse.condition .branch
    let yes ← block (.afterCondition .branch)
    if (← Parse.peek).isKeyword .otherwise then
      Parse.skip
      let no ← block (.afterKeyword .otherwise)
      return .branch e yes (some no)
    else return .branch e yes none
  | .loop => some do
    let e ← Parse.condition .loop
    let body ← block (.afterCondition .loop)
    return .loop e body
  | .processor => some do
    let p ← Parse.name (.afterKeyword .processor)
    Parse.separator '(' .afterProcessorName
    let params ← Parse.commaList (Parse.name .inParameterList) .afterParameterList
    let body ← block .afterParameterList
    return .processor p params body
  -- the other forms do not use the rule for blocks, so any will do
  | w => (Parse.form? (fun _ => pure []) w).map liftM

def statements (block : Place → Counted (List Stmt)) : Counted (List Stmt) :=
  many fun t =>
    match t.kind with
    | .keyword k => (form? block k).map fun form => do
      let stmt ← form
      Parse.report (.statementParsed k)
      return stmt
    | _ => none

/-- The statements between braces, unless too many blocks are open already. The recursion goes
`room` blocks deep; where there is room up to the limit it is the limit that decides. -/
def block : Nat → Place → Counted (List Stmt)
  | 0, place => do
    Parse.separator '\x7b' place
    Parse.fail .blockTooDeep
  | room + 1, place => do
    Parse.separator '\x7b' place
    if nestingLimit ≤ (← depth) then Parse.fail .blockTooDeep
    else inside do
      let body ← statements (block room)
      if (← Parse.peek).isSeparator '\x7d' then
        Parse.skip
        return body
      else if (← Parse.here).atEnd then Parse.fail (.expected '\x7d' .closingBlock)
      else Parse.noStatement

/-- The statements up to the end of the input. -/
def program : Counted Program := do
  let stmts ← statements (block nestingLimit)
  if (← Parse.here).atEnd then
    Parse.report (.programParsed stmts.length)
    return stmts
  else Parse.noStatement

/-- With `d` blocks open the rule does what `p` does, and it leaves as many blocks open. -/
def Does {α : Type} (d : Nat) (x : Counted α) (p : Parse α) : Prop := ∀ s, x s d = (p s, d)

variable {α β : Type} {d : Nat}

theorem does_pure (a : α) : Does d (pure a) (pure a) := fun _ => rfl

theorem does_lift (p : Parse α) : Does d (liftM p) p := fun _ => rfl

theorem Does.bind {x : Counted α} {p : Parse α} {f : α → Counted β} {g : α → Parse β}
    (hx : Does d x p) (hf : ∀ a, Does d (f a) (g a)) : Does d (x >>= f) (p >>= g) := by
  intro s
  simp only [Bind.bind, hx s]
  cases p s with
  | error e t => rfl
  | ok a t =>
    simp only [hf a t.1]
    cases g a t.1 <;> rfl

theorem Does.ite {x y : Counted α} {p q : Parse α} {b : Prop} [Decidable b] (hx : Does d x p)
    (hy : Does d y q) : Does d (if b then x else y) (if b then p else q) := by
  split
  · exact hx
  · exact hy

/-- A block that is opened around a rule is closed after it. -/
theorem Does.inside {x : Counted α} {p : Parse α} (h : Does (d + 1) x p) : Does d (inside x) p := by
  intro s
  rw [Counted.inside, h s]
  rfl

theorem Does.depth {f : Nat → Counted α} {p : Parse α} (h : Does d (f d) p) :
    Does d (depth >>= f) p := by
  intro s
  have hbind : (Counted.depth >>= f) s d = f d s d := by
    simp only [Bind.bind, Counted.depth, Pure.pure]
    rcases f d s d with ⟨r, d'⟩
    cases r <;> rfl
  rw [hbind, h s]

/-- Items that keep the count are repeated alike. The induction is that of the repetition. -/
theorem does_many {item? : Token → Option (Counted α)} {item?' : Token → Option (Parse α)}
    (h : ∀ t, Option.Rel (Does d) (item? t) (item?' t)) :
    Does d (many item?) (Parse.many item?') := by
  have hsome {t : Token} {p : Parse α} (ht : item?' t = some p) :
      ∃ x, item? t = some x ∧ Does d x p := by
    have hrel := h t
    rw [ht] at hrel
    generalize item? t = x at hrel ⊢
    cases hrel with
    | some hx => exact ⟨_, rfl, hx⟩
  intro s
  unfold many Parse.many
  fun_induction Parse.items item?' s with
  | case1 s hr => rw [items, dif_pos hr]
  | case2 s hr hitem =>
    have hnone : item? s.cursor.peek = none := by
      have hrel := h s.cursor.peek
      rw [hitem] at hrel
      generalize item? s.cursor.peek = x at hrel ⊢
      cases hrel
      rfl
    rw [items, dif_neg hr, hnone]
  | case3 s hr item hitem hn e t hrun =>
    obtain ⟨x, hx, hdoes⟩ := hsome hitem
    rw [items, dif_neg hr, hx]
    simp only [hdoes _, hrun]
  | case4 s hr item hitem hn a t hrun ht e u htail ih =>
    obtain ⟨x, hx, hdoes⟩ := hsome hitem
    rw [items, dif_neg hr, hx]
    simp only [hdoes _, hrun, ih, htail]
  | case5 s hr item hitem hn a t hrun ht as u htail ih =>
    obtain ⟨x, hx, hdoes⟩ := hsome hitem
    rw [items, dif_neg hr, hx]
    simp only [hdoes _, hrun, ih, htail]

section Forms

variable {block : Place → Counted (List Stmt)} {block' : Place → Parse (List Stmt)}
  (hblock : ∀ place, Does d (block place) (block' place))

include hblock

theorem does_form? (w : Keyword) : Option.Rel (Does d) (form? block w) (Parse.form? block' w) := by
  cases w with
  | branch =>
    refine .some ((does_lift _).bind fun e => (hblock _).bind fun yes =>
      (does_lift _).bind fun t => .ite ?_ (does_pure _))
    exact (does_lift _).bind fun _ => (hblock _).bind fun no => does_pure _
  | loop => exact .some ((does_lift _).bind fun e => (hblock _).bind fun body => does_pure _)
  | processor =>
    exact .some
      ((does_lift _).bind fun p => (does_lift _).bind fun _ => (does_lift _).bind fun params =>
      (hblock _).bind fun body => does_pure _)
  | otherwise => exact .none
  | _ => exact .some (does_lift _)

theorem does_statements : Does d (statements block) (Parse.statements block') := by
  refine does_many ?_
  intro t
  cases t.kind with
  | keyword w =>
    have hform := does_form? hblock w
    simp only
    generalize form? block w = x at hform ⊢
    generalize Parse.form? block' w = p at hform ⊢
    cases hform with
    | none => exact .none
    | some hform =>
      exact .some (hform.bind fun stmt => (does_lift _).bind fun _ => does_pure stmt)
  | _ => exact .none

end Forms

/-- A block inside `d` others may have as many in it as the limit leaves. -/
theorem does_block {room : Nat} (h : nestingLimit ≤ d + room) (place : Place) :
    Does d (block room place) (Parse.block (nestingLimit - d) place) := by
  induction room generalizing d place with
  | zero =>
    have hd : nestingLimit ≤ d := h
    rw [Nat.sub_eq_zero_of_le hd]
    exact (does_lift _).bind fun _ => does_lift _
  | succ room ih =>
    by_cases hd : nestingLimit ≤ d
    · rw [Nat.sub_eq_zero_of_le hd]
      refine (does_lift _).bind fun _ => .depth ?_
      rw [if_pos hd]
      exact does_lift _
    · have hsub : nestingLimit - d = nestingLimit - (d + 1) + 1 := by omega
      have hbody := does_statements (ih (d := d + 1) (by omega))
      rw [hsub]
      refine (does_lift _).bind fun _ => .depth ?_
      rw [if_neg hd]
      refine .inside (hbody.bind fun body => (does_lift _).bind fun t => .ite ?_ ?_)
      · exact (does_lift _).bind fun _ => does_pure body
      · exact (does_lift _).bind fun c => .ite (does_lift _) (does_lift _)

/-- Outside all blocks, reading a program is what it is without a count, and ends outside all
blocks, also if it fails. -/
theorem does_program : Does 0 program Parse.program := by
  have hblock (place : Place) :
      Does 0 (block nestingLimit place) (Parse.block nestingLimit place) :=
    does_block (Nat.le_add_left nestingLimit 0) place
  refine (does_statements hblock).bind fun stmts => (does_lift _).bind fun c =>
    .ite ?_ (does_lift _)
  exact (does_lift _).bind fun _ => does_pure stmts

end Counted

end ImpAsm

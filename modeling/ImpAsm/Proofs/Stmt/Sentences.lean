import ImpAsm.Proofs.Stmt.Decision

open scoped Computability

namespace ImpAsm

/-- The grammar of expressions without limits on nesting and height. -/
def Unlimited (ls : List Lexeme) (e : Expr) : Prop := ∃ n, Derives 1 ls e n

/-- The texts of programs without limits. -/
def programText : Language Lexeme := {ls | ∃ p : Program, Spells Unlimited ls (.stmts p)}

/-- The texts of blocks without limits. -/
def blockText : Language Lexeme := {ls | ∃ ss, Spells Unlimited ls (.block ss)}

/-- The texts behind the keyword of a statement, without limits. -/
def formText (k : Keyword) : Language Lexeme := {ls | ∃ s, Spells Unlimited ls (.after k s)}

theorem mem_separatorText {c : Char} {ls : List Lexeme} :
    ls ∈ separatorText c ↔ IsSeparator c ls := by
  constructor
  · intro h
    obtain ⟨⟨t, _⟩, ⟨rfl, ht⟩, rfl⟩ := h
    exact ⟨t, rfl, ht⟩
  · intro h
    obtain ⟨t, rfl, ht⟩ := h
    exact mem_single ⟨rfl, ht⟩

namespace Parse

theorem mem_nameText {ls : List Lexeme} : ls ∈ nameText ↔ ∃ x, IsName ls x := by
  constructor
  · intro h
    obtain ⟨⟨t, _⟩, ⟨rfl, ht⟩, rfl⟩ := h
    exact ⟨t.text, t, rfl, ht, rfl⟩
  · intro h
    obtain ⟨x, t, rfl, ht, _⟩ := h
    exact mem_single ⟨rfl, ht⟩

theorem mem_equalsText {ls : List Lexeme} : ls ∈ equalsText ↔ IsEquals ls := by
  constructor
  · intro h
    obtain ⟨l, hl, rfl⟩ := h
    exact ⟨l, rfl, hl⟩
  · intro h
    obtain ⟨l, rfl, hl⟩ := h
    exact mem_single hl

section Lists

variable {α : Type} {R : List Lexeme → α → Prop} {L : Language Lexeme} {ls : List Lexeme}

theorem mem_commaItems (hL : ∀ ls, ls ∈ L ↔ ∃ a, R ls a) :
    ls ∈ (separatorText ',' * L)∗ ↔ ∃ as, Repeated (CommaItem R) ls as := by
  constructor
  · intro h
    -- The star has no cases of its own, so the induction is on the length of the text.
    induction hn : ls.length using Nat.strongRecOn generalizing ls with
    | ind n ih =>
      subst hn
      rcases mem_kstar.mp h with rfl | ⟨_, hitem, bs, hbs, rfl⟩
      · exact ⟨[], .nil⟩
      · obtain ⟨_, ⟨⟨t, _⟩, ⟨rfl, ht⟩, rfl⟩, ms, hms, rfl⟩ := Language.mem_mul.mp hitem
        obtain ⟨a, ha⟩ := (hL ms).mp hms
        have hlt : bs.length < ([Lexeme.mk t none] ++ ms ++ bs).length := by
          simp only [List.length_append, List.length_cons]
          omega
        obtain ⟨as, has⟩ := ih _ hlt hbs rfl
        exact ⟨a :: as, .cons ⟨ht, ha⟩ has⟩
  · intro h
    obtain ⟨as, h⟩ := h
    induction h with
    | nil => exact Language.nil_mem_kstar _
    | @cons t ms ns a as h _ ih =>
      have hcomma : [⟨t, none⟩] ∈ separatorText ',' := mem_single ⟨rfl, h.1⟩
      have hitem := Language.append_mem_mul hcomma ((hL ms).mpr ⟨a, h.2⟩)
      exact mem_kstar.mpr (.inr ⟨_, hitem, ns, ih, rfl⟩)

/-- The texts of a list are those of the grammar. -/
theorem mem_listText (hL : ∀ ls, ls ∈ L ↔ ∃ a, R ls a) (ls : List Lexeme) :
    ls ∈ listText L ↔ ∃ ms bs as, ls = ms ++ bs ∧ CommaSeparated R ms as ∧ IsSeparator ')' bs := by
  constructor
  · intro h
    rcases h with h | h
    · exact ⟨[], ls, [], rfl, .nil, mem_separatorText.mp h⟩
    · obtain ⟨ms, hms, _, hrest, rfl⟩ := Language.mem_mul.mp h
      obtain ⟨ns, hns, bs, hbs, rfl⟩ := Language.mem_mul.mp hrest
      obtain ⟨a, ha⟩ := (hL ms).mp hms
      obtain ⟨as, has⟩ := (mem_commaItems hL).mp hns
      exact ⟨ms ++ ns, bs, a :: as, by simp, commaSeparated_cons ha has, mem_separatorText.mp hbs⟩
  · intro h
    obtain ⟨ms, bs, as, rfl, hms, hbs⟩ := h
    have hbs := mem_separatorText.mpr hbs
    rcases CommaSeparated.cases hms with ⟨rfl, _⟩ | ⟨ls₁, ls₂, a, as', rfl, _, ha, has⟩
    · exact .inl hbs
    · rw [List.append_assoc]
      exact .inr (Language.append_mem_mul ((hL ls₁).mpr ⟨a, ha⟩)
        (Language.append_mem_mul ((mem_commaItems hL).mpr ⟨as', has⟩) hbs))

end Lists

variable {ls : List Lexeme}

/-- The texts of a name, an equals sign and a value up to the semicolon. -/
def bindingText : Language Lexeme := nameText * (equalsText * (expressions 1 * separatorText ';'))

/-- The texts of a condition in parentheses. -/
def conditionText : Language Lexeme := separatorText '(' * (expressions 1 * separatorText ')')

/-- The texts that end a statement behind its last argument. -/
def endText : Language Lexeme := separatorText ')' * separatorText ';'

theorem mem_endText :
    ls ∈ endText ↔ ∃ bs cs, ls = bs ++ cs ∧ IsSeparator ')' bs ∧ IsSeparator ';' cs := by
  constructor
  · intro h
    obtain ⟨bs, hb, cs, hc, rfl⟩ := Language.mem_mul.mp h
    exact ⟨bs, cs, rfl, mem_separatorText.mp hb, mem_separatorText.mp hc⟩
  · intro h
    obtain ⟨bs, cs, rfl, hb, hc⟩ := h
    exact Language.append_mem_mul (mem_separatorText.mpr hb) (mem_separatorText.mpr hc)

theorem mem_bindingText :
    ls ∈ bindingText ↔ ∃ xs as es cs x e, ls = xs ++ (as ++ (es ++ cs)) ∧ IsName xs x ∧
      IsEquals as ∧
      Unlimited es e ∧ IsSeparator ';' cs := by
  constructor
  · intro h
    obtain ⟨xs, hx, _, hvalue, rfl⟩ := Language.mem_mul.mp h
    obtain ⟨as, ha, _, hend, rfl⟩ := Language.mem_mul.mp hvalue
    obtain ⟨es, ⟨e, he⟩, cs, hc, rfl⟩ := Language.mem_mul.mp hend
    obtain ⟨x, hx⟩ := mem_nameText.mp hx
    exact ⟨xs, as, es, cs, x, e, rfl, hx, mem_equalsText.mp ha, he, mem_separatorText.mp hc⟩
  · intro h
    obtain ⟨xs, as, es, cs, x, e, rfl, hx, ha, he, hc⟩ := h
    apply Language.append_mem_mul (mem_nameText.mpr ⟨x, hx⟩)
    apply Language.append_mem_mul (mem_equalsText.mpr ha)
    exact Language.append_mem_mul ⟨e, he⟩ (mem_separatorText.mpr hc)

theorem mem_conditionText :
    ls ∈ conditionText ↔ ∃ as es bs e, ls = as ++ (es ++ bs) ∧ IsSeparator '(' as ∧ Unlimited es e ∧
      IsSeparator ')' bs := by
  constructor
  · intro h
    obtain ⟨as, ha, _, hinner, rfl⟩ := Language.mem_mul.mp h
    obtain ⟨es, ⟨e, he⟩, bs, hb, rfl⟩ := Language.mem_mul.mp hinner
    exact ⟨as, es, bs, e, rfl, mem_separatorText.mp ha, he, mem_separatorText.mp hb⟩
  · intro h
    obtain ⟨as, es, bs, e, rfl, ha, he, hb⟩ := h
    apply Language.append_mem_mul (mem_separatorText.mpr ha)
    exact Language.append_mem_mul ⟨e, he⟩ (mem_separatorText.mpr hb)

theorem formText_exit : formText .exit = separatorText '(' * (expressions 1 * endText) := by
  ext ls
  constructor
  · intro h
    obtain ⟨s, h⟩ := h
    cases h with
    | @exit e as es bs cs ha he hb hc =>
      apply Language.append_mem_mul (mem_separatorText.mpr ha)
      exact Language.append_mem_mul ⟨e, he⟩ (mem_endText.mpr ⟨bs, cs, rfl, hb, hc⟩)
  · intro h
    obtain ⟨as, ha, _, hrest, rfl⟩ := Language.mem_mul.mp h
    obtain ⟨es, ⟨e, he⟩, _, hend, rfl⟩ := Language.mem_mul.mp hrest
    obtain ⟨bs, cs, rfl, hb, hc⟩ := mem_endText.mp hend
    exact ⟨_, .exit (mem_separatorText.mp ha) he hb hc⟩

theorem formText_print :
    formText .print =
      separatorText '(' *
        (tokenText (fun t => t.kind = .str) * endText + expressions 1 * endText) := by
  ext ls
  constructor
  · intro h
    obtain ⟨s, h⟩ := h
    cases h with
    | @printText t as bs cs ha ht hb hc =>
      have htext : [⟨t, none⟩] ∈ tokenText fun t => t.kind = .str := mem_single ⟨rfl, ht⟩
      apply Language.append_mem_mul (mem_separatorText.mpr ha)
      exact .inl (Language.append_mem_mul htext (mem_endText.mpr ⟨bs, cs, rfl, hb, hc⟩))
    | @printValue e as es bs cs ha he hb hc =>
      apply Language.append_mem_mul (mem_separatorText.mpr ha)
      exact .inr (Language.append_mem_mul ⟨e, he⟩ (mem_endText.mpr ⟨bs, cs, rfl, hb, hc⟩))
  · intro h
    obtain ⟨as, ha, _, hrest, rfl⟩ := Language.mem_mul.mp h
    rcases hrest with hrest | hrest
    · obtain ⟨_, ⟨⟨t, _⟩, ⟨rfl, ht⟩, rfl⟩, _, hend, rfl⟩ := Language.mem_mul.mp hrest
      obtain ⟨bs, cs, rfl, hb, hc⟩ := mem_endText.mp hend
      have hprint : Spells Unlimited (as ++ ⟨t, none⟩ :: (bs ++ cs)) _ :=
        .printText (mem_separatorText.mp ha) ht hb hc
      exact ⟨_, hprint⟩
    · obtain ⟨es, ⟨e, he⟩, _, hend, rfl⟩ := Language.mem_mul.mp hrest
      obtain ⟨bs, cs, rfl, hb, hc⟩ := mem_endText.mp hend
      exact ⟨_, .printValue (mem_separatorText.mp ha) he hb hc⟩

theorem formText_declare : formText .declare = bindingText := by
  ext ls
  rw [mem_bindingText]
  constructor
  · intro h
    obtain ⟨s, h⟩ := h
    cases h with
    | declare hx ha he hc => exact ⟨_, _, _, _, _, _, rfl, hx, ha, he, hc⟩
  · intro h
    obtain ⟨_, _, _, _, _, _, rfl, hx, ha, he, hc⟩ := h
    exact ⟨_, .declare hx ha he hc⟩

theorem formText_assign : formText .assign = bindingText := by
  ext ls
  rw [mem_bindingText]
  constructor
  · intro h
    obtain ⟨s, h⟩ := h
    cases h with
    | assign hx ha he hc => exact ⟨_, _, _, _, _, _, rfl, hx, ha, he, hc⟩
  · intro h
    obtain ⟨_, _, _, _, _, _, rfl, hx, ha, he, hc⟩ := h
    exact ⟨_, .assign hx ha he hc⟩

theorem formText_loop : formText .loop = conditionText * blockText := by
  ext ls
  constructor
  · intro h
    obtain ⟨s, h⟩ := h
    cases h with
    | @loop e body as es bs ys ha he hb hy =>
      have hmul := Language.append_mem_mul (mem_conditionText.mpr ⟨as, es, bs, e, rfl, ha, he, hb⟩)
        (show ys ∈ blockText from ⟨body, hy⟩)
      simpa using hmul
  · intro h
    obtain ⟨_, hcondition, ys, ⟨body, hy⟩, rfl⟩ := Language.mem_mul.mp h
    obtain ⟨as, es, bs, e, rfl, ha, he, hb⟩ := mem_conditionText.mp hcondition
    rw [List.append_assoc, List.append_assoc]
    exact ⟨_, .loop ha he hb hy⟩

theorem formText_branch :
    formText .branch =
      conditionText *
        (blockText * (tokenText (fun t => t.isKeyword .otherwise) * blockText + 1)) := by
  ext ls
  constructor
  · intro h
    obtain ⟨s, h⟩ := h
    cases h with
    | @branch e yes as es bs ys ha he hb hy =>
      have hmul := Language.append_mem_mul (mem_conditionText.mpr ⟨as, es, bs, e, rfl, ha, he, hb⟩)
        (Language.append_mem_mul (show ys ∈ blockText from ⟨yes, hy⟩)
          (show [] ∈ tokenText (fun t => t.isKeyword .otherwise) * blockText + 1 from .inr rfl))
      simpa using hmul
    | @branchElse e yes no t as es bs ys ns ha he hb hy ht hn =>
      have hword : [⟨t, none⟩] ∈ tokenText fun t => t.isKeyword .otherwise := mem_single ⟨rfl, ht⟩
      have helse := Language.append_mem_mul hword (show ns ∈ blockText from ⟨no, hn⟩)
      have hmul := Language.append_mem_mul (mem_conditionText.mpr ⟨as, es, bs, e, rfl, ha, he, hb⟩)
        (Language.append_mem_mul (show ys ∈ blockText from ⟨yes, hy⟩)
          (show _ ∈ tokenText (fun t => t.isKeyword .otherwise) * blockText + 1 from .inl helse))
      simpa using hmul
  · intro h
    obtain ⟨_, hcondition, _, hrest, rfl⟩ := Language.mem_mul.mp h
    obtain ⟨as, es, bs, e, rfl, ha, he, hb⟩ := mem_conditionText.mp hcondition
    obtain ⟨ys, ⟨yes, hy⟩, _, helse, rfl⟩ := Language.mem_mul.mp hrest
    rw [List.append_assoc, List.append_assoc]
    rcases helse with helse | hnil
    · obtain ⟨_, ⟨⟨t, _⟩, ⟨rfl, ht⟩, rfl⟩, ns, ⟨no, hn⟩, rfl⟩ := Language.mem_mul.mp helse
      exact ⟨_, .branchElse ha he hb hy ht hn⟩
    · rw [show _ = [] from hnil, List.append_nil]
      exact ⟨_, .branch ha he hb hy⟩

theorem formText_call :
    formText .call =
      nameText * (separatorText '(' * (listText (expressions 1) * separatorText ';')) := by
  have hlist := mem_listText (L := expressions 1) (R := Unlimited) fun _ => .rfl
  ext ls
  constructor
  · intro h
    obtain ⟨s, h⟩ := h
    cases h with
    | @call f args fs as es bs cs hf ha he hb hc =>
      have hargs := (hlist _).mpr ⟨es, bs, args, rfl, he, hb⟩
      apply Language.append_mem_mul (mem_nameText.mpr ⟨f, hf⟩)
      apply Language.append_mem_mul (mem_separatorText.mpr ha)
      rw [← List.append_assoc]
      exact Language.append_mem_mul hargs (mem_separatorText.mpr hc)
  · intro h
    obtain ⟨fs, hf, _, hrest, rfl⟩ := Language.mem_mul.mp h
    obtain ⟨as, ha, _, hargs, rfl⟩ := Language.mem_mul.mp hrest
    obtain ⟨_, hlist', cs, hc, rfl⟩ := Language.mem_mul.mp hargs
    obtain ⟨f, hf⟩ := mem_nameText.mp hf
    obtain ⟨es, bs, args, rfl, he, hb⟩ := (hlist _).mp hlist'
    rw [List.append_assoc]
    exact ⟨_, .call hf (mem_separatorText.mp ha) he hb (mem_separatorText.mp hc)⟩

theorem formText_processor :
    formText .processor = nameText * (separatorText '(' * (listText nameText * blockText)) := by
  have hlist := mem_listText fun _ => mem_nameText
  ext ls
  constructor
  · intro h
    obtain ⟨s, h⟩ := h
    cases h with
    | @processor p params body ps as es bs ys hp ha he hb hy =>
      have hparams := (hlist _).mpr ⟨es, bs, params, rfl, he, hb⟩
      apply Language.append_mem_mul (mem_nameText.mpr ⟨p, hp⟩)
      apply Language.append_mem_mul (mem_separatorText.mpr ha)
      rw [← List.append_assoc]
      exact Language.append_mem_mul hparams ⟨body, hy⟩
  · intro h
    obtain ⟨ps, hp, _, hrest, rfl⟩ := Language.mem_mul.mp h
    obtain ⟨as, ha, _, hparams, rfl⟩ := Language.mem_mul.mp hrest
    obtain ⟨_, hlist', ys, ⟨body, hy⟩, rfl⟩ := Language.mem_mul.mp hparams
    obtain ⟨p, hp⟩ := mem_nameText.mp hp
    obtain ⟨es, bs, params, rfl, he, hb⟩ := (hlist _).mp hlist'
    rw [List.append_assoc]
    exact ⟨_, .processor hp (mem_separatorText.mp ha) he hb hy⟩

theorem blockText_eq : blockText = separatorText '\x7b' * (programText * separatorText '\x7d') := by
  ext ls
  constructor
  · intro h
    obtain ⟨ss, h⟩ := h
    cases h with
    | @block _ as ls bs ha h hb =>
      apply Language.append_mem_mul (mem_separatorText.mpr ha)
      exact Language.append_mem_mul ⟨ss, h⟩ (mem_separatorText.mpr hb)
  · intro h
    obtain ⟨as, ha, _, hrest, rfl⟩ := Language.mem_mul.mp h
    obtain ⟨ms, ⟨ss, hs⟩, bs, hb, rfl⟩ := Language.mem_mul.mp hrest
    exact ⟨_, .block (mem_separatorText.mp ha) hs (mem_separatorText.mp hb)⟩

/-- The tokens that start a statement. -/
def StartsStatement (t : Token) : Prop := ∃ k, t.kind = .keyword k ∧ k ≠ .otherwise

/-- The texts behind the token that starts a statement. -/
def statementText (t : Token) : Language Lexeme := {ls | ∃ k, t.isKeyword k ∧ ls ∈ formText k}

theorem statementText_of_keyword {t : Token} {k : Keyword} (hk : t.kind = .keyword k) :
    statementText t = formText k := by
  ext ls
  constructor
  · intro h
    obtain ⟨k', hk', h⟩ := h
    obtain rfl : k = k' := by simpa [hk] using kind_of_isKeyword hk'
    exact h
  · intro h
    exact ⟨k, by simp [Token.isKeyword, hk], h⟩

theorem not_mem_formText_otherwise : ls ∉ formText .otherwise := by
  intro h
  obtain ⟨s, h⟩ := h
  cases h

theorem programText_eq : programText = (itemText StartsStatement statementText)∗ := by
  ext ls
  constructor
  · intro h
    obtain ⟨p, h⟩ := h
    induction p generalizing ls with
    | nil =>
      cases h with
      | nil => exact Language.nil_mem_kstar _
    | cons s p ih =>
      cases h with
      | @cons k t _ _ ls ms hk h hs =>
        have hform : ls ∈ formText k := ⟨s, h⟩
        have hstart : StartsStatement t := by
          refine ⟨k, kind_of_isKeyword hk, ?_⟩
          intro hother
          exact not_mem_formText_otherwise (hother ▸ hform)
        exact mem_kstar.mpr (.inr ⟨_, ⟨t, ls, hstart, ⟨k, hk, hform⟩, rfl⟩, ms, ih ms hs, rfl⟩)
  · intro h
    induction hn : ls.length using Nat.strongRecOn generalizing ls with
    | ind n ih =>
      subst hn
      rcases mem_kstar.mp h with rfl | ⟨_, ⟨t, as, _, ⟨k, hk, s, hs⟩, rfl⟩, bs, hbs, rfl⟩
      · exact ⟨[], .nil⟩
      · have hlt : bs.length < (⟨t, none⟩ :: as ++ bs).length := by
          simp only [List.length_append, List.length_cons]
          omega
        obtain ⟨p, hp⟩ := ih bs.length hlt bs hbs rfl
        exact ⟨s :: p, .cons hk hs hp⟩

end Parse

end ImpAsm

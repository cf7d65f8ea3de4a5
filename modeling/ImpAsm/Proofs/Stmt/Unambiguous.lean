import ImpAsm.Proofs.Stmt.Faults

namespace ImpAsm

open Parse

/-- `ls` is the only text of the rule `R` that opens what it opens, and `a` its only meaning. Only
texts in front of a lexeme that satisfies `F` are compared. -/
def OnlyReading {α : Type} (R : List Lexeme → α → Prop) (F : Option Lexeme → Prop)
    (ls : List Lexeme) (a : α) : Prop :=
  ∀ ⦃ls' rest rest' : List Lexeme⦄ ⦃a' : α⦄, R ls' a' → ls ++ rest = ls' ++ rest' →
    F rest.head? → F rest'.head? → ls = ls' ∧ a = a' ∧ rest = rest'

section Parts

variable {as as' es es' bs bs' cs cs' xs xs' rest rest' : List Lexeme} {e e' : Expr} {x x' : String}
  {c : Char}

theorem IsSeparator.length (h : IsSeparator c as) : as.length = 1 := by
  obtain ⟨t, rfl, _⟩ := h
  rfl

theorem IsSeparator.cancel (h : IsSeparator c as) (h' : IsSeparator c as')
    (heq : as ++ rest = as' ++ rest') : as = as' ∧ rest = rest' :=
  List.append_inj heq (h.length.trans h'.length.symm)

theorem IsSeparator.head?_append (h : IsSeparator c as) (rest : List Lexeme) :
    ∃ t, (as ++ rest).head? = some ⟨t, none⟩ ∧ t.isSeparator c := by
  obtain ⟨t, rfl, ht⟩ := h
  exact ⟨t, rfl, ht⟩

theorem IsSeparator.endsBefore (h : IsSeparator c as) (rest : List Lexeme) :
    EndsBefore 1 (as ++ rest).head? := by
  obtain ⟨t, hhead, ht⟩ := h.head?_append rest
  rw [hhead]
  exact endsBefore_separator rfl (Derives.kind_of_isSeparator ht)

theorem IsSeparator.noKeywordNext (h : IsSeparator c as) (rest : List Lexeme) :
    NoKeywordNext (as ++ rest).head? := by
  obtain ⟨t, hhead, ht⟩ := h.head?_append rest
  rw [hhead]
  intro l hl k hk
  obtain rfl : ⟨t, none⟩ = l := by simpa using hl
  simp [Derives.kind_of_isSeparator ht] at hk

theorem IsEquals.cancel (h : IsEquals as) (h' : IsEquals as') (heq : as ++ rest = as' ++ rest') :
    as = as' ∧ rest = rest' := by
  obtain ⟨l, rfl, _⟩ := h
  obtain ⟨l', rfl, _⟩ := h'
  exact List.append_inj heq rfl

theorem IsName.onlyReading (h : IsName xs x) : OnlyReading IsName anyNext xs x := by
  intro xs' rest rest' x' h' heq _ _
  obtain ⟨t, rfl, _, rfl⟩ := h
  obtain ⟨t', rfl, _, rfl⟩ := h'
  obtain ⟨rfl, rfl⟩ : t = t' ∧ rest = rest' := by simpa using heq
  exact ⟨rfl, rfl, rfl⟩

theorem Unlimited.onlyReading (h : Unlimited es e) : OnlyReading Unlimited (EndsBefore 1) es e := by
  intro es' rest rest' e' h' heq hF hF'
  obtain ⟨n, hd⟩ := h
  obtain ⟨n', hd'⟩ := h'
  obtain ⟨rfl, rfl, _⟩ :=
    derives_unique es.length (by omega) (by omega) (Nat.le_refl _) hd hd' heq hF hF'
  exact ⟨rfl, rfl, List.append_cancel_left heq⟩

/-- A value in parentheses can be read in one way only. -/
theorem inParens_cancel (ha : IsSeparator '(' as) (he : Unlimited es e) (hb : IsSeparator ')' bs)
    (ha' : IsSeparator '(' as') (he' : Unlimited es' e') (hb' : IsSeparator ')' bs')
    (heq : as ++ (es ++ (bs ++ rest)) = as' ++ (es' ++ (bs' ++ rest'))) :
    as = as' ∧ es = es' ∧ e = e' ∧ bs = bs' ∧ rest = rest' := by
  obtain ⟨has, hvalue⟩ := ha.cancel ha' heq
  obtain ⟨hes, he, hclose⟩ := he.onlyReading he' hvalue (hb.endsBefore _) (hb'.endsBefore _)
  obtain ⟨hbs, hrest⟩ := hb.cancel hb' hclose
  exact ⟨has, hes, he, hbs, hrest⟩

/-- So can a binding up to its semicolon. -/
theorem binding_cancel (hx : IsName xs x) (ha : IsEquals as) (he : Unlimited es e)
    (hc : IsSeparator ';' cs) (hx' : IsName xs' x') (ha' : IsEquals as') (he' : Unlimited es' e')
    (hc' : IsSeparator ';' cs')
    (heq : xs ++ (as ++ (es ++ (cs ++ rest))) = xs' ++ (as' ++ (es' ++ (cs' ++ rest')))) :
    xs ++ (as ++ (es ++ cs)) = xs' ++ (as' ++ (es' ++ cs')) ∧ x = x' ∧ e = e' ∧ rest = rest' := by
  obtain ⟨rfl, hname, hequals⟩ := hx.onlyReading hx' heq trivial trivial
  obtain ⟨rfl, hright⟩ := ha.cancel ha' hequals
  obtain ⟨rfl, hvalue, hend⟩ := he.onlyReading he' hright (hc.endsBefore _) (hc'.endsBefore _)
  obtain ⟨rfl, hrest⟩ := hc.cancel hc' hend
  exact ⟨rfl, hname, hvalue, hrest⟩

end Parts

section Lists

variable {α : Type} {R : List Lexeme → α → Prop} {G : Option Lexeme → Prop} {ls rest : List Lexeme}
  {as : List α}

/-- The parenthesis that closes a list comes next. -/
def ClosingNext (next : Option Lexeme) : Prop := ∃ t, next = some ⟨t, none⟩ ∧ t.isSeparator ')'

theorem not_closingNext_comma {t : Token} {ms : List Lexeme} (ht : t.isSeparator ',') :
    ¬ ClosingNext (Lexeme.mk t none :: ms).head? := by
  intro hclose
  obtain ⟨t', ht', hsep⟩ := hclose
  obtain rfl : t = t' := by simpa using ht'
  exact isSeparator_comma_of_closing hsep ht

theorem closingNext_append {bs : List Lexeme} (h : IsSeparator ')' bs) (rest : List Lexeme) :
    ClosingNext (bs ++ rest).head? := h.head?_append rest

variable (hR : ∀ ls a, R ls a → OnlyReading R G ls a)
  (hG : ∀ t : Token, t.kind = .separator → G (some ⟨t, none⟩))

include hG in
/-- A comma or the closing parenthesis stands behind each item of a list. -/
theorem Parse.Repeated.separatorNext (h : Repeated (CommaItem R) ls as)
    (hclose : ClosingNext rest.head?) :
    G (ls ++ rest).head? := by
  cases h with
  | nil =>
    obtain ⟨t, ht, hsep⟩ := hclose
    rw [List.nil_append, ht]
    exact hG t (Derives.kind_of_isSeparator hsep)
  | cons hitem _ => exact hG _ (Derives.kind_of_isSeparator hitem.1)

include hR hG

theorem Parse.Repeated.onlyReading (h : Repeated (CommaItem R) ls as) :
    OnlyReading (Repeated (CommaItem R)) ClosingNext ls as := by
  induction h with
  | nil =>
    intro ls' rest rest' as' h' heq hF hF'
    cases h' with
    | nil => exact ⟨rfl, rfl, heq⟩
    | cons hitem' _ =>
      rw [show rest = _ from heq] at hF
      exact absurd hF (not_closingNext_comma hitem'.1)
  | @cons t ls ms a as hitem hs ih =>
    intro ls' rest rest' as' h' heq hF hF'
    cases h' with
    | nil =>
      rw [show rest' = _ from heq.symm] at hF'
      exact absurd hF' (not_closingNext_comma hitem.1)
    | @cons t' ls' ms' a' as' hitem' hs' =>
      simp only [List.cons_append, List.append_assoc, List.cons.injEq] at heq
      obtain ⟨ht, heq⟩ := heq
      have hfirst := hR _ _ hitem.2 hitem'.2 heq (hs.separatorNext hG hF) (hs'.separatorNext hG hF')
      obtain ⟨rfl, rfl, hmore⟩ := hfirst
      obtain ⟨rfl, rfl, hrest⟩ := ih hs' hmore hF hF'
      exact ⟨by rw [ht], rfl, hrest⟩

/-- Items between commas can be read in one way only up to the parenthesis behind them, if no item
starts with one. -/
theorem commaSeparated_onlyReading (hopen : ∀ ls a rest, R ls a → ¬ ClosingNext (ls ++ rest).head?)
    (h : CommaSeparated R ls as) : OnlyReading (CommaSeparated R) ClosingNext ls as := by
  intro ls' rest rest' as' h' heq hF hF'
  rcases CommaSeparated.cases h with ⟨rfl, rfl⟩ | ⟨ms, ns, a, as, rfl, rfl, ha, hs⟩
  · rcases CommaSeparated.cases h' with ⟨rfl, rfl⟩ | ⟨ms', ns', a', as', rfl, rfl, ha', hs'⟩
    · exact ⟨rfl, rfl, heq⟩
    · rw [show rest = _ from heq, List.append_assoc] at hF
      exact absurd hF (hopen _ _ _ ha')
  · rcases CommaSeparated.cases h' with ⟨rfl, rfl⟩ | ⟨ms', ns', a', as', rfl, rfl, ha', hs'⟩
    · rw [show rest' = _ from heq.symm, List.append_assoc] at hF'
      exact absurd hF' (hopen _ _ _ ha)
    · rw [List.append_assoc, List.append_assoc] at heq
      obtain ⟨rfl, rfl, hmore⟩ :=
        hR _ _ ha ha' heq (hs.separatorNext hG hF) (hs'.separatorNext hG hF')
      obtain ⟨rfl, rfl, hrest⟩ := hs.onlyReading hR hG hs' hmore hF hF'
      exact ⟨rfl, rfl, hrest⟩

end Lists

theorem not_closingNext_name {xs : List Lexeme} {x : String} (rest : List Lexeme)
    (h : IsName xs x) :
    ¬ ClosingNext (xs ++ rest).head? := by
  obtain ⟨t, rfl, hk, _⟩ := h
  intro hclose
  obtain ⟨t', ht', hsep⟩ := hclose
  obtain rfl : t = t' := by simpa using ht'
  simp [Derives.kind_of_isSeparator hsep] at hk

/-- An expression starts with no single token that is a string or a closing parenthesis. -/
theorem Unlimited.head?_append {es rest : List Lexeme} {e : Expr} {t : Token} (h : Unlimited es e)
    (ht : (es ++ rest).head? = some ⟨t, none⟩) : t.kind ≠ .str ∧ ¬ t.isSeparator ')' := by
  obtain ⟨l, ms, rfl, hl⟩ := startsUnary_of_mem (show es ∈ expressions 1 from ⟨e, h⟩)
  obtain rfl : l = ⟨t, none⟩ := by simpa using ht
  exact hl.kind (by simp [Lexeme.Proper])

theorem not_closingNext_expression {es : List Lexeme} {e : Expr} (rest : List Lexeme)
    (h : Unlimited es e) : ¬ ClosingNext (es ++ rest).head? := by
  intro hclose
  obtain ⟨t, ht, hsep⟩ := hclose
  exact (h.head?_append ht).2 hsep

theorem arguments_onlyReading {ls : List Lexeme} {args : List Expr}
    (h : CommaSeparated Unlimited ls args) :
    OnlyReading (CommaSeparated Unlimited) ClosingNext ls args :=
  commaSeparated_onlyReading (fun _ _ he => he.onlyReading)
    (fun _ hk => endsBefore_separator rfl hk)
    (fun _ _ rest he => not_closingNext_expression rest he) h

theorem parameters_onlyReading {ls : List Lexeme} {params : List String}
    (h : CommaSeparated IsName ls params) :
    OnlyReading (CommaSeparated IsName) ClosingNext ls params :=
  commaSeparated_onlyReading (fun _ _ hx => hx.onlyReading) (fun _ _ => trivial)
    (fun _ _ rest hx => not_closingNext_name rest hx) h

/-- A part of a program is the only one of its kind that `ls` can open, as long as a sequence of
statements is followed by no further keyword and a statement by no `else`. -/
def Phrase.Only (ls : List Lexeme) : Phrase → Prop
  | .stmts ss => OnlyReading (fun ls ss => Spells Unlimited ls (.stmts ss)) NoKeywordNext ls ss
  | .block ss => OnlyReading (fun ls ss => Spells Unlimited ls (.block ss)) anyNext ls ss
  | .after k s => OnlyReading (fun ls s => Spells Unlimited ls (.after k s)) NotElseNext ls s

/-- No statement starts with an `else`. -/
theorem Spells.notElseNext {ls rest : List Lexeme} {ss : List Stmt}
    (h : Spells Unlimited ls (.stmts ss)) (hrest : NoKeywordNext rest.head?) :
    NotElseNext (ls ++ rest).head? := by
  cases h with
  | nil => exact hrest.notElse
  | @cons k t s ss ls ms hk hs _ =>
    intro l hl hother
    obtain rfl : ⟨t, none⟩ = l := by simpa using hl
    obtain rfl : k = .otherwise := by simpa [kind_of_isKeyword hk] using kind_of_isKeyword hother
    cases hs

/-- The grammar of programs is unambiguous. The induction is on one of the two derivations; each
rule gives its parts back one after the other, from the front. -/
theorem Spells.only {ls : List Lexeme} {ph : Phrase} (h : Spells Unlimited ls ph) : ph.Only ls := by
  induction h with
  | nil =>
    intro ls' rest rest' ss' h' heq hF hF'
    cases h' with
    | nil => exact ⟨rfl, rfl, heq⟩
    | @cons k t s ss ls ms hk _ _ =>
      rw [show rest = _ from heq] at hF
      exact absurd (kind_of_isKeyword hk) (hF _ rfl k)
  | @cons k t s ss ls ms hk h hs ih ihs =>
    intro ls' rest rest' ss' h' heq hF hF'
    cases h' with
    | nil =>
      rw [show rest' = _ from heq.symm] at hF'
      exact absurd (kind_of_isKeyword hk) (hF' _ rfl k)
    | @cons k' t' s' ss' ls' ms' hk' h' hs' =>
      simp only [List.cons_append, List.append_assoc, List.cons.injEq, Lexeme.mk.injEq,
        and_true] at heq
      obtain ⟨rfl, heq⟩ := heq
      obtain rfl : k = k' := by simpa [kind_of_isKeyword hk] using kind_of_isKeyword hk'
      obtain ⟨rfl, rfl, hmore⟩ := ih h' heq (hs.notElseNext hF) (hs'.notElseNext hF')
      obtain ⟨rfl, rfl, hrest⟩ := ihs hs' hmore hF hF'
      exact ⟨rfl, rfl, hrest⟩
  | @block ss as ls bs ha h hb ih =>
    intro ls' rest rest' ss' h' heq _ _
    cases h' with
    | @block _ as' ls' bs' ha' h' hb' =>
      simp only [List.append_assoc] at heq
      obtain ⟨rfl, hbody⟩ := ha.cancel ha' heq
      obtain ⟨rfl, rfl, hend⟩ := ih h' hbody (hb.noKeywordNext rest) (hb'.noKeywordNext rest')
      obtain ⟨rfl, hrest⟩ := hb.cancel hb' hend
      exact ⟨rfl, rfl, hrest⟩
  | @exit e as es bs cs ha he hb hc =>
    intro ls' rest rest' s' h' heq _ _
    cases h' with
    | exit ha' he' hb' hc' =>
      simp only [List.append_assoc] at heq
      obtain ⟨rfl, rfl, rfl, rfl, hend⟩ := inParens_cancel ha he hb ha' he' hb' heq
      obtain ⟨rfl, hrest⟩ := hc.cancel hc' hend
      exact ⟨rfl, rfl, hrest⟩
  | @printText t as bs cs ha ht hb hc =>
    intro ls' rest rest' s' h' heq _ _
    cases h' with
    | @printText t' as' bs' cs' ha' ht' hb' hc' =>
      simp only [List.append_assoc, List.cons_append] at heq
      obtain ⟨rfl, htext⟩ := ha.cancel ha' heq
      obtain ⟨rfl, hclose⟩ : t = t' ∧ bs ++ (cs ++ rest) = bs' ++ (cs' ++ rest') := by
        simpa using htext
      obtain ⟨rfl, hend⟩ := hb.cancel hb' hclose
      obtain ⟨rfl, hrest⟩ := hc.cancel hc' hend
      exact ⟨rfl, rfl, hrest⟩
    | @printValue e' as' es' bs' cs' ha' he' hb' hc' =>
      simp only [List.append_assoc, List.cons_append] at heq
      obtain ⟨_, htext⟩ := ha.cancel ha' heq
      exact absurd ht (he'.head?_append (by rw [← htext]; rfl)).1
  | @printValue e as es bs cs ha he hb hc =>
    intro ls' rest rest' s' h' heq _ _
    cases h' with
    | @printText t' as' bs' cs' ha' ht' hb' hc' =>
      simp only [List.append_assoc, List.cons_append] at heq
      obtain ⟨_, htext⟩ := ha.cancel ha' heq
      exact absurd ht' (he.head?_append (by rw [htext]; rfl)).1
    | printValue ha' he' hb' hc' =>
      simp only [List.append_assoc] at heq
      obtain ⟨rfl, rfl, rfl, rfl, hend⟩ := inParens_cancel ha he hb ha' he' hb' heq
      obtain ⟨rfl, hrest⟩ := hc.cancel hc' hend
      exact ⟨rfl, rfl, hrest⟩
  | declare hx ha he hc =>
    intro ls' rest rest' s' h' heq _ _
    cases h' with
    | declare hx' ha' he' hc' =>
      simp only [List.append_assoc] at heq
      obtain ⟨hls, rfl, rfl, hrest⟩ := binding_cancel hx ha he hc hx' ha' he' hc' heq
      exact ⟨hls, rfl, hrest⟩
  | assign hx ha he hc =>
    intro ls' rest rest' s' h' heq _ _
    cases h' with
    | assign hx' ha' he' hc' =>
      simp only [List.append_assoc] at heq
      obtain ⟨hls, rfl, rfl, hrest⟩ := binding_cancel hx ha he hc hx' ha' he' hc' heq
      exact ⟨hls, rfl, hrest⟩
  | branch ha he hb hy ih =>
    intro ls' rest rest' s' h' heq hF hF'
    cases h' with
    | branch ha' he' hb' hy' =>
      simp only [List.append_assoc] at heq
      obtain ⟨rfl, rfl, rfl, rfl, hblock⟩ := inParens_cancel ha he hb ha' he' hb' heq
      obtain ⟨rfl, rfl, hrest⟩ := ih hy' hblock trivial trivial
      exact ⟨rfl, rfl, hrest⟩
    | branchElse ha' he' hb' hy' ht' hn' =>
      simp only [List.append_assoc, List.cons_append] at heq
      obtain ⟨rfl, rfl, rfl, rfl, hblock⟩ := inParens_cancel ha he hb ha' he' hb' heq
      obtain ⟨_, _, hrest⟩ := ih hy' hblock trivial trivial
      rw [hrest] at hF
      exact absurd ht' (hF _ rfl)
  | @branchElse e yes no t as es bs ys ns ha he hb hy ht hn ihy ihn =>
    intro ls' rest rest' s' h' heq hF hF'
    cases h' with
    | branch ha' he' hb' hy' =>
      simp only [List.append_assoc, List.cons_append] at heq
      obtain ⟨rfl, rfl, rfl, rfl, hblock⟩ := inParens_cancel ha he hb ha' he' hb' heq
      obtain ⟨_, _, hrest⟩ := ihy hy' hblock trivial trivial
      rw [← hrest] at hF'
      exact absurd ht (hF' _ rfl)
    | @branchElse e' yes' no' t' as' es' bs' ys' ns' ha' he' hb' hy' ht' hn' =>
      simp only [List.append_assoc, List.cons_append] at heq
      obtain ⟨rfl, rfl, rfl, rfl, hblock⟩ := inParens_cancel ha he hb ha' he' hb' heq
      obtain ⟨rfl, rfl, helse⟩ := ihy hy' hblock trivial trivial
      obtain ⟨rfl, hno⟩ : t = t' ∧ ns ++ rest = ns' ++ rest' := by simpa using helse
      obtain ⟨rfl, rfl, hrest⟩ := ihn hn' hno trivial trivial
      exact ⟨rfl, rfl, hrest⟩
  | loop ha he hb hy ih =>
    intro ls' rest rest' s' h' heq _ _
    cases h' with
    | loop ha' he' hb' hy' =>
      simp only [List.append_assoc] at heq
      obtain ⟨rfl, rfl, rfl, rfl, hblock⟩ := inParens_cancel ha he hb ha' he' hb' heq
      obtain ⟨rfl, rfl, hrest⟩ := ih hy' hblock trivial trivial
      exact ⟨rfl, rfl, hrest⟩
  | call hf ha he hb hc =>
    intro ls' rest rest' s' h' heq _ _
    cases h' with
    | call hf' ha' he' hb' hc' =>
      simp only [List.append_assoc] at heq
      obtain ⟨rfl, rfl, hopen⟩ := hf.onlyReading hf' heq trivial trivial
      obtain ⟨rfl, hargs⟩ := ha.cancel ha' hopen
      obtain ⟨rfl, rfl, hclose⟩ :=
        arguments_onlyReading he he' hargs (closingNext_append hb _) (closingNext_append hb' _)
      obtain ⟨rfl, hend⟩ := hb.cancel hb' hclose
      obtain ⟨rfl, hrest⟩ := hc.cancel hc' hend
      exact ⟨rfl, rfl, hrest⟩
  | processor hp ha he hb hy ih =>
    intro ls' rest rest' s' h' heq _ _
    cases h' with
    | processor hp' ha' he' hb' hy' =>
      simp only [List.append_assoc] at heq
      obtain ⟨rfl, rfl, hopen⟩ := hp.onlyReading hp' heq trivial trivial
      obtain ⟨rfl, hparams⟩ := ha.cancel ha' hopen
      obtain ⟨rfl, rfl, hclose⟩ :=
        parameters_onlyReading he he' hparams (closingNext_append hb _) (closingNext_append hb' _)
      obtain ⟨rfl, hblock⟩ := hb.cancel hb' hclose
      obtain ⟨rfl, rfl, hrest⟩ := ih hy' hblock trivial trivial
      exact ⟨rfl, rfl, hrest⟩

/-- A sequence of lexemes spells one program at most. -/
theorem Spells.program_unique {ls : List Lexeme} {p q : Program}
    (hp : Spells Unlimited ls (.stmts p)) (hq : Spells Unlimited ls (.stmts q)) : p = q := by
  have hend : NoKeywordNext ([] : List Lexeme).head? := by simp [NoKeywordNext]
  exact (hp.only hq (show ls ++ [] = ls ++ [] from rfl) hend hend).2.1

end ImpAsm

import ImpAsm.Proofs.Expr.Faults
import ImpAsm.Proofs.Stmt.Forms

open scoped Computability

namespace ImpAsm

namespace Parse

variable {α β : Type} {L M : Language Lexeme} {F G : Option Lexeme → Prop}

/-- How the run of a rule that reads texts of a language ends: it stops behind the only one that can
stand there, or it fails at the first lexeme that rules out all of them. -/
def Outcome (L : Language Lexeme) (F : Option Lexeme → Prop) (c : Cursor) :
    EStateM.Result SyntaxError ParseState α → Prop
  | .ok _ t => Finds L F c t.cursor
  | .error e _ => Misses L F c e

/-- A rule decides a language in front of lexemes that satisfy `F`. -/
structure Decides (p : Parse α) (L : Language Lexeme) (F : Option Lexeme → Prop) : Prop where
  viable : Viable L []
  outcome : ∀ {s : ParseState}, s.cursor.Proper → Outcome L F s.cursor (p.run s)

section Outcome

variable {c m : Cursor} {r : EStateM.Result SyntaxError ParseState α}

theorem Outcome.widen (h : Outcome L F c r) (hLM : L ≤ M)
    (hopens : ∀ w ls, w.head? = c.rest.head? → Opens M F w ls → Opens L F w ls) :
    Outcome M F c r := by
  cases r with
  | ok a t => exact Finds.widen h hLM hopens
  | error e t => exact Misses.widen h hLM fun w ls hw hls => ⟨ls, hopens w ls hw hls⟩

theorem Outcome.after (h : Finds L F c m) (h' : Outcome M G m r) (hF : Continues M G F) :
    Outcome (L * M) G c r := by
  cases r with
  | ok a t => exact h.mul h' hF
  | error e t => exact .right h h' hF

theorem Outcome.bind {x : Parse α} {f : α → Parse β} {s : ParseState}
    (h : Outcome L F s.cursor (x.run s)) (hM : Viable M []) (hF : Continues M G F)
    (hf : ∀ a t, x.run s = .ok a t → Outcome M G t.cursor ((f a).run t)) :
    Outcome (L * M) G s.cursor ((x >>= f).run s) := by
  rw [run_bind]
  cases hx : x.run s with
  | error e t =>
    rw [hx] at h
    exact h.left hM hF
  | ok a t =>
    rw [hx] at h
    exact .after h (hf a t hx) hF

/-- The value of a rule does not matter. -/
theorem Outcome.thenPure {x : Parse α} {s : ParseState}
    (h : Outcome L F s.cursor (x.run s)) (g : α → β) :
    Outcome L F s.cursor ((x >>= fun a => pure (g a)).run s) := by
  rw [run_bind]
  cases hx : x.run s with
  | error e t =>
    rw [hx] at h
    exact h
  | ok a t =>
    rw [hx] at h
    exact h

end Outcome

theorem Decides.bind [Nonempty α] {x : Parse α} {f : α → Parse β} (hx : Decides x L F)
    (hf : ∀ a, Decides (f a) M G) (hF : Continues M G F) : Decides (x >>= f) (L * M) G := by
  have hM : Viable M [] := (hf (Classical.arbitrary α)).viable
  refine ⟨hx.viable.mul hM, ?_⟩
  intro s hs
  refine (hx.outcome hs).bind hM hF ?_
  intro a t hrun
  have hfinds := hx.outcome hs
  rw [hrun] at hfinds
  exact (hf a).outcome (Finds.proper hfinds hs)

theorem Decides.andThen [Nonempty α] {x : Parse α} {f : α → Parse β} (hx : Decides x L anyNext)
    (hf : ∀ a, Decides (f a) M G) : Decides (x >>= f) (L * M) G := hx.bind hf continues_any

theorem decides_pure (a : α) : Decides (pure a : Parse α) 1 F := ⟨viable_one, fun _ => finds_nil _⟩

theorem decides_report (e : Event) : Decides (report e) 1 F := ⟨viable_one, fun _ => finds_nil _⟩

/-- A rule with its value changed or reported. -/
theorem Decides.thenPure {x : Parse α} {f : α → Parse β} [Nonempty α] (hx : Decides x L F)
    (hf : ∀ a, Decides (f a) 1 F) : Decides (x >>= f) L F := by
  have h := hx.bind hf (by
    intro ls hls rest hF
    obtain rfl : ls = [] := hls
    exact hF)
  rwa [mul_one] at h

/-- A limit rules out nothing. -/
theorem decides_fail_limit {fault : SyntaxFault} (hfault : fault.IsLimit) (hL : Viable L []) :
    Decides (fail fault : Parse α) L F := ⟨hL, fun _ => .inl hfault⟩

theorem decides_separator (c : Char) (place : Place) :
    Decides (separator c place) (separatorText c) F := by
  refine ⟨viable_separatorText c, ?_⟩
  intro s hs
  simp only [separator, run_bind, run_peek]
  split
  · next h => exact finds_separator hs h
  · next h => exact misses_separator rfl h

/-- The texts of the sign between a name and its value. -/
def equalsText : Language Lexeme := single fun l => l.operator? = some "="

theorem decides_equals (place : Place) : Decides (equals place) equalsText F := by
  have hviable : Viable equalsText [] := viable_single (Lexeme.loose_made .operator "=") rfl
  refine ⟨hviable, ?_⟩
  intro s hs
  simp only [equals, run_bind, run_here]
  split
  · next h =>
    obtain ⟨l, hl, ho⟩ := Operand.operator_eq_head? h
    exact finds_single hl ho
  · next h =>
    refine Misses.of_breaks rfl (breaks_single hviable ?_)
    intro l hl ho
    exact h ((Cursor.operator?_of_head? hl).trans ho)

/-- The texts of a name. -/
def nameText : Language Lexeme := tokenText fun t => t.kind = .ident

theorem decides_name (place : Place) : Decides (name place) nameText F := by
  have hviable : Viable nameText [] := viable_single (Lexeme.loose_made .ident "x") ⟨rfl, rfl⟩
  refine ⟨hviable, ?_⟩
  intro s hs
  simp only [name, run_bind, run_peek]
  split
  · next h => exact finds_single (hs.head?_eq (by simp [h]) (by simp [h])) ⟨rfl, h⟩
  · next h =>
    refine Misses.of_breaks rfl (breaks_single hviable ?_)
    intro l hl hk
    exact h (Cursor.peek_of_head? hl ▸ hk.2)

theorem decides_expression : Decides expression (expressions 1) (EndsBefore 1) := by
  refine ⟨viable_expressions (by omega), ?_⟩
  intro s hs
  simp only [run, expression]
  cases hx : readExpr s.cursor with
  | error e => exact misses_readExpr hs hx
  | ok x =>
    obtain ⟨o, d, hd⟩ := x
    exact finds_readExpr hs ⟨hd, hx⟩

/-- A choice by the token at the cursor. It is made rightly if no text of the second language, and
nothing behind it, starts with a token of the first choice. -/
theorem decides_peek {P : Token → Prop} [DecidablePred P] {x : Token → Parse α} {y : Parse α}
    (hP : ∀ t, P t → t.kind ≠ .operator ∧ t.kind ≠ .eof) (hx : ∀ t, P t → Decides (x t) L F)
    (hy : Decides y M F)
    (hM : ∀ w ls l, Opens M F w ls → w.head? = some l → l.Proper → ¬ P l.token) :
    Decides (do let t ← peek; if P t then do { skip; x t } else y) (tokenText P * L + M) F := by
  have hright : M ≤ tokenText P * L + M := fun ls hls => .inr hls
  have hleft : tokenText P * L ≤ tokenText P * L + M := fun ls hls => .inl hls
  refine ⟨hy.viable.mono hright, ?_⟩
  intro s hs
  simp only [run_bind, run_peek]
  split
  · next h =>
    have hhead := hs.head?_eq (hP _ h).1 (hP _ h).2
    have hfinds : Finds (tokenText P) anyNext s.cursor s.cursor.next := finds_single hhead ⟨rfl, h⟩
    rw [run_bind, run_skip]
    have houtcome := (hx _ h).outcome (s := ⟨s.cursor.next, s.events⟩) (hfinds.proper hs)
    refine (Outcome.after hfinds houtcome continues_any).widen hleft ?_
    intro w ls hw hopens
    obtain ⟨rest, hsplit, hls | hls, hF⟩ := hopens
    · exact ⟨rest, hsplit, hls, hF⟩
    · have hl := hw.trans hhead
      have hproper : Lexeme.Proper ⟨s.cursor.peek, none⟩ := by simp [Lexeme.Proper]
      exact absurd h (hM w ls _ ⟨rest, hsplit, hls, hF⟩ hl hproper)
  · next h =>
    refine (hy.outcome hs).widen hright ?_
    intro w ls hw hopens
    obtain ⟨rest, rfl, hls | hls, hF⟩ := hopens
    · obtain ⟨_, ⟨l, ⟨_, hl⟩, rfl⟩, _, _, rfl⟩ := Language.mem_mul.mp hls
      have hhead : s.cursor.rest.head? = some l := hw.symm
      exact absurd (Cursor.peek_of_head? hhead ▸ hl) h
    · exact ⟨rest, rfl, hls, hF⟩

theorem mem_kstar {K : Language Lexeme} {ls : List Lexeme} :
    ls ∈ K∗ ↔ ls = [] ∨ ∃ as ∈ K, ∃ bs ∈ K∗, as ++ bs = ls := by
  rw [← Language.mem_mul]
  nth_rewrite 1 [← Language.one_add_self_mul_kstar_eq_kstar K]
  rfl

/-- The texts of an item with the token that starts it. -/
def itemText (starts : Token → Prop) (A : Token → Language Lexeme) : Language Lexeme :=
  {ls | ∃ t ms, starts t ∧ ms ∈ A t ∧ ls = ⟨t, none⟩ :: ms}

section Items

variable {starts : Token → Prop} {A : Token → Language Lexeme} {c : Cursor}

/-- Where no item starts, only the empty text can stand. -/
theorem finds_noItem (h : ∀ l ∈ c.rest.head?, ¬ starts l.token) :
    Finds (itemText starts A)∗ F c c := by
  refine (finds_nil c).widen ?_ ?_
  · intro ls hls
    obtain rfl : ls = [] := hls
    exact Language.nil_mem_kstar _
  · intro w ls hw hopens
    obtain ⟨rest, rfl, hls, hrest⟩ := hopens
    rcases mem_kstar.mp hls with rfl | ⟨_, ⟨t, ms, ht, _, rfl⟩, _, _, rfl⟩
    · exact ⟨rest, rfl, rfl, hrest⟩
    · exact absurd ht (h _ hw.symm)

/-- Where an item starts, the texts of items are one item and the items behind it. -/
theorem Outcome.item {r : EStateM.Result SyntaxError ParseState α} {t : Token}
    (hhead : c.rest.head? = some ⟨t, none⟩) (ht : starts t)
    (hF : ∀ l, F (some l) → ¬ starts l.token)
    (h : Outcome (A t * (itemText starts A)∗) F c.next r) : Outcome (itemText starts A)∗ F c r := by
  have hfinds : Finds (single (· = ⟨t, none⟩)) anyNext c c.next := finds_single hhead rfl
  refine (Outcome.after hfinds h continues_any).widen ?_ ?_
  · intro ls hls
    obtain ⟨_, ⟨_, rfl, rfl⟩, _, hms, rfl⟩ := Language.mem_mul.mp hls
    obtain ⟨as, has, bs, hbs, rfl⟩ := Language.mem_mul.mp hms
    exact mem_kstar.mpr (.inr ⟨⟨t, none⟩ :: as, ⟨t, as, ht, has, rfl⟩, bs, hbs, rfl⟩)
  · intro w ls hw hopens
    obtain ⟨rest, rfl, hls, hend⟩ := hopens
    rw [hhead] at hw
    refine ⟨rest, rfl, ?_, hend⟩
    rcases mem_kstar.mp hls with rfl | ⟨_, ⟨t', as, _, has, rfl⟩, bs, hbs, rfl⟩
    · rw [List.nil_append] at hw
      exact absurd ht (hF _ (hw ▸ hend))
    · obtain rfl : t' = t := by simpa using hw
      have htoken : [⟨t', none⟩] ∈ single (· = ⟨t', none⟩) := mem_single rfl
      have hitems := Language.append_mem_mul htoken (Language.append_mem_mul has hbs)
      exact hitems

end Items

/-- Items are repeated as long as a token starts one. The induction is on what is left to read. -/
theorem decides_many {item? : Token → Option (Parse α)} {starts : Token → Prop}
    {A : Token → Language Lexeme} (hstarts : ∀ t, starts t ↔ ∃ item, item? t = some item)
    (hk : ∀ t, starts t → t.kind ≠ .operator ∧ t.kind ≠ .eof)
    (hi : ∀ t item, item? t = some item → Decides item (A t) G)
    (hFG : ∀ next, F next → G next) (hF : ∀ l, F (some l) → ¬ starts l.token)
    (hG : ∀ t, starts t → G (some ⟨t, none⟩)) : Decides (many item?) (itemText starts A)∗ F := by
  have hviable : Viable (itemText starts A)∗ [] := .of_mem (Language.nil_mem_kstar _)
  have hcontinues : Continues (itemText starts A)∗ F G := by
    intro ls hls rest hrest
    rcases mem_kstar.mp hls with rfl | ⟨_, ⟨t, ms, ht, _, rfl⟩, _, _, rfl⟩
    · exact hFG _ hrest
    · exact hG t ht
  refine ⟨hviable, ?_⟩
  intro s hs
  induction hn : s.cursor.rest.length using Nat.strongRecOn generalizing s with
  | ind n ih =>
    subst hn
    rw [run_many]
    split
    · next hrest => exact finds_noItem (by simp [hrest])
    next hrest =>
    cases hitem : item? s.cursor.peek with
    | none =>
      apply finds_noItem
      intro l hl
      rw [hstarts, ← Cursor.peek_of_head? hl]
      simp [hitem]
    | some item =>
      have hstart : starts s.cursor.peek := (hstarts _).mpr ⟨item, hitem⟩
      have hkind := hk _ hstart
      have hnext := hs.of_spans (hs.spans_peek hkind.1 hkind.2)
      have hfirst := (hi _ _ hitem).outcome (s := ⟨s.cursor.next, s.events⟩) hnext
      refine Outcome.item (hs.head?_eq hkind.1 hkind.2) hstart hF
        (hfirst.bind hviable hcontinues ?_)
      intro a t ha
      rw [ha] at hfirst
      obtain ⟨ls, hsp, _⟩ := hfirst
      have hlt : t.cursor.rest.length < s.cursor.rest.length :=
        Nat.lt_of_le_of_lt hsp.length_le (Cursor.next_lt hrest)
      exact (ih _ hlt (hnext.of_spans hsp) rfl).thenPure _

/-- The texts of items between commas with the parenthesis that closes them. -/
def listText (L : Language Lexeme) : Language Lexeme :=
  separatorText ')' + L * ((separatorText ',' * L)∗ * separatorText ')')

theorem itemText_comma (L : Language Lexeme) :
    itemText (fun t => t.isSeparator ',') (fun _ => L) = separatorText ',' * L := by
  ext ls
  constructor
  · intro h
    obtain ⟨t, ms, ht, hms, rfl⟩ := h
    have hcomma : [⟨t, none⟩] ∈ separatorText ',' := mem_single ⟨rfl, ht⟩
    exact Language.append_mem_mul hcomma hms
  · intro h
    obtain ⟨_, ⟨⟨t, _⟩, ⟨rfl, ht⟩, rfl⟩, ms, hms, rfl⟩ := Language.mem_mul.mp h
    exact ⟨t, ms, ht, hms, rfl⟩

/-- The parenthesis that closes a list comes next. -/
def ClosesNext (next : Option Lexeme) : Prop :=
  ∃ l, next = some l ∧ l.second = none ∧ l.token.isSeparator ')'

theorem decides_commaItems {item : Parse α} (hi : Decides item L G)
    (hG : ∀ l, l.second = none → l.token.kind = .separator → G (some l)) :
    Decides (many fun t => if t.isSeparator ',' then some item else none)
      (separatorText ',' * L)∗ ClosesNext := by
  rw [← itemText_comma]
  refine decides_many (G := G) ?_ ?_ ?_ ?_ ?_ ?_
  · intro t
    by_cases ht : t.isSeparator ',' <;> simp [ht]
  · intro t ht
    exact kind_of_isSeparator ht
  · intro t item' h
    by_cases ht : t.isSeparator ','
    · obtain rfl : item = item' := by simpa [ht] using h
      exact hi
    · simp [ht] at h
  · intro next hnext
    obtain ⟨l, rfl, hl, hclose⟩ := hnext
    exact hG l hl (Derives.kind_of_isSeparator hclose)
  · intro l hnext
    obtain ⟨l', hl', _, hclose⟩ := hnext
    obtain rfl : l = l' := by simpa using hl'
    exact isSeparator_comma_of_closing hclose
  · intro t ht
    exact hG _ rfl (Derives.kind_of_isSeparator ht)

/-- A list is decided if no item starts with the parenthesis that closes it. -/
theorem decides_commaList [Nonempty α] {item : Parse α} (place : Place) (hi : Decides item L G)
    (hG : ∀ l, l.second = none → l.token.kind = .separator → G (some l))
    (hL : ∀ ls ∈ L, ∃ l ms, ls = l :: ms ∧ (l.Proper → ¬ l.token.isSeparator ')')) :
    Decides (commaList item place) (listText L) F := by
  have hclose (as : List α) :
      Decides (separator ')' place >>= fun _ => pure as) (separatorText ')') F :=
    (decides_separator ')' place).thenPure fun _ => decides_pure as
  have hrest (first : α) := (decides_commaItems hi hG).bind (fun others => hclose (first :: others))
    (continues_single fun l hl => ⟨l, rfl, hl⟩)
  have hitems := hi.bind hrest (by
    intro ls hls rest _
    obtain ⟨as, has, bs, ⟨l, ⟨hl, hsep⟩, rfl⟩, rfl⟩ := Language.mem_mul.mp hls
    rcases mem_kstar.mp has with rfl | ⟨_, hitem, _, _, rfl⟩
    · exact hG l hl (Derives.kind_of_isSeparator hsep)
    · obtain ⟨_, ⟨l', ⟨hl', hcomma⟩, rfl⟩, _, _, rfl⟩ := Language.mem_mul.mp hitem
      exact hG l' hl' (Derives.kind_of_isSeparator hcomma))
  have h : Decides (commaList item place) _ F :=
    decides_peek (P := fun t => t.isSeparator ')') (fun t ht => kind_of_isSeparator ht)
      (fun _ _ => decides_pure []) hitems (by
        intro w ls l hopens hw hproper
        obtain ⟨rest, rfl, hls, _⟩ := hopens
        obtain ⟨as, has, _, _, rfl⟩ := Language.mem_mul.mp hls
        obtain ⟨l', ms, rfl, hno⟩ := hL as has
        obtain rfl : l' = l := by simpa using hw
        exact hno hproper)
  rwa [mul_one] at h

end Parse

end ImpAsm

import ImpAsm.Proofs.Stmt.Likeness
import ImpAsm.Proofs.Stmt.Nesting

namespace ImpAsm

namespace Parse

/-- A program reaches up to an end of the input. -/
theorem atEnd_of_run_program {s t : ParseState} {p : Program} (h : program.run s = .ok p t) :
    t.cursor.atEnd := by
  obtain ⟨ss, m, _, h⟩ := run_bind_eq_ok.mp h
  obtain ⟨c, m', hc, h⟩ := run_bind_eq_ok.mp h
  obtain ⟨rfl, rfl⟩ : m.cursor = c ∧ m = m' := by simpa [run_here] using hc
  split at h
  · next hend =>
    obtain ⟨_, m', hm', h⟩ := run_bind_eq_ok.mp h
    obtain rfl : { m with events := m.events.push (.programParsed ss.length) } = m' := by
      simpa [run_report] using hm'
    obtain ⟨_, rfl⟩ : ss = p ∧ _ = t := by simpa using h
    exact hend
  · obtain ⟨e, he, _⟩ := run_noStatement (α := Program) m
    simp [he] at h

/-- At an end of the input there is nothing to read. -/
theorem run_program_atEnd {s : ParseState} (h : s.cursor.atEnd) :
    program.run s = .ok [] { s with events := s.events.push (.programParsed 0) } := by
  have hkind : s.cursor.peek.kind = .eof := by simpa [Cursor.atEnd] using h
  have hnone : (statements (block nestingLimit)).run s = .ok [] s := by
    rw [statements, run_many]
    simp [hkind]
  rw [program, run_bind, hnone]
  simp only [run_bind, run_here, if_pos h]
  rfl

end Parse

theorem parseFrom_ok {c : Cursor} {p : Program} (h : (parseFrom c).1.result = .ok p) :
    (parseFrom c).2.atEnd := by
  unfold parseFrom at h ⊢
  cases hrun : Parse.program.run ⟨c, #[]⟩ with
  | error e t => simp [hrun] at h
  | ok q t => exact Parse.atEnd_of_run_program hrun

theorem parseFrom_atEnd {c : Cursor} (h : c.atEnd) :
    (parseFrom c).1.result = .ok [] ∧ (parseFrom c).2 = c := by
  unfold parseFrom
  rw [Parse.run_program_atEnd (s := ⟨c, #[]⟩) h]
  exact ⟨rfl, rfl⟩

namespace Cursor

theorem Like.refl (c : Cursor) : c.Like Eq 0 c :=
  ⟨List.forall₂_same.mpr fun l _ => .refl l, .refl _, rfl⟩

theorem Proper.goes_parseFrom {c : Cursor} (hc : c.Proper) : c.Goes (parseFrom c).2 :=
  (parseFrom_like hc (.refl c)).1

/-- Going on in a token sequence leads to a later place, and not past an end of the input. -/
theorem Goes.ofTokens {ts : List Token} {i : Nat} {d : Cursor} (h : (ofTokens ts i).Goes d) :
    d = ofTokens ts d.index ∧ i ≤ d.index ∧ (i ≤ ts.length → d.index ≤ ts.length) ∧
      ∀ j t, ts[j]? = some t → t.kind = .eof → i ≤ j → d.index ≤ j := by
  obtain ⟨ls, hsp, hends⟩ := h
  have hindex : d.index = i + totalWidth ls := hsp.index
  have htake : (ts.drop i).take (totalWidth ls) = ls.flatMap Lexeme.tokens :=
    take_totalWidth hsp.rest
  refine ⟨hsp.eq_ofTokens, by omega, ?_, ?_⟩
  · intro hi
    have hlength := congrArg List.length htake
    rw [length_flatMap_tokens, List.length_take, List.length_drop] at hlength
    omega
  · intro j t ht hk hij
    by_contra hj
    -- token number `j` is among those that were taken
    have hmem : t ∈ (ts.drop i).take (totalWidth ls) := by
      refine List.mem_of_getElem? (i := j - i) ?_
      rw [List.getElem?_take_of_lt (by omega), List.getElem?_drop, Nat.add_sub_cancel' hij, ht]
    rw [htake] at hmem
    obtain ⟨l, hl, htl⟩ := List.mem_flatMap.mp hmem
    have hproper : l.Proper := by
      apply (ofTokens_proper ts i).lexemes
      rw [hsp.rest]
      exact List.mem_append_left _ hl
    rcases List.mem_cons.mp htl with rfl | hsecond
    · exact hends l hl hk
    · have hop := (hproper t (by simpa using hsecond)).2
      rw [hk] at hop
      simp at hop

end Cursor

/-- A token sequence with the number of its tokens that have been taken and the number of blocks
that are open. -/
structure Parser where
  tokens : List Token
  index : Nat
  depth : Nat

namespace Parser

def new (tokens : List Token) : Parser := ⟨tokens, 0, 0⟩

/-- Reads the statements up to the end of the input. What has been taken before a failure stays
taken. -/
def parse (p : Parser) : Except CompileError Program × Parser :=
  match Counted.program ⟨.ofTokens p.tokens p.index, #[]⟩ p.depth with
  | (.error e s, depth) =>
    (.error (.syntactic e), { p with index := s.1.cursor.index, depth := depth })
  | (.ok program s, depth) => (.ok program, { p with index := s.1.cursor.index, depth := depth })

/-- The parser after `n` calls. -/
def after (p : Parser) : Nat → Parser
  | 0 => p
  | n + 1 => (p.after n).parse.2

/-- How parsers are left: outside all blocks, among their tokens, and not past an end of the
input. -/
structure Settled (p : Parser) : Prop where
  depth : p.depth = 0
  index : p.index ≤ p.tokens.length
  ends : ∀ i t, p.tokens[i]? = some t → t.kind = .eof → p.index ≤ i

theorem settled_new (ts : List Token) : (new ts).Settled :=
  ⟨rfl, Nat.zero_le _, fun _ _ _ _ => Nat.zero_le _⟩

variable {p : Parser}

/-- Outside all blocks the next call reads on from the cursor, and stays outside all blocks. -/
theorem parse_eq (h : p.depth = 0) :
    p.parse = ((parseFrom (.ofTokens p.tokens p.index)).1.result,
      ⟨p.tokens, (parseFrom (.ofTokens p.tokens p.index)).2.index, 0⟩) := by
  rw [parse, h, Counted.does_program]
  simp only [parseFrom, Parse.run]
  cases Parse.program ⟨.ofTokens p.tokens p.index, #[]⟩ <;> rfl

theorem parse_tokens (p : Parser) : p.parse.2.tokens = p.tokens := by
  unfold parse
  split <;> rfl

/-- One call moves on, and leaves the parser settled. -/
theorem Settled.parse (h : p.Settled) : p.parse.2.Settled ∧ p.index ≤ p.parse.2.index := by
  obtain ⟨_, hle, hlength, hends⟩ :=
    (Cursor.ofTokens_proper p.tokens p.index).goes_parseFrom.ofTokens
  rw [parse_eq h.depth]
  refine ⟨⟨rfl, hlength h.index, ?_⟩, hle⟩
  intro i t ht hk
  exact hends i t ht hk (h.ends i t ht hk)

theorem Settled.after (h : p.Settled) (n : Nat) : (p.after n).Settled := by
  induction n with
  | zero => exact h
  | succ n ih => exact ih.parse.1

theorem after_tokens (p : Parser) (n : Nat) : (p.after n).tokens = p.tokens := by
  induction n with
  | zero => rfl
  | succ n ih => rw [Parser.after, parse_tokens, ih]

/-- The tokens that are left end like all of them, unless all are taken: then the last one is no
end. -/
theorem Settled.endToken_drop (h : p.Settled) :
    endToken (p.tokens.drop p.index) = endToken p.tokens := by
  unfold endToken
  rcases Nat.lt_or_eq_of_le h.index with hlt | heq
  · rw [List.getLast?_drop, if_neg (by omega)]
  · rw [heq, List.drop_length, List.getLast?_nil]
    cases hlast : p.tokens.getLast? with
    | none => rfl
    | some t =>
      have hk : t.kind ≠ .eof := by
        intro hk
        have hpos : 0 < p.tokens.length := List.length_pos_of_mem (List.mem_of_getLast? hlast)
        have hle := h.ends _ t (List.getLast?_eq_getElem? ▸ hlast) hk
        omega
      simp [hk]

/-- The tokens that are left say all that matters of the parser. -/
theorem Settled.like_drop (h : p.Settled) :
    (Cursor.ofTokens (p.tokens.drop p.index) 0).Like Eq p.index (.ofTokens p.tokens p.index) where
  rest := List.forall₂_same.mpr fun l _ => .refl l
  ending := by
    rw [Cursor.ofTokens, Cursor.ofTokens, h.endToken_drop]
    exact .refl _
  index := (Nat.zero_add _).symm

theorem Settled.parse_drop (h : p.Settled) :
    p.parse.1 = (new (p.tokens.drop p.index)).parse.1 ∧
      p.parse.2.index = p.index + (new (p.tokens.drop p.index)).parse.2.index := by
  obtain ⟨_, hlike, hresult⟩ := parseFrom_like (Cursor.ofTokens_proper _ 0) h.like_drop
  rw [parse_eq h.depth, parse_eq (p := new _) rfl]
  refine ⟨?_, hlike.index.trans (Nat.add_comm _ _)⟩
  rcases hresult with ⟨q, hq, hq'⟩ | ⟨e, e', he, he', hee⟩
  · exact hq'.trans hq.symm
  · obtain rfl := hee.eq
    exact he'.trans he.symm

/-- A call that succeeds leaves nothing to read. -/
theorem Settled.parse_ok (h : p.Settled) {q : Program} (hq : p.parse.1 = .ok q) :
    p.parse.2.parse = (.ok [], p.parse.2) := by
  obtain ⟨hcursor, _⟩ := (Cursor.ofTokens_proper p.tokens p.index).goes_parseFrom.ofTokens
  rw [parse_eq h.depth] at hq ⊢
  have hend := parseFrom_ok hq
  rw [hcursor] at hend
  obtain ⟨hresult, hplace⟩ := parseFrom_atEnd hend
  rw [parse_eq rfl, hresult, hplace]
  rfl

/-- A call that takes nothing changes nothing. -/
theorem Settled.parse_eq_self (h : p.Settled) (hi : p.parse.2.index = p.index) : p.parse.2 = p := by
  rw [parse_eq h.depth] at hi ⊢
  obtain ⟨tokens, index, depth⟩ := p
  obtain rfl : depth = 0 := h.depth
  exact congrArg (Parser.mk tokens · 0) hi

/-- A parser that a call leaves as it is stays so. -/
theorem after_of_fixed {n : Nat} (h : (p.after n).parse.2 = p.after n) {m : Nat} (hm : n ≤ m) :
    p.after m = p.after n := by
  induction m, hm using Nat.le_induction with
  | base => rfl
  | succ m _ ih => rw [Parser.after, ih, h]

/-- As long as each call takes a token, there are at least as many tokens taken as there were
calls. -/
theorem Settled.le_index (h : p.Settled) {n : Nat}
    (hmoves : ∀ k < n, (p.after k).parse.2 ≠ p.after k) : n ≤ (p.after n).index := by
  induction n with
  | zero => exact Nat.zero_le _
  | succ n ih =>
    have hn : n ≤ (p.after n).index := ih fun k hk => hmoves k (Nat.lt_succ_of_lt hk)
    have hle := (h.after n).parse.2
    have hne : (p.after n).parse.2.index ≠ (p.after n).index := by
      intro heq
      exact hmoves n (Nat.lt_succ_self n) ((h.after n).parse_eq_self heq)
    have hsucc : (p.after (n + 1)).index = (p.after n).parse.2.index := rfl
    omega

/-- There are not more calls that take something than there are tokens. -/
theorem Settled.fixed (h : p.Settled) :
    (p.after p.tokens.length).parse.2 = p.after p.tokens.length := by
  by_contra hlast
  have hmoves : ∀ k < p.tokens.length + 1, (p.after k).parse.2 ≠ p.after k := by
    intro k hk hfixed
    rw [← after_of_fixed hfixed (Nat.le_of_lt_succ hk)] at hfixed
    exact hlast hfixed
  have hle := h.le_index hmoves
  have hbound := (h.after (p.tokens.length + 1)).index
  rw [after_tokens] at hbound
  omega

/-- A parser behaves by its index alone, however often it was called and whether the calls succeeded
or not. The index only grows, stays among the tokens and passes no end of the input; between the
calls no block is open; a call does what the first call on the tokens that are left does; after a
success there is nothing left to read; and after as many calls as there are tokens all results are
equal. -/
theorem repeated_calls (ts : List Token) (n : Nat) :
    let p := (new ts).after n
    p.tokens = ts ∧ p.index ≤ p.parse.2.index ∧ p.index ≤ ts.length ∧
      (∀ i t, ts[i]? = some t → t.kind = .eof → p.index ≤ i) ∧ p.depth = 0 ∧
      p.parse.1 = (new (ts.drop p.index)).parse.1 ∧
      p.parse.2.index = p.index + (new (ts.drop p.index)).parse.2.index ∧
      (∀ q, p.parse.1 = .ok q → ∀ m > n, ((new ts).after m).parse.1 = .ok []) ∧
      (ts.length ≤ n → ∀ m ≥ n, ((new ts).after m).parse.1 = p.parse.1) ∧
      (parseFrom (.ofTokens ts p.index)).1.result = p.parse.1 ∧
      (parseFrom (.ofTokens ts p.index)).2 = .ofTokens ts p.parse.2.index := by
  intro p
  have htokens : p.tokens = ts := after_tokens (new ts) n
  have hp : p.Settled := (settled_new ts).after n
  have hdrop := hp.parse_drop
  have hparse := parse_eq hp.depth
  have hplace := (Cursor.ofTokens_proper p.tokens p.index).goes_parseFrom.ofTokens.1
  rw [htokens] at hdrop hparse hplace
  refine ⟨htokens, hp.parse.2, htokens ▸ hp.index, htokens ▸ hp.ends, hp.depth, hdrop.1, hdrop.2,
    ?_, ?_, ?_, ?_⟩
  · intro q hq m hm
    have hread : ((new ts).after (n + 1)).parse = (.ok [], (new ts).after (n + 1)) := hp.parse_ok hq
    rw [after_of_fixed (congrArg Prod.snd hread) hm, hread]
  · intro hn m hm
    have hfixed := (settled_new ts).fixed
    have hsame : (new ts).after m = p :=
      (after_of_fixed hfixed (Nat.le_trans hn hm)).trans (after_of_fixed hfixed hn).symm
    rw [hsame]
  · rw [hparse]
  · rw [hparse]
    exact hplace

/-- What a failed call has taken stays taken: the second call starts at the end behind `exit`. -/
example :
    ((new [⟨.keyword .exit, "exit", ⟨0, 1, 1⟩⟩, ⟨.eof, "", ⟨4, 1, 5⟩⟩]).after 1).parse.1 =
      .ok [] := by
  cbv

end Parser

end ImpAsm

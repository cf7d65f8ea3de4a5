import ImpAsm.Proofs.Machine.Expr

namespace ImpAsm

theorem Instr.isStraight_of_isLocal {i : Instr} (h : i.isLocal) : i.isStraight := by
  revert h
  cases i <;> simp [Instr.isLocal, Instr.isStraight]

theorem isStraight_code (e : Expr) : ∀ i ∈ e.code, i.isStraight := by
  intro i hi
  rcases mem_code i hi with h | ⟨x, _, rfl⟩
  · exact Instr.isStraight_of_isLocal h
  · rfl

theorem argumentsCode_cons (e : Expr) (es : List Expr) :
    argumentsCode (e :: es) = argumentsCode es ++ (e.code ++ [.push .rax]) := by
  simp [argumentsCode]

theorem isStraight_argumentsCode (args : List Expr) : ∀ i ∈ argumentsCode args, i.isStraight := by
  intro i hi
  rcases mem_argumentsCode i hi with h | ⟨x, _, rfl⟩
  · exact Instr.isStraight_of_isLocal h
  · rfl

namespace State

variable {s : State} {store : Store}

/-- Arguments are pushed so that the first one is on top. -/
theorem exec_arguments (img : Image) (callee : Callee) (args : List Expr)
    (hmem : ∀ e ∈ args, ∀ x ∈ e.names, s.memory x = some (store x)) :
    match evalArguments? store args with
    | some values => ∃ t, execAll? img callee (argumentsCode args) s = some (.running t) ∧
        t.stack = values.map .ofInt32 ++ s.stack ∧ t.memory = s.memory ∧ t.trace = s.trace
    | none => ∃ t, execAll? img callee (argumentsCode args) s = some (.ended .divideError t) ∧
        t.memory = s.memory ∧ t.trace = s.trace := by
  induction args with
  | nil => exact ⟨s, rfl, rfl, rfl, rfl⟩
  | cons e es ih =>
    have hes := ih fun e' he' => hmem e' (by simp [he'])
    rw [argumentsCode_cons, evalArguments?]
    cases hvs : evalArguments? store es with
    | none =>
      rw [hvs] at hes
      obtain ⟨t, ht, hm, htr⟩ := hes
      exact ⟨t, execAll?_append_ended ht, hm, htr⟩
    | some values =>
      rw [hvs] at hes
      obtain ⟨t, ht, hstack, hm, htr⟩ := hes
      have he : Computes img callee e.code t (e.eval? store) :=
        computes_code e fun x hx => hm ▸ hmem e (by simp) x hx
      cases hv : e.eval? store with
      | none =>
        rw [hv] at he
        obtain ⟨u, hu, hm', htr'⟩ := he
        refine ⟨u, ?_, hm'.trans hm, htr'.trans htr⟩
        rw [execAll?_append ht, execAll?_append_ended hu]
      | some v =>
        rw [hv] at he
        obtain ⟨u, hu, hrax, hkeeps⟩ := he
        have hpush : execAll? img callee [.push .rax] u =
            some (.running { u with stack := .ofInt32 v :: u.stack }) := by
          simp [execAll?, exec?, hrax]
        refine ⟨{ u with stack := .ofInt32 v :: u.stack }, ?_, ?_, hkeeps.memory.trans hm,
          hkeeps.trace.trans htr⟩
        · rw [execAll?_append ht, execAll?_append hu, hpush]
        · simp [hkeeps.stack, hstack]

theorem exec_pushes (img : Image) (callee : Callee) (s : State) (rs : List Reg) :
    ∃ t, execAll? img callee (rs.map .push) s = some (.running t) ∧
      t.stack = (rs.map s.regs).reverse ++ s.stack ∧ t.memory = s.memory ∧ t.trace = s.trace := by
  induction rs generalizing s with
  | nil => exact ⟨s, rfl, rfl, rfl, rfl⟩
  | cons r rs ih =>
    obtain ⟨t, ht, hstack, hm, htr⟩ := ih { s with stack := s.regs r :: s.stack }
    exact ⟨t, ht, by simp [hstack], hm, htr⟩

/-- Values are popped into registers, the top first. -/
theorem exec_pops (img : Image) (callee : Callee) {rs : List Reg} {vs rest : List Value}
    (hrs : rs.Nodup) (hlen : vs.length = rs.length) (hstack : s.stack = vs ++ rest) :
    ∃ t, execAll? img callee (rs.map .pop) s = some (.running t) ∧ rs.map t.regs = vs ∧
      (∀ r ∉ rs, t.regs r = s.regs r) ∧ t.stack = rest ∧ t.memory = s.memory ∧
      t.trace = s.trace := by
  induction rs generalizing s vs with
  | nil =>
    obtain rfl : vs = [] := List.length_eq_zero_iff.mp hlen
    exact ⟨s, rfl, rfl, fun _ _ => rfl, hstack, rfl, rfl⟩
  | cons r rs ih =>
    obtain ⟨v, vs, rfl⟩ := List.exists_cons_of_length_eq_add_one hlen
    obtain ⟨hr, hrs⟩ := List.nodup_cons.mp hrs
    have hpop : s.exec? img callee (.pop r) =
        some (.running ({ s with stack := vs ++ rest }.set r v)) := by
      simp [exec?, hstack]
    have hlen' : vs.length = rs.length := by simpa using hlen
    obtain ⟨t, ht, hregs, hframe, hrest, hm, htr⟩ :=
      ih (s := { s with stack := vs ++ rest }.set r v) hrs hlen' rfl
    refine ⟨t, ?_, ?_, ?_, hrest, hm, htr⟩
    · simp [execAll?, hpop, ht]
    · simp [hregs, hframe r hr, set]
    · intro r' hr'
      simp only [List.mem_cons, not_or] at hr'
      rw [hframe r' hr'.2]
      simp [set, hr'.1]

theorem length_evalArguments? {args : List Expr} {values : List Int32}
    (h : evalArguments? store args = some values) : values.length = args.length := by
  induction args generalizing values with
  | nil =>
    obtain rfl : [] = values := by simpa [evalArguments?] using h
    rfl
  | cons e es ih =>
    simp only [evalArguments?, Option.bind_eq_bind, Option.bind_eq_some_iff] at h
    obtain ⟨vs, hvs, v, _, h⟩ := h
    obtain rfl : v :: vs = values := by simpa using h
    simp [ih hvs]

/-- The values that are popped into the first registers and those that stay on the stack are seen
one after the other. -/
theorem prefix_argumentSlots {vs rest : List Value}
    (hregs : (argumentRegisters.take vs.length).map s.regs = vs.take argumentRegisters.length)
    (hstack : s.stack = vs.drop argumentRegisters.length ++ rest) : vs <+: s.argumentSlots := by
  have hsplit : argumentRegisters.map s.regs = vs.take argumentRegisters.length ++
      (argumentRegisters.drop vs.length).map s.regs := by
    rw [← hregs, ← List.map_append, List.take_append_drop]
  rw [argumentSlots, hsplit, hstack]
  by_cases h : vs.length ≤ argumentRegisters.length
  · rw [List.take_of_length_le h, List.append_assoc]
    exact List.prefix_append _ _
  · rw [List.drop_eq_nil_of_le (Nat.le_of_not_le h), List.map_nil, List.append_nil,
      ← List.append_assoc, List.take_append_drop]
    exact List.prefix_append _ _

theorem nodup_argumentRegisters (n : Nat) : (argumentRegisters.take n).Nodup :=
  List.Nodup.sublist (List.take_sublist n argumentRegisters) (by decide)

/-- The code of a call up to the call itself. -/
def beforeCall (args : List Expr) : List Instr :=
  savedRegisters.map .push ++ (argumentsCode args ++ (argumentRegisters.take args.length).map .pop)

/-- Before a call the first arguments are in their registers and the others on the stack, above the
registers that the call has to keep. -/
theorem exec_beforeCall (img : Image) (callee : Callee) (args : List Expr)
    (hmem : ∀ e ∈ args, ∀ x ∈ e.names, s.memory x = some (store x)) :
    match evalArguments? store args with
    | some values => ∃ t, execAll? img callee (beforeCall args) s = some (.running t) ∧
        values.map .ofInt32 <+: t.argumentSlots ∧
        t.stack = (values.map .ofInt32).drop argumentRegisters.length ++
          ((savedRegisters.map s.regs).reverse ++ s.stack) ∧
        t.memory = s.memory ∧ t.trace = s.trace
    | none => ∃ t, execAll? img callee (beforeCall args) s = some (.ended .divideError t) ∧
        t.memory = s.memory ∧ t.trace = s.trace := by
  obtain ⟨t, ht, hstack, hm, htr⟩ := exec_pushes img callee s savedRegisters
  have hargs := exec_arguments img callee args fun e he x hx => hm ▸ hmem e he x hx
  cases hvs : evalArguments? store args with
  | none =>
    rw [hvs] at hargs
    obtain ⟨u, hu, hm', htr'⟩ := hargs
    refine ⟨u, ?_, hm'.trans hm, htr'.trans htr⟩
    rw [beforeCall, execAll?_append ht, execAll?_append_ended hu]
  | some values =>
    rw [hvs] at hargs
    obtain ⟨u, hu, hstack', hm', htr'⟩ := hargs
    have hlen : (values.map Value.ofInt32).length = args.length := by
      rw [List.length_map, length_evalArguments? hvs]
    have htop : ((values.map Value.ofInt32).take argumentRegisters.length).length =
        (argumentRegisters.take args.length).length := by
      simp only [List.length_take, hlen]
      exact Nat.min_comm _ _
    have hsplit : u.stack = (values.map Value.ofInt32).take argumentRegisters.length ++
        ((values.map Value.ofInt32).drop argumentRegisters.length ++
          ((savedRegisters.map s.regs).reverse ++ s.stack)) := by
      rw [← List.append_assoc, List.take_append_drop, hstack', hstack]
    obtain ⟨v, hv, hregs, _, hrest, hm'', htr''⟩ :=
      exec_pops img callee (nodup_argumentRegisters _) htop hsplit
    refine ⟨v, ?_, ?_, hrest, hm''.trans (hm'.trans hm), htr''.trans (htr'.trans htr)⟩
    · rw [beforeCall, execAll?_append ht, execAll?_append hu, hv]
    · exact prefix_argumentSlots (hlen ▸ hregs) hrest

/-- The code of a call behind the call itself. -/
def afterCall (args : List Expr) : List Instr :=
  (if args.length - argumentRegisters.length = 0 then []
    else [.release (8 * (args.length - argumentRegisters.length))]) ++
    savedRegisters.reverse.map .pop

/-- After a call whatever is in the place of the arguments on the stack is dropped, and the saved
registers are taken from the stack. -/
theorem exec_afterCall (img : Image) (callee : Callee) {args : List Expr}
    {below saved rest : List Value} (hbelow : below.length = args.length - argumentRegisters.length)
    (hsaved : saved.length = savedRegisters.length) (hstack : s.stack = below ++ (saved ++ rest)) :
    ∃ t, execAll? img callee (afterCall args) s = some (.running t) ∧
      savedRegisters.reverse.map t.regs = saved ∧ t.stack = rest ∧ t.memory = s.memory ∧
      t.trace = s.trace := by
  have hrelease : execAll? img callee (if args.length - argumentRegisters.length = 0 then []
      else [.release (8 * (args.length - argumentRegisters.length))]) s =
        some (.running { s with stack := saved ++ rest }) := by
    split
    · next h =>
      have hnil : below = [] := List.length_eq_zero_iff.mp (hbelow.trans h)
      rw [hnil, List.nil_append] at hstack
      rw [← hstack]
      rfl
    · have hsize : 8 * (args.length - argumentRegisters.length) / 8 = below.length := by omega
      have hle : below.length ≤ s.stack.length := by
        rw [hstack, List.length_append]
        omega
      simp only [execAll?, exec?, hsize]
      rw [if_pos hle, hstack, List.drop_left]
  have hnodup : savedRegisters.reverse.Nodup := by decide
  obtain ⟨t, ht, hregs, _, hrest, hm, htr⟩ := exec_pops img callee
    (s := { s with stack := saved ++ rest }) hnodup (by simpa using hsaved) rfl
  exact ⟨t, by rw [afterCall, execAll?_append hrelease, ht], hregs, hrest, hm, htr⟩

theorem callCode_eq (f : String) (args : List Expr) :
    callCode f args = beforeCall args ++ (.call f :: afterCall args) := by
  simp only [callCode, beforeCall, afterCall, List.append_assoc, List.singleton_append]
  rfl

theorem isStraight_beforeCall (args : List Expr) : ∀ i ∈ beforeCall args, i.isStraight := by
  intro i hi
  simp only [beforeCall, List.mem_append, List.mem_map] at hi
  rcases hi with ⟨r, _, rfl⟩ | hi | ⟨r, _, rfl⟩
  · rfl
  · exact isStraight_argumentsCode args i hi
  · rfl

theorem isStraight_afterCall (args : List Expr) : ∀ i ∈ afterCall args, i.isStraight := by
  intro i hi
  simp only [afterCall, List.mem_append, List.mem_map] at hi
  rcases hi with hi | ⟨r, _, rfl⟩
  · split at hi
    · simp at hi
    · obtain rfl := List.mem_singleton.mp hi
      rfl
  · rfl

/-- The call itself records where the arguments are. -/
theorem advances_call (img : Image) (callee : Callee) {f : String} {rest : List Item}
    (hrest : s.rest = .instr (.call f) :: rest) :
    ∃ t, Advances (step img callee) s t ∧ t.rest = rest ∧ t.stack = s.stack ∧ t.memory = s.memory ∧
      t.trace = s.trace ++ [.called f s.argumentSlots] :=
  ⟨_, .of_step (step_of_exec? hrest rfl), rfl, rfl, rfl, rfl⟩

/-- A call is done with the values of its arguments, and afterwards the stack and the variables are
as before. -/
theorem run_call (img : Image) (callee : Callee) {f : String} {args : List Expr} {rest : List Item}
    (hrest : s.rest = (callCode f args).map .instr ++ rest)
    (hmem : ∀ e ∈ args, ∀ x ∈ e.names, s.memory x = some (store x)) :
    match evalArguments? store args with
    | some values => ∃ t slots, Advances (step img callee) s t ∧ t.rest = rest ∧ t.stack = s.stack ∧
        t.memory = s.memory ∧ t.trace = s.trace ++ [.called f slots] ∧
        values.map .ofInt32 <+: slots
    | none => ∃ t, EndsIn (step img callee) s .divideError t ∧ t.memory = s.memory ∧
        t.trace = s.trace := by
  have hbefore := exec_beforeCall img callee args hmem
  have hrest' : s.rest = (beforeCall args).map .instr ++
      (.instr (.call f) :: ((afterCall args).map .instr ++ rest)) := by
    rw [hrest, callCode_eq]
    simp
  cases hvs : evalArguments? store args with
  | none =>
    rw [hvs] at hbefore
    obtain ⟨t, ht, hm, htr⟩ := hbefore
    obtain ⟨rest', hend⟩ := endsIn_of_execAll? (isStraight_beforeCall args) hrest' ht
    exact ⟨_, hend, hm, htr⟩
  | some values =>
    rw [hvs] at hbefore
    obtain ⟨t, ht, hslots, hstack, hm, htr⟩ := hbefore
    have hreach := reaches_of_execAll? (isStraight_beforeCall args) hrest' ht
    obtain ⟨u, hu, hurest, hustack, hum, hutr⟩ := advances_call img callee
      (s := { t with rest := .instr (.call f) :: ((afterCall args).map .instr ++ rest) }) rfl
    have hbelow : ((values.map Value.ofInt32).drop argumentRegisters.length).length =
        args.length - argumentRegisters.length := by
      rw [List.length_drop, List.length_map, length_evalArguments? hvs]
    have hsaved : (savedRegisters.map s.regs).reverse.length = savedRegisters.length := by simp
    obtain ⟨v, hv, _, hvstack, hvm, hvtr⟩ :=
      exec_afterCall img callee hbelow hsaved (hustack.trans hstack)
    have hafter := reaches_of_execAll? (isStraight_afterCall args) hurest hv
    refine ⟨_, t.argumentSlots, hreach.advances (hu.trans hafter), rfl, hvstack, ?_, ?_, hslots⟩
    · exact hvm.trans (hum.trans hm)
    · rw [hvtr, hutr, htr]
      rfl

end State

end ImpAsm

import ImpAsm.Proofs.Expr.Names
import ImpAsm.Proofs.Machine.Straight
import ImpAsm.Proofs.Machine.Values

namespace ImpAsm

/-- What the operation does to the bytes of truth values. -/
def ByteOp.onTruth : ByteOp → Bool → Bool → Bool
  | .and, a, b => a && b
  | .or, a, b => a || b

namespace State

/-- Nothing has happened to the stack and the variables, and nothing has been done. -/
structure Keeps (s t : State) : Prop where
  stack : t.stack = s.stack
  memory : t.memory = s.memory
  trace : t.trace = s.trace

theorem Keeps.trans {s t u : State} (h : Keeps s t) (h' : Keeps t u) : Keeps s u :=
  ⟨h'.stack.trans h.stack, h'.memory.trans h.memory, h'.trace.trans h.trace⟩

variable (img : Image) (callee : Callee)

/-- The instructions leave a value in `eax` and nothing else, or a division in them fails. -/
def Computes (is : List Instr) (s : State) : Option Int32 → Prop
  | some v =>
    ∃ t, execAll? img callee is s = some (.running t) ∧ t.regs .rax = .ofInt32 v ∧ Keeps s t
  | none => ∃ t, execAll? img callee is s = some (.ended .divideError t) ∧ t.memory = s.memory ∧
      t.trace = s.trace

variable {img callee} {s t : State} {is js : List Instr} {r : Option Int32}

/-- The value of code is that of its last part. -/
theorem Computes.of_append (h : execAll? img callee is s = some (.running t)) (hk : Keeps s t)
    (h' : Computes img callee js t r) : Computes img callee (is ++ js) s r := by
  cases r with
  | some v =>
    obtain ⟨u, hu, hv, hk'⟩ := h'
    exact ⟨u, (execAll?_append h).trans hu, hv, hk.trans hk'⟩
  | none =>
    obtain ⟨u, hu, hm, ht⟩ := h'
    exact ⟨u, (execAll?_append h).trans hu, hm.trans hk.memory, ht.trans hk.trace⟩

theorem Computes.append_none (h : Computes img callee is s none) :
    Computes img callee (is ++ js) s none := by
  obtain ⟨t, ht, hm, htr⟩ := h
  exact ⟨t, execAll?_append_ended ht, hm, htr⟩

/-- The truth of a condition on the last comparison becomes a value. -/
theorem computes_truth (cond : Cond) {x : Int32} (hx : s.regs .rax = .ofInt32 x) :
    Computes img callee (truth cond) s (some (truthValue (cond.holds s.flags))) := by
  obtain ⟨w, hw, hb⟩ :=
    Value.withByte?_word x.toUInt32.toUInt64 (if cond.holds s.flags then 1 else 0)
  refine ⟨(s.set .rax (.word w)).set .rax (.ofInt32 (truthValue (cond.holds s.flags))), ?_, ?_,
    rfl, rfl, rfl⟩
  · simp [truth, execAll?, exec?, hx, Value.ofInt32, hw, set, hb, Value.word_toUInt64_truth]
  · simp [set]

/-- A comparison that sets the flags, and the truth of a condition on them. -/
theorem computes_comparison (cond : Cond) {i : Instr} {flags : Int × Int} {x : Int32}
    (hi : s.exec? img callee i = some (.running { s with flags })) (hx : s.regs .rax = .ofInt32 x) :
    Computes img callee (i :: truth cond) s (some (truthValue (cond.holds flags))) := by
  have hexec : execAll? img callee [i] s = some (.running { s with flags }) := by
    simp [execAll?, hi]
  have htruth : Computes img callee (truth cond) { s with flags } _ := computes_truth cond hx
  exact htruth.of_append hexec ⟨rfl, rfl, rfl⟩

theorem holds_test (x : Int32) :
    Cond.e.holds ((x.toUInt32.toNat : Int), 0) = decide (x = 0) ∧
      Cond.ne.holds ((x.toUInt32.toNat : Int), 0) = decide (x ≠ 0) := by
  simp only [Cond.holds, ne_eq, toNat_toUInt32_eq_zero, and_self]

theorem computes_apply (op : UnOp) {x : Int32} (hx : s.regs .rax = .ofInt32 x) :
    Computes img callee op.apply s (some (op.eval x)) := by
  cases op with
  | neg =>
    refine ⟨s.put .rax (-x), ?_, ?_, rfl, rfl, rfl⟩
    · simp [UnOp.apply, execAll?, exec?, low?, hx]
    · simp [put, set, UnOp.eval]
  | not =>
    have htest : s.exec? img callee (.test .rax) =
        some (.running { s with flags := (x.toUInt32.toNat, 0) }) := by
      simp [exec?, low?, hx]
    have h := computes_comparison .e htest hx
    rwa [(holds_test x).1] at h

theorem computes_arith (op : Arith) {x y : Int32} (hx : s.regs .rax = .ofInt32 x)
    (hy : s.regs .rbx = .ofInt32 y) :
    Computes img callee [.arith op .rax .rbx] s (some (op.eval x y)) := by
  refine ⟨s.put .rax (op.eval x y), ?_, ?_, rfl, rfl, rfl⟩
  · simp [execAll?, exec?, low?, hx, hy]
  · simp [put, set]

theorem computes_div {x y : Int32} (hx : s.regs .rax = .ofInt32 x)
    (hy : s.regs .rbx = .ofInt32 y) :
    Computes img callee [.cdq, .idiv .rbx] s (BinOp.div.eval? x y) := by
  have hexec : execAll? img callee [.cdq, .idiv .rbx] s =
      some ((s.put .rdx (if x < 0 then -1 else 0)).divide (if x < 0 then -1 else 0) x y) := by
    simp only [execAll?, exec?, low?, put, set, hx, Value.low?_ofInt32, Option.bind_eq_bind,
      Option.bind_some, Option.pure_def, reduceCtorEq, if_false, if_true, hy]
    generalize State.divide _ _ _ _ = o
    cases o <;> rfl
  rw [divide_eq] at hexec
  cases hq : BinOp.div.eval? x y with
  | some q =>
    rw [hq] at hexec
    exact ⟨_, hexec, by simp [put, set], rfl, rfl, rfl⟩
  | none =>
    rw [hq] at hexec
    exact ⟨_, hexec, rfl, rfl⟩

/-- The low byte of a register becomes the truth of its comparison with zero. -/
theorem exec_truthByte {r : Reg} {x : Int32} (hr : s.regs r = .ofInt32 x) :
    ∃ w flags, execAll? img callee [.test r, .set .ne r] s =
        some (.running ({ s with flags }.set r (.word w))) ∧
      (Value.word w).byte? = some (if decide (x ≠ 0) then 1 else 0) := by
  obtain ⟨w, hw, hb⟩ :=
    Value.withByte?_word x.toUInt32.toUInt64 (if decide (x ≠ 0) then 1 else 0)
  refine ⟨w, (x.toUInt32.toNat, 0), ?_, hb⟩
  have htest : s.exec? img callee (.test r) =
      some (.running { s with flags := (x.toUInt32.toNat, 0) }) := by
    simp [exec?, low?, hr]
  have hset : { s with flags := (x.toUInt32.toNat, 0) }.exec? img callee (.set .ne r) =
      some (.running ({ s with flags := (x.toUInt32.toNat, 0) }.set r (.word w))) := by
    simp only [exec?, (holds_test x).2]
    rw [hr, Value.ofInt32, hw]
    rfl
  simp only [execAll?, htest, hset]

theorem byteOp_truth (op : ByteOp) (a b : Bool) :
    op.eval (if a then 1 else 0) (if b then 1 else 0) = if op.onTruth a b then 1 else 0 := by
  cases op <;> cases a <;> cases b <;> rfl

theorem computes_joinedBytes (op : ByteOp) {a b : Bool} {w v : UInt64}
    (hrax : s.regs .rax = .word w) (hrbx : s.regs .rbx = .word v)
    (hw : (Value.word w).byte? = some (if a then 1 else 0))
    (hv : (Value.word v).byte? = some (if b then 1 else 0)) :
    Computes img callee [.bytes op .rax .rbx, .widen .rax .rax] s
      (some (truthValue (op.onTruth a b))) := by
  obtain ⟨u, hu, hb⟩ :=
    Value.withByte?_word w (op.eval (if a then 1 else 0) (if b then 1 else 0))
  have hbytes :
      s.exec? img callee (.bytes op .rax .rbx) = some (.running (s.set .rax (.word u))) := by
    simp [exec?, hrax, hrbx, hw, hv, hu]
  have hwiden : (s.set .rax (.word u)).exec? img callee (.widen .rax .rax) =
      some (.running ((s.set .rax (.word u)).set .rax
        (.ofInt32 (truthValue (op.onTruth a b))))) := by
    rw [byteOp_truth] at hb
    rw [← Value.word_toUInt64_truth]
    simp [exec?, set, hb]
  refine ⟨_, by simp only [execAll?, hbytes, hwiden]; rfl, ?_, ⟨?_, ?_, ?_⟩⟩
  · simp [set]
  all_goals rfl

theorem computes_truthOfBoth (op : ByteOp) {x y : Int32} (hx : s.regs .rax = .ofInt32 x)
    (hy : s.regs .rbx = .ofInt32 y) :
    Computes img callee (truthOfBoth op) s (some (truthValue (op.onTruth (x ≠ 0) (y ≠ 0)))) := by
  have hcode : truthOfBoth op = [.test .rax, .set .ne .rax] ++
      ([.test .rbx, .set .ne .rbx] ++ [.bytes op .rax .rbx, .widen .rax .rax]) := rfl
  rw [hcode]
  obtain ⟨w, flags, hexec, hw⟩ := exec_truthByte hx
  refine Computes.of_append hexec ⟨rfl, rfl, rfl⟩ ?_
  have hy' : ({ s with flags }.set .rax (.word w)).regs .rbx = .ofInt32 y := by
    simpa [set] using hy
  obtain ⟨v, flags', hexec', hv⟩ := exec_truthByte hy'
  refine Computes.of_append hexec' ⟨rfl, rfl, rfl⟩ ?_
  exact computes_joinedBytes op (by simp [set]) (by simp [set]) hw hv

theorem computes_combine (op : BinOp) {x y : Int32} (hx : s.regs .rax = .ofInt32 x)
    (hy : s.regs .rbx = .ofInt32 y) : Computes img callee op.combine s (op.eval? x y) := by
  have hcmp : s.exec? img callee (.cmp .rax .rbx) =
      some (.running { s with flags := (x.toInt, y.toInt) }) := by
    simp [exec?, low?, hx, hy]
  cases op with
  | add => exact computes_arith .add hx hy
  | sub => exact computes_arith .sub hx hy
  | mul => exact computes_arith .imul hx hy
  | div => exact computes_div hx hy
  | eq =>
    have h := computes_comparison .e hcmp hx
    simpa [BinOp.combine, BinOp.eval?, Cond.holds, Int32.toInt_inj] using h
  | ne =>
    have h := computes_comparison .ne hcmp hx
    simpa [BinOp.combine, BinOp.eval?, Cond.holds, Int32.toInt_inj] using h
  | lt =>
    have h := computes_comparison .l hcmp hx
    simpa [BinOp.combine, BinOp.eval?, Cond.holds, ← Int32.lt_iff_toInt_lt] using h
  | le =>
    have h := computes_comparison .le hcmp hx
    simpa [BinOp.combine, BinOp.eval?, Cond.holds, ← Int32.le_iff_toInt_le] using h
  | gt =>
    have h := computes_comparison .g hcmp hx
    simpa [BinOp.combine, BinOp.eval?, Cond.holds, ← Int32.lt_iff_toInt_lt] using h
  | ge =>
    have h := computes_comparison .ge hcmp hx
    simpa [BinOp.combine, BinOp.eval?, Cond.holds, ← Int32.le_iff_toInt_le] using h
  | and =>
    have h : Computes img callee (truthOfBoth .and) s _ := computes_truthOfBoth .and hx hy
    simpa [BinOp.combine, BinOp.eval?, ByteOp.onTruth] using h
  | or =>
    have h : Computes img callee (truthOfBoth .or) s _ := computes_truthOfBoth .or hx hy
    simpa [BinOp.combine, BinOp.eval?, ByteOp.onTruth] using h

/-- The right operand waits on the stack while the left one is computed. -/
theorem computes_operands {l r : List Instr} {x y : Option Int32}
    (hr : Computes img callee r s y)
    (hl : ∀ t, t.memory = s.memory → Computes img callee l t x) :
    match y, x with
    | some y, some x => ∃ t, execAll? img callee (r ++ (.push .rax :: (l ++ [.pop .rbx]))) s =
        some (.running t) ∧ t.regs .rax = .ofInt32 x ∧ t.regs .rbx = .ofInt32 y ∧ Keeps s t
    | _, _ => Computes img callee (r ++ (.push .rax :: (l ++ [.pop .rbx]))) s none := by
  cases y with
  | none => exact hr.append_none
  | some y =>
    obtain ⟨t, ht, hy, hkeeps⟩ := hr
    have hpush : execAll? img callee [.push .rax] t =
        some (.running { t with stack := .ofInt32 y :: t.stack }) := by
      simp [execAll?, exec?, hy]
    have hcode :
        r ++ (.push .rax :: (l ++ [.pop .rbx])) = r ++ ([.push .rax] ++ (l ++ [.pop .rbx])) :=
      rfl
    have hl' := hl { t with stack := .ofInt32 y :: t.stack } hkeeps.memory
    rw [hcode]
    cases x with
    | none =>
      obtain ⟨u, hu, hm, htr⟩ := hl'
      refine ⟨u, ?_, hm.trans hkeeps.memory, htr.trans hkeeps.trace⟩
      rw [execAll?_append ht, execAll?_append hpush, execAll?_append_ended hu]
    | some x =>
      obtain ⟨u, hu, hx, hkeeps'⟩ := hl'
      have hpop : execAll? img callee [.pop .rbx] u =
          some (.running ({ u with stack := t.stack }.set .rbx (.ofInt32 y))) := by
        simp [execAll?, exec?, hkeeps'.stack]
      refine ⟨{ u with stack := t.stack }.set .rbx (.ofInt32 y), ?_, ?_, by simp [set],
        hkeeps.stack, hkeeps'.memory.trans hkeeps.memory, hkeeps'.trace.trans hkeeps.trace⟩
      · rw [execAll?_append ht, execAll?_append hpush, execAll?_append hu, hpop]
      · simp [set, hx]

/-- The code of an expression leaves its value in `eax`, if the variables have their values. -/
theorem computes_code (e : Expr) {store : Store} {s : State}
    (hmem : ∀ x ∈ e.names, s.memory x = some (store x)) :
    Computes img callee e.code s (e.eval? store) := by
  induction e generalizing s with
  | num w =>
    refine ⟨s.put .rax w, ?_, by simp [put, set], rfl, rfl, rfl⟩
    simp [Expr.code, execAll?, exec?]
  | bool b =>
    refine ⟨s.put .rax (truthValue b), ?_, by simp [put, set], rfl, rfl, rfl⟩
    cases b <;> rfl
  | ident x =>
    refine ⟨s.put .rax (store x), ?_, by simp [put, set], rfl, rfl, rfl⟩
    simp [Expr.code, execAll?, exec?, hmem x (by simp [Expr.names])]
  | unary op e ih =>
    have he := ih (s := s) fun x hx => hmem x (by simpa [Expr.names] using hx)
    rw [Expr.code, Expr.eval?]
    cases hv : e.eval? store with
    | none =>
      rw [hv] at he
      exact he.append_none
    | some v =>
      rw [hv] at he
      obtain ⟨t, ht, hx, hkeeps⟩ := he
      exact (computes_apply op hx).of_append ht hkeeps
  | binary op l r ihl ihr =>
    have hr := ihr (s := s) fun x hx => hmem x (by simp [Expr.names, hx])
    have hl (t : State) (ht : t.memory = s.memory) : Computes img callee l.code t (l.eval? store) :=
      ihl fun x hx => ht ▸ hmem x (by simp [Expr.names, hx])
    have hboth := computes_operands hr hl
    have hcode : (Expr.binary op l r).code =
        (r.code ++ (.push .rax :: (l.code ++ [.pop .rbx]))) ++ op.combine := by
      simp [Expr.code]
    rw [hcode, Expr.eval?]
    cases hy : r.eval? store with
    | none =>
      rw [hy] at hboth
      exact hboth.append_none
    | some y =>
      cases hx : l.eval? store with
      | none =>
        rw [hy, hx] at hboth
        exact hboth.append_none
      | some x =>
        rw [hy, hx] at hboth
        obtain ⟨t, ht, hrax, hrbx, hkeeps⟩ := hboth
        exact (computes_combine op hrax hrbx).of_append ht hkeeps

end State

end ImpAsm

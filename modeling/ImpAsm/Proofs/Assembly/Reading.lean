import ImpAsm.Proofs.Assembly.Operands
import ImpAsm.Proofs.Token.Scanning

namespace ImpAsm

/-- The parts of a text between gaps, without the empty ones. -/
def fields (gap : Char → Bool) (cs : List Char) : List (List Char) :=
  (cs.splitOnP gap).filter fun w => !w.isEmpty

section Fields

variable {gap : Char → Bool} {c : Char} {cs : List Char}

@[simp] theorem fields_nil (gap : Char → Bool) : fields gap [] = [] := by
  simp [fields, List.splitOnP_nil]

theorem fields_append (hc : gap c) (xs ys : List Char) :
    fields gap (xs ++ c :: ys) = fields gap xs ++ fields gap ys := by
  rw [fields, List.splitOnP_append_cons xs ys hc, List.filter_append]
  rfl

theorem fields_cons (hc : gap c) (cs : List Char) : fields gap (c :: cs) = fields gap cs := by
  have happend := fields_append hc [] cs
  simpa using happend

theorem fields_of_forall (hne : cs ≠ []) (h : ∀ c ∈ cs, gap c = false) : fields gap cs = [cs] := by
  simp [fields, List.splitOnP_eq_singleton h, hne]

end Fields

/-- A character of a word in the text section. -/
def isPlain (c : Char) : Bool := !([' ', ',', ';', ':', '\n'].contains c)

/-- A word in the text section. -/
def IsPlain (w : String) : Prop := w.toList ≠ [] ∧ w.toList.all isPlain

instance (w : String) : Decidable (IsPlain w) := inferInstanceAs (Decidable (_ ∧ _))

theorem isPlain_of_isDigit {c : Char} (h : c.isDigit) : isPlain c := by
  simp only [isPlain, Bool.not_eq_true', List.contains_eq_mem, decide_eq_false_iff_not]
  intro hmem
  simp only [List.mem_cons, List.not_mem_nil, or_false] at hmem
  rcases hmem with rfl | rfl | rfl | rfl | rfl <;> simp at h

theorem isPlain_of_isAlpha {c : Char} (h : c.isAlpha) : isPlain c := by
  simp only [isPlain, Bool.not_eq_true', List.contains_eq_mem, decide_eq_false_iff_not]
  intro hmem
  simp only [List.mem_cons, List.not_mem_nil, or_false] at hmem
  rcases hmem with rfl | rfl | rfl | rfl | rfl <;> simp at h

theorem all_isPlain_repr (n : Nat) : n.repr.toList.all isPlain := by
  rw [List.all_eq_true]
  intro c hc
  exact isPlain_of_isDigit (isDigit_of_mem_repr hc)

namespace IsPlain

theorem not_mem {w : String} (hw : IsPlain w) {c : Char} (hc : isPlain c = false) :
    c ∉ w.toList := by
  intro hmem
  have hplain := List.all_eq_true.mp hw.2 c hmem
  simp [hc] at hplain

theorem append {v w : String} (hv : IsPlain v) (hw : w.toList.all isPlain) : IsPlain (v ++ w) := by
  refine ⟨by simp [hv.1], ?_⟩
  rw [String.toList_append, List.all_append, hv.2, hw]
  rfl

theorem of_isWord {w : String} (h : IsWord w) : IsPlain w := by
  refine ⟨h.1, List.all_eq_true.mpr ?_⟩
  intro c hc
  exact isPlain_of_isAlpha (List.all_eq_true.mp h.2 c hc)

theorem repr (n : Nat) : IsPlain n.repr := ⟨toList_repr_ne_nil n, all_isPlain_repr n⟩

theorem toString_int (n : Int) : IsPlain (toString n) := by
  cases n with
  | ofNat n => exact repr n
  | negSucc n =>
    have hsign : IsPlain "-" := by decide
    exact hsign.append (all_isPlain_repr (n + 1))

theorem quad (r : Reg) : IsPlain r.quad := by cases r <;> decide

theorem word (r : Reg) : IsPlain r.word := by cases r <;> decide

theorem byte (r : Reg) : IsPlain r.byte := by cases r <;> decide

theorem label (l : Label) : IsPlain l.text := by
  obtain ⟨role, n⟩ := l
  have hstem : IsPlain (role.stem ++ "_") := by cases role <;> decide
  exact hstem.append (all_isPlain_repr n)

theorem variableLabel {x : String} (hx : IsWord x) : IsPlain (variableLabel x) := by
  have hstem : IsPlain "var_" := by decide
  exact hstem.append (of_isWord hx).2

theorem messageLabel (n : Nat) : IsPlain (messageLabel n) := by
  have hstem : IsPlain "msg_" := by decide
  exact hstem.append (all_isPlain_repr n)

end IsPlain

/-- The text that refers to a symbol of the data section. -/
def memoryText (symbol : String) : String := "[" ++ symbol ++ "]"

namespace Instr

/-- The words of an instruction: its mnemonic and its operands. -/
def words : Instr → List String
  | const dst value => ["mov", dst.word, toString value]
  | move dst src => ["mov", dst.word, src.word]
  | load dst x => ["mov", dst.word, memoryText (variableLabel x)]
  | store x src => ["mov", memoryText (variableLabel x), src.word]
  | address dst message => ["lea", dst.quad, memoryText (messageLabel message)]
  | neg dst => ["neg", dst.word]
  | arith op dst src => [op.mnemonic, dst.word, src.word]
  | cdq => ["cdq"]
  | idiv src => ["idiv", src.word]
  | cmp left right => ["cmp", left.word, right.word]
  | cmpZero left => ["cmp", left.word, "0"]
  | test r => ["test", r.word, r.word]
  | set cond dst => ["set" ++ cond.suffix, dst.byte]
  | bytes op dst src => [op.mnemonic, dst.byte, src.byte]
  | widen dst src => ["movzx", dst.word, src.byte]
  | clear dst => ["xor", dst.word, dst.word]
  | push src => ["push", src.quad]
  | pop dst => ["pop", dst.quad]
  | release size => ["add", "rsp", toString size]
  | jump target => ["jmp", target.text]
  | jumpEqual target => ["je", target.text]
  | call function => ["call", function]
  | syscall => ["syscall"]

/-- The names in an instruction are words. -/
def Plain : Instr → Prop
  | load _ x => IsWord x
  | store x _ => IsWord x
  | call f => IsWord f
  | _ => True

theorem text_eq (i : Instr) :
    (∃ op, i.words = [op] ∧ i.text = op) ∨ (∃ op a, i.words = [op, a] ∧ i.text = op ++ " " ++ a) ∨
      ∃ op a b, i.words = [op, a, b] ∧ i.text = op ++ " " ++ a ++ ", " ++ b := by
  cases i with
  | cdq | syscall => exact .inl ⟨_, rfl, rfl⟩
  | neg dst | idiv src | set cond dst | push src | pop dst | jump target | jumpEqual target
    | call f => exact .inr (.inl ⟨_, _, rfl, rfl⟩)
  | _ => exact .inr (.inr ⟨_, _, _, rfl, rfl⟩)

theorem isPlain_memoryText {symbol : String} (h : symbol.toList.all isPlain) :
    IsPlain (memoryText symbol) := by
  have hopen : IsPlain "[" := by decide
  have hclose : "]".toList.all isPlain := by decide
  exact (hopen.append h).append hclose

theorem isPlain_words {i : Instr} (hi : i.Plain) : ∀ w ∈ i.words, IsPlain w := by
  have hvariable {x : String} (hx : IsWord x) : IsPlain (memoryText (variableLabel x)) :=
    isPlain_memoryText (IsPlain.variableLabel hx).2
  have hmessage (n : Nat) : IsPlain (memoryText (messageLabel n)) :=
    isPlain_memoryText (IsPlain.messageLabel n).2
  cases i <;> simp only [words, List.forall_mem_cons, List.not_mem_nil, false_implies, implies_true,
    and_true]
  case const dst value => exact ⟨by decide, .word dst, .toString_int value⟩
  case move dst src => exact ⟨by decide, .word dst, .word src⟩
  case load dst x => exact ⟨by decide, .word dst, hvariable hi⟩
  case store x src => exact ⟨by decide, hvariable hi, .word src⟩
  case address dst id => exact ⟨by decide, .quad dst, hmessage id⟩
  case neg dst => exact ⟨by decide, .word dst⟩
  case arith op dst src => exact ⟨by cases op <;> decide, .word dst, .word src⟩
  case cdq => decide
  case idiv src => exact ⟨by decide, .word src⟩
  case cmp left right => exact ⟨by decide, .word left, .word right⟩
  case cmpZero left => exact ⟨by decide, .word left, by decide⟩
  case test r => exact ⟨by decide, .word r, .word r⟩
  case set cond dst => exact ⟨by cases cond <;> decide, .byte dst⟩
  case bytes op dst src => exact ⟨by cases op <;> decide, .byte dst, .byte src⟩
  case widen dst src => exact ⟨by decide, .word dst, .byte src⟩
  case clear dst => exact ⟨by decide, .word dst, .word dst⟩
  case push src => exact ⟨by decide, .quad src⟩
  case pop dst => exact ⟨by decide, .quad dst⟩
  case release size => exact ⟨by decide, by decide, .repr size⟩
  case jump target => exact ⟨by decide, .label target⟩
  case jumpEqual target => exact ⟨by decide, .label target⟩
  case call f => exact ⟨by decide, .of_isWord hi⟩
  case syscall => decide

/-- Blanks and commas stand between words. -/
def isGap (c : Char) : Bool := c == ' ' || c == ','

theorem isGap_of_isPlain {c : Char} (h : isPlain c) : isGap c = false := by
  simp only [isPlain, Bool.not_eq_true', List.contains_eq_mem, decide_eq_false_iff_not,
    List.mem_cons, not_or] at h
  simp [isGap, h.1, h.2.1]

theorem fields_word {w : String} (hw : IsPlain w) : fields isGap w.toList = [w.toList] := by
  refine fields_of_forall hw.1 ?_
  intro c hc
  exact isGap_of_isPlain (List.all_eq_true.mp hw.2 c hc)

/-- The words of an instruction are found in its text. -/
theorem fields_text {i : Instr} (hi : i.Plain) :
    fields isGap i.text.toList = i.words.map String.toList := by
  have hplain := isPlain_words hi
  have hspace : isGap ' ' := rfl
  have hcomma : isGap ',' := rfl
  rcases text_eq i with ⟨op, hwords, htext⟩ | ⟨op, a, hwords, htext⟩ | ⟨op, a, b, hwords, htext⟩
  · rw [hwords] at hplain
    rw [htext, hwords, fields_word (hplain op (by simp))]
    rfl
  · rw [hwords] at hplain
    have hsplit : i.text.toList = op.toList ++ ' ' :: a.toList := by simp [htext]
    rw [hsplit, hwords, fields_append hspace, fields_word (hplain op (by simp)),
      fields_word (hplain a (by simp))]
    rfl
  · rw [hwords] at hplain
    have hsplit : i.text.toList = op.toList ++ ' ' :: (a.toList ++ ',' :: ' ' :: b.toList) := by
      simp [htext]
    rw [hsplit, hwords, fields_append hspace, fields_append hcomma, fields_cons hspace,
      fields_word (hplain op (by simp)), fields_word (hplain a (by simp)),
      fields_word (hplain b (by simp))]
    rfl

/-- What stands in brackets. -/
def inBrackets? : List Char → Option (List Char)
  | '[' :: cs => if cs.getLast? = some ']' then some cs.dropLast else none
  | _ => none

def variableOperand? (cs : List Char) : Option String :=
  ((inBrackets? cs).bind (afterStart? "var_".toList)).map String.ofList

def messageOperand? (cs : List Char) : Option Nat :=
  ((inBrackets? cs).bind (afterStart? "msg_".toList)).bind readDigits?

theorem inBrackets?_memoryText (symbol : String) :
    inBrackets? (memoryText symbol).toList = some symbol.toList := by
  have htext : (memoryText symbol).toList = '[' :: (symbol.toList ++ [']']) := by simp [memoryText]
  rw [htext, inBrackets?, List.getLast?_concat, if_pos rfl, List.dropLast_concat]

@[simp] theorem variableOperand?_memoryText (x : String) :
    variableOperand? (memoryText (variableLabel x)).toList = some x := by
  have htext : (variableLabel x).toList = "var_".toList ++ x.toList := by simp [variableLabel]
  rw [variableOperand?, inBrackets?_memoryText, Option.bind_some, htext, afterStart?_append]
  simp

@[simp] theorem messageOperand?_memoryText (n : Nat) :
    messageOperand? (memoryText (messageLabel n)).toList = some n := by
  have htext : (messageLabel n).toList = "msg_".toList ++ n.repr.toList := by
    change ("msg_" ++ n.repr).toList = _
    simp
  rw [messageOperand?, inBrackets?_memoryText, Option.bind_some, htext, afterStart?_append,
    Option.bind_some, readDigits?_repr]

/-- The instruction that moves a value: its operands tell from where to where. -/
def ofMove? (dst src : List Char) : Option Instr :=
  match variableOperand? dst with
  | some x => (Reg.ofWord? src).map (store x)
  | none => do
    let dst ← Reg.ofWord? dst
    match Reg.ofWord? src, variableOperand? src with
    | some r, _ => some (move dst r)
    | none, some x => some (load dst x)
    | none, none => (readInt? src).map (const dst)

/-- The same operation on two parts of registers. -/
def ofPair? (read? read'? : List Char → Option Reg) (make : Reg → Reg → Instr) (a b : String) :
    Option Instr := do
  let dst ← read? a.toList
  let src ← read'? b.toList
  return make dst src

def ofMnemonic? : String → Option Instr
  | "cdq" => some cdq
  | "syscall" => some syscall
  | _ => none

def ofOne? (op a : String) : Option Instr :=
  match op with
  | "neg" => (Reg.ofWord? a.toList).map neg
  | "idiv" => (Reg.ofWord? a.toList).map idiv
  | "sete" => (Reg.ofByte? a.toList).map (set .e)
  | "setne" => (Reg.ofByte? a.toList).map (set .ne)
  | "setl" => (Reg.ofByte? a.toList).map (set .l)
  | "setle" => (Reg.ofByte? a.toList).map (set .le)
  | "setg" => (Reg.ofByte? a.toList).map (set .g)
  | "setge" => (Reg.ofByte? a.toList).map (set .ge)
  | "push" => (Reg.ofQuad? a.toList).map push
  | "pop" => (Reg.ofQuad? a.toList).map pop
  | "jmp" => (Label.ofText? a.toList).map jump
  | "je" => (Label.ofText? a.toList).map jumpEqual
  | "call" => some (call a)
  | _ => none

def ofTwo? (op a b : String) : Option Instr :=
  match op with
  | "mov" => ofMove? a.toList b.toList
  | "lea" => do
    let dst ← Reg.ofQuad? a.toList
    let id ← messageOperand? b.toList
    return address dst id
  | "add" =>
    if a = "rsp" then (readDigits? b.toList).map release
    else ofPair? Reg.ofWord? Reg.ofWord? (arith .add) a b
  | "sub" => ofPair? Reg.ofWord? Reg.ofWord? (arith .sub) a b
  | "imul" => ofPair? Reg.ofWord? Reg.ofWord? (arith .imul) a b
  | "cmp" =>
    if b = "0" then (Reg.ofWord? a.toList).map cmpZero else ofPair? Reg.ofWord? Reg.ofWord? cmp a b
  | "test" => if a = b then (Reg.ofWord? a.toList).map test else none
  | "and" => ofPair? Reg.ofByte? Reg.ofByte? (bytes .and) a b
  | "or" => ofPair? Reg.ofByte? Reg.ofByte? (bytes .or) a b
  | "movzx" => ofPair? Reg.ofWord? Reg.ofByte? widen a b
  | "xor" => if a = b then (Reg.ofWord? a.toList).map clear else none
  | _ => none

/-- The instruction with the given words. -/
def ofWords? : List String → Option Instr
  | [op] => ofMnemonic? op
  | [op, a] => ofOne? op a
  | [op, a, b] => ofTwo? op a b
  | _ => none

theorem variableOperand?_word (r : Reg) : variableOperand? r.word.toList = none := by
  cases r <;> decide

/-- A register is told from other operands by its first letter. -/
theorem ofWord?_eq_none {c : Char} {cs : List Char} (he : c ≠ 'e') (hr : c ≠ 'r') :
    Reg.ofWord? (c :: cs) = none := by
  simp only [Reg.ofWord?, List.find?_eq_none, beq_iff_eq]
  intro r _ hword
  have hhead : r.word.toList.head? = some c := by rw [hword]; rfl
  cases r <;> simp [Reg.word, Ne.symm he, Ne.symm hr] at hhead

theorem ofMove?_const (dst : Reg) (value : Int) :
    ofMove? dst.word.toList (toString value).toList = some (const dst value) := by
  obtain ⟨c, cs, htext, hc⟩ :
      ∃ c cs, (toString value).toList = c :: cs ∧ (c.isDigit ∨ c = '-') := by
    cases value with
    | ofNat n =>
      obtain ⟨c, cs, htext⟩ := List.exists_cons_of_ne_nil (toList_repr_ne_nil n)
      exact ⟨c, cs, htext, .inl (isDigit_of_mem_repr (n := n) (by simp [htext]))⟩
    | negSucc n =>
      have htext : (toString (Int.negSucc n)).toList = '-' :: (n + 1).repr.toList := by
        change ("-" ++ (n + 1).repr).toList = _
        simp
      exact ⟨'-', (n + 1).repr.toList, htext, .inr rfl⟩
  have hne : c ≠ 'e' ∧ c ≠ 'r' ∧ c ≠ '[' := by
    refine ⟨?_, ?_, ?_⟩ <;> rintro rfl <;> simp at hc
  have hvariable : variableOperand? (c :: cs) = none := by
    simp [variableOperand?, inBrackets?, hne.2.2]
  have hread := readInt?_toString value
  rw [htext] at hread ⊢
  simp [ofMove?, variableOperand?_word, ofWord?_eq_none hne.1 hne.2.1, hvariable, hread]

theorem ofMove?_load (dst : Reg) (x : String) :
    ofMove? dst.word.toList (memoryText (variableLabel x)).toList = some (load dst x) := by
  have htext :
      (memoryText (variableLabel x)).toList = '[' :: ((variableLabel x).toList ++ [']']) := by
    simp [memoryText]
  have hread := variableOperand?_memoryText x
  rw [htext] at hread ⊢
  simp [ofMove?, variableOperand?_word, ofWord?_eq_none, hread]

/-- An instruction is read from its words. -/
theorem ofWords?_words (i : Instr) : ofWords? i.words = some i := by
  cases i with
  | const dst value => exact ofMove?_const dst value
  | load dst x => exact ofMove?_load dst x
  | store x src => simp [words, ofWords?, ofTwo?, ofMove?]
  | arith op dst src =>
    have hdst : dst.word ≠ "rsp" := by cases dst <;> decide
    cases op <;> simp [words, ofWords?, ofTwo?, Arith.mnemonic, ofPair?, hdst]
  | cdq | syscall => rfl
  | set cond dst => cases cond <;> simp [words, ofWords?, ofOne?, Cond.suffix]
  | bytes op dst src => cases op <;> simp [words, ofWords?, ofTwo?, ByteOp.mnemonic, ofPair?]
  | release size =>
    have hread : readDigits? (toString size).toList = some size := readDigits?_repr size
    simp only [words, ofWords?, ofTwo?, if_true, hread, Option.map_some]
  | cmp left right =>
    have hright : right.word ≠ "0" := by cases right <;> decide
    simp [words, ofWords?, ofTwo?, ofPair?, hright]
  | move dst src | address dst id | cmpZero left | test r | widen dst src | clear dst =>
    simp [words, ofWords?, ofTwo?, ofMove?, ofPair?, variableOperand?_word]
  | neg dst | idiv src | push src | pop dst | jump target | jumpEqual target | call f =>
    simp [words, ofWords?, ofOne?, Label.ofText?_text]

end Instr

end ImpAsm

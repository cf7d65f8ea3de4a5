import ImpAsm.Assembly.ByteString
import ImpAsm.Proofs.Text.Decimal
import ImpAsm.Stmt.Code

namespace ImpAsm

/-- Where a reader of byte operands is: between them, in quotes, or behind some digits of a
number. -/
inductive ByteScan where
  | between
  | quoted
  | number (n : Nat)

/-- Reads the operands that define bytes. -/
def readBytes? : ByteScan → List Char → Option (List UInt8)
  | .between, [] => some []
  | .quoted, [] => none
  | .number n, [] => if n < 256 then some [n.toUInt8] else none
  | .between, c :: cs =>
    if c = '"' then readBytes? .quoted cs
    else if c.isDigit then readBytes? (.number (c.toNat - '0'.toNat)) cs
    else if c = ',' ∨ c = ' ' then readBytes? .between cs
    else none
  | .quoted, c :: cs =>
    if c = '"' then readBytes? .between cs
    else if c.toNat < 128 then (readBytes? .quoted cs).map (c.toNat.toUInt8 :: ·)
    else none
  | .number n, c :: cs =>
    if c.isDigit then readBytes? (.number (10 * n + (c.toNat - '0'.toNat))) cs
    else if n < 256 ∧ c = ',' then (readBytes? .between cs).map (n.toUInt8 :: ·)
    else none

namespace ByteOperand

def bytes : ByteOperand → List UInt8
  | run cs => cs.map fun c => c.toNat.toUInt8
  | byte b => [b]

/-- A run holds printable characters without the quote. -/
def Proper : ByteOperand → Prop
  | run cs => ∀ c ∈ cs, c ≠ '"' ∧ 32 ≤ c.toNat ∧ c.toNat < 127
  | byte _ => True

end ByteOperand

theorem readBytes?_quoted {cs : List Char} (h : ∀ c ∈ cs, c ≠ '"' ∧ c.toNat < 128)
    (rest : List Char) :
    readBytes? .quoted (cs ++ '"' :: rest) =
      (readBytes? .between rest).map (cs.map (fun c => c.toNat.toUInt8) ++ ·) := by
  induction cs with
  | nil => simp [readBytes?]
  | cons c cs ih =>
    obtain ⟨hc, hlt⟩ := h c (by simp)
    rw [List.cons_append, readBytes?, if_neg hc, if_pos hlt, ih fun d hd => h d (by simp [hd]),
      Option.map_map]
    rfl

theorem readBytes?_digits {ds : List Char} (h : ∀ d ∈ ds, d.isDigit) (n : Nat) (rest : List Char) :
    readBytes? (.number n) (ds ++ rest) =
      readBytes? (.number (ds.foldl (fun n d => 10 * n + (d.toNat - '0'.toNat)) n)) rest := by
  induction ds generalizing n with
  | nil => rfl
  | cons d ds ih =>
    rw [List.cons_append, readBytes?, if_pos (h d (by simp)), ih fun e he => h e (by simp [he])]
    rfl

/-- The digits of a number are read as the number. -/
theorem readBytes?_number {ds : List Char} (hne : ds ≠ []) (h : ∀ d ∈ ds, d.isDigit)
    (rest : List Char) :
    readBytes? .between (ds ++ rest) = readBytes? (.number (digitsValue ds)) rest := by
  obtain ⟨d, es, hds⟩ := List.exists_cons_of_ne_nil hne
  have hd : d.isDigit := h d (by simp [hds])
  have hquote : d ≠ '"' := by
    rintro rfl
    simp at hd
  have hstart : readBytes? .between (ds ++ rest) = readBytes? (.number 0) (ds ++ rest) := by
    rw [hds, List.cons_append, readBytes?, readBytes?, if_neg hquote, if_pos hd, if_pos hd]
    simp
  rw [hstart, readBytes?_digits h]
  rfl

theorem readBytes?_spaces (n : Nat) (cs : List Char) :
    readBytes? .between (List.replicate n ' ' ++ cs) = readBytes? .between cs := by
  induction n with
  | zero => rfl
  | succ n ih => simpa [List.replicate_succ, readBytes?] using ih

/-- One operand with the bytes that it defines. It is a run of characters between quotes, where
every character stands for itself, or a decimal number. -/
inductive OperandDefines : List Char → List UInt8 → Prop where
  | run {cs : List Char} (h : ∀ c ∈ cs, c ≠ '"' ∧ c.toNat < 128) :
      OperandDefines ('"' :: (cs ++ ['"'])) (cs.map fun c => c.toNat.toUInt8)
  | number {ds : List Char} (hne : ds ≠ []) (hds : ∀ d ∈ ds, d.isDigit)
      (hlt : digitsValue ds < 256) :
      OperandDefines ds [(digitsValue ds).toUInt8]

/-- Operands between commas. Spaces may stand behind a comma. -/
inductive OperandsDefine : List Char → List UInt8 → Prop where
  | last {cs : List Char} {bs : List UInt8} (h : OperandDefines cs bs) : OperandsDefine cs bs
  | cons {cs ds : List Char} {bs more : List UInt8} (n : Nat) (h : OperandDefines cs bs)
      (hs : OperandsDefine ds more) :
      OperandsDefine (cs ++ ',' :: (List.replicate n ' ' ++ ds)) (bs ++ more)

theorem OperandDefines.read {cs rest : List Char} {bs : List UInt8} (h : OperandDefines cs bs)
    (hrest : rest = [] ∨ ∃ ds, rest = ',' :: ds) :
    readBytes? .between (cs ++ rest) = (readBytes? .between rest).map (bs ++ ·) := by
  cases h with
  | @run cs h =>
    have htext : '"' :: (cs ++ ['"']) ++ rest = '"' :: (cs ++ '"' :: rest) := by simp
    rw [htext, readBytes?, if_pos rfl, readBytes?_quoted h]
  | number hne hds hlt =>
    rw [readBytes?_number hne hds]
    rcases hrest with rfl | ⟨ds, rfl⟩
    · simp [readBytes?, hlt]
    · simp [readBytes?, hlt]

/-- Operands are read from the first to the last, in one way only. -/
theorem OperandsDefine.read {cs : List Char} {bs : List UInt8} (h : OperandsDefine cs bs) :
    readBytes? .between cs = some bs := by
  induction h with
  | last h =>
    have hread := h.read (.inl rfl)
    simpa [readBytes?] using hread
  | @cons cs ds bs more n h _ ih =>
    have hcomma : readBytes? .between (',' :: (List.replicate n ' ' ++ ds)) = some more := by
      rw [← ih, ← readBytes?_spaces n ds]
      simp [readBytes?]
    rw [h.read (.inr ⟨_, rfl⟩), hcomma]
    rfl

theorem ByteOperand.Proper.defines {o : ByteOperand} (ho : o.Proper) :
    OperandDefines o.text.toList o.bytes := by
  cases o with
  | run cs =>
    have htext : (ByteOperand.run cs).text.toList = '"' :: (cs ++ ['"']) := by
      simp [ByteOperand.text]
    rw [htext]
    apply OperandDefines.run
    intro c hc
    obtain ⟨hquote, _, hlt⟩ := ho c hc
    exact ⟨hquote, by omega⟩
  | byte b =>
    have hvalue : digitsValue b.toNat.repr.toList = b.toNat := digitsValue_repr b.toNat
    have hnumber :
        OperandDefines b.toNat.repr.toList [(digitsValue b.toNat.repr.toList).toUInt8] := by
      apply OperandDefines.number (toList_repr_ne_nil _)
      · exact fun _ hd => isDigit_of_mem_repr hd
      · rw [hvalue]
        exact b.toNat_lt
    have hbyte : b.toNat.toUInt8 = b := by simp
    rw [hvalue, hbyte] at hnumber
    exact hnumber

theorem toList_operands (o o' : ByteOperand) (os : List ByteOperand) :
    (", ".intercalate ((o :: o' :: os).map ByteOperand.text)).toList =
      o.text.toList ++
        ',' :: ' ' :: (", ".intercalate ((o' :: os).map ByteOperand.text)).toList := by
  simp

theorem operandsDefine_operands {o : ByteOperand} {os : List ByteOperand}
    (h : ∀ a ∈ o :: os, a.Proper) :
    OperandsDefine (", ".intercalate ((o :: os).map ByteOperand.text)).toList
      ((o :: os).flatMap ByteOperand.bytes) := by
  induction os generalizing o with
  | nil => simpa using OperandsDefine.last (h o (by simp)).defines
  | cons o' os ih =>
    rw [toList_operands]
    exact .cons 1 (h o (by simp)).defines (ih fun a ha => h a (by simp [ha]))

/-- A printable byte without the quote is a character of a run. -/
theorem proper_ofNat {b : UInt8} (hb : isQuotable b) :
    (Char.ofNat b.toNat).toNat = b.toNat ∧ (ByteOperand.run [Char.ofNat b.toNat]).Proper := by
  have hrange : 32 ≤ b.toNat ∧ b.toNat ≤ 126 ∧ b.toNat ≠ 34 := by
    simp only [isQuotable, Bool.and_eq_true, decide_eq_true_eq, UInt8.le_iff_toNat_le, ne_eq,
      ← UInt8.toNat_inj] at hb
    exact ⟨hb.1.1, hb.1.2, hb.2⟩
  have hvalid : b.toNat.isValidChar := .inl (by omega)
  have hc : (Char.ofNat b.toNat).toNat = b.toNat := by
    rw [Char.ofNat, dif_pos hvalid]
    rfl
  refine ⟨hc, ?_⟩
  intro c hmem
  obtain rfl := List.mem_singleton.mp hmem
  refine ⟨?_, by omega, by omega⟩
  intro heq
  rw [heq] at hc
  exact hrange.2.2 hc.symm

theorem consByte_spec (b : UInt8) {os : List ByteOperand} (h : ∀ o ∈ os, o.Proper) :
    (consByte b os).flatMap ByteOperand.bytes = b :: os.flatMap ByteOperand.bytes ∧
      ∀ o ∈ consByte b os, o.Proper := by
  rw [consByte]
  split
  · next hb =>
    obtain ⟨hc, hproper⟩ := proper_ofNat hb
    have hbyte : (Char.ofNat b.toNat).toNat.toUInt8 = b := by simp [hc]
    split
    · next cs more =>
      refine ⟨by simp [ByteOperand.bytes, hbyte], ?_⟩
      intro o ho
      rcases List.mem_cons.mp ho with rfl | ho
      · intro c hmem
        rcases List.mem_cons.mp hmem with rfl | hmem
        · exact hproper _ (by simp)
        · exact h (.run cs) (by simp) c hmem
      · exact h o (by simp [ho])
    · refine ⟨by simp [ByteOperand.bytes, hbyte], ?_⟩
      intro o ho
      rcases List.mem_cons.mp ho with rfl | ho
      · exact hproper
      · exact h o ho
  · refine ⟨rfl, ?_⟩
    intro o ho
    rcases List.mem_cons.mp ho with rfl | ho
    · trivial
    · exact h o ho

theorem byteOperands_spec (s : String) :
    (byteOperands s).flatMap ByteOperand.bytes = s.toUTF8.data.toList ++ [10] ∧
      ∀ o ∈ byteOperands s, o.Proper := by
  rw [byteOperands]
  induction s.toUTF8.data.toList with
  | nil => exact ⟨rfl, by simp [ByteOperand.Proper]⟩
  | cons b bs ih =>
    obtain ⟨hbytes, hproper⟩ := consByte_spec b ih.2
    exact ⟨hbytes.trans (congrArg (b :: ·) ih.1), hproper⟩

/-- The bytes that are written for a text are those of the text and a line feed. -/
theorem operandsDefine_byteStringText (s : String) :
    OperandsDefine (byteStringText s).toList (s.toUTF8.data.toList ++ [10]) := by
  obtain ⟨hbytes, hproper⟩ := byteOperands_spec s
  rw [byteStringText, ← hbytes]
  cases hos : byteOperands s with
  | nil => simp [hos] at hbytes
  | cons o os =>
    apply operandsDefine_operands
    rwa [hos] at hproper

theorem readBytes?_byteStringText (s : String) :
    readBytes? .between (byteStringText s).toList = some (s.toUTF8.data.toList ++ [10]) :=
  (operandsDefine_byteStringText s).read

/-- The characters of operands are printable. -/
def IsPrintable (c : Char) : Prop := 32 ≤ c.toNat ∧ c.toNat < 127

theorem ByteOperand.Proper.printable {o : ByteOperand} (ho : o.Proper) :
    ∀ c ∈ o.text.toList, IsPrintable c := by
  intro c hc
  cases o with
  | run cs =>
    simp only [ByteOperand.text, String.toList_append, String.toList_ofList, List.mem_append] at hc
    rcases hc with (hc | hc) | hc
    · obtain rfl : c = '"' := by simpa using hc
      exact ⟨by decide, by decide⟩
    · exact (ho c hc).2
    · obtain rfl : c = '"' := by simpa using hc
      exact ⟨by decide, by decide⟩
  | byte b =>
    have hd := isDigit_of_mem_repr hc
    simp only [Char.isDigit, Bool.and_eq_true, decide_eq_true_eq] at hd
    have hle : '0'.toNat ≤ c.toNat := hd.1
    have hge : c.toNat ≤ '9'.toNat := hd.2
    exact ⟨Nat.le_trans (by decide) hle, Nat.lt_of_le_of_lt hge (by decide)⟩

theorem printable_operands : ∀ {os : List ByteOperand}, (∀ o ∈ os, o.Proper) →
    ∀ c ∈ (", ".intercalate (os.map ByteOperand.text)).toList, IsPrintable c
  | [], _ => by simp
  | [o], h => by simpa using (h o (by simp)).printable
  | o :: o' :: os, h => by
    have htail := printable_operands fun a (ha : a ∈ o' :: os) => h a (by simp [ha])
    intro c hc
    rw [toList_operands, List.mem_append] at hc
    rcases hc with hc | hc
    · exact (h o (by simp)).printable c hc
    · rcases List.mem_cons.mp hc with rfl | hc
      · exact ⟨by decide, by decide⟩
      · rcases List.mem_cons.mp hc with rfl | hc
        · exact ⟨by decide, by decide⟩
        · exact htail c hc

theorem printable_byteStringText (s : String) : ∀ c ∈ (byteStringText s).toList, IsPrintable c :=
  printable_operands (byteOperands_spec s).2

/-- No text is lost in its directive. What is written for a text is one line of printable
characters, and the only bytes it defines as operands between commas are those of the text and a
line feed. So different texts are written differently, and a print hands over the number of the
bytes. -/
theorem byteStringText_lossless (s : String) :
    (∀ c ∈ (byteStringText s).toList, 32 ≤ c.toNat ∧ c.toNat ≤ 126) ∧
      (∀ bs, OperandsDefine (byteStringText s).toList bs ↔ bs = s.toUTF8.data.toList ++ [10]) ∧
      (∀ t, byteStringText t = byteStringText s → t = s) ∧
      ∀ (id : Nat) (v : Int), .instr (.const .rdx v) ∈ printCode id s ↔
        ∃ bs, OperandsDefine (byteStringText s).toList bs ∧ v = bs.length := by
  have honly (t : String) (bs : List UInt8) :
      OperandsDefine (byteStringText t).toList bs ↔ bs = t.toUTF8.data.toList ++ [10] := by
    constructor
    · intro h
      have hread := h.read
      rw [readBytes?_byteStringText] at hread
      exact (Option.some.inj hread).symm
    · rintro rfl
      exact operandsDefine_byteStringText t
  refine ⟨?_, honly s, ?_, ?_⟩
  · intro c hc
    obtain ⟨hlow, hhigh⟩ := printable_byteStringText s c hc
    exact ⟨hlow, by omega⟩
  · intro t heq
    have hbytes := (honly s _).mp (heq ▸ operandsDefine_byteStringText t)
    have hlist : t.toUTF8.data.toList = s.toUTF8.data.toList := List.append_cancel_right hbytes
    exact String.toByteArray_inj.mp (ByteArray.ext (Array.toList_inj.mp hlist))
  · intro id v
    simp [honly, printCode]

end ImpAsm

import ImpAsm.Assembly.Printer
import ImpAsm.Proofs.Text.Decimal

namespace ImpAsm

/-- What follows a known start of a text. -/
def afterStart? (start cs : List Char) : Option (List Char) :=
  if start.isPrefixOf cs then some (cs.drop start.length) else none

@[simp] theorem afterStart?_append (start cs : List Char) :
    afterStart? start (start ++ cs) = some cs := by
  have h : start.isPrefixOf (start ++ cs) := List.isPrefixOf_iff_prefix.mpr (List.prefix_append _ _)
  simp [afterStart?, h]

theorem afterStart?_eq_none {start cs : List Char} (h : ¬ start <+: cs) :
    afterStart? start cs = none := by
  simp [afterStart?, h]

namespace Reg

def all : List Reg := [rax, rbx, rcx, rdx, rsi, rdi, r8, r9]

def ofQuad? (cs : List Char) : Option Reg := all.find? (·.quad.toList == cs)

def ofWord? (cs : List Char) : Option Reg := all.find? (·.word.toList == cs)

def ofByte? (cs : List Char) : Option Reg := all.find? (·.byte.toList == cs)

@[simp] theorem ofQuad?_quad (r : Reg) : ofQuad? r.quad.toList = some r := by
  cases r <;> decide

@[simp] theorem ofWord?_word (r : Reg) : ofWord? r.word.toList = some r := by
  cases r <;> decide

@[simp] theorem ofByte?_byte (r : Reg) : ofByte? r.byte.toList = some r := by
  cases r <;> decide

end Reg

/-- A number in decimal with an optional minus sign. -/
def readInt? : List Char → Option Int
  | '-' :: ds => (readDigits? ds).map fun n => -n
  | ds => (readDigits? ds).map fun n => n

theorem readInt?_toString (n : Int) : readInt? (toString n).toList = some n := by
  cases n with
  | ofNat n =>
    have htext : (toString (Int.ofNat n)).toList = n.repr.toList := rfl
    rw [htext]
    have hdigits := readDigits?_repr n
    unfold readInt?
    split
    · next ds hds =>
      have hd := isDigit_of_mem_repr (n := n) (c := '-') (by simp [hds])
      simp at hd
    · rw [hdigits]
      rfl
  | negSucc n =>
    have htext : (toString (Int.negSucc n)).toList = '-' :: (n + 1).repr.toList := by
      change ("-" ++ (n + 1).repr).toList = _
      simp
    rw [htext, readInt?, readDigits?_repr]
    rfl

namespace Label

/-- Reads a code label. -/
def ofText? (cs : List Char) : Option Label :=
  [LabelRole.otherwise, .loop, .done].findSome? fun role =>
    ((afterStart? (role.stem ++ "_").toList cs).bind readDigits?).map fun n => ⟨role, n⟩

/-- The stems tell the roles apart. -/
theorem afterStart?_stem (role role' : LabelRole) (cs : List Char) :
    afterStart? (role.stem ++ "_").toList ((role'.stem ++ "_").toList ++ cs) =
      if role = role' then some cs else none := by
  by_cases h : role = role'
  · subst h
    rw [if_pos rfl, afterStart?_append]
  · rw [if_neg h]
    apply afterStart?_eq_none
    intro hp
    cases role <;> cases role' <;> simp [LabelRole.stem] at h hp

theorem ofText?_text (l : Label) : ofText? l.text.toList = some l := by
  obtain ⟨role, n⟩ := l
  have htext : (Label.text ⟨role, n⟩).toList = (role.stem ++ "_").toList ++ n.repr.toList := by
    change (role.stem ++ "_" ++ n.repr).toList = _
    rw [String.toList_append]
  rw [htext, ofText?]
  simp only [afterStart?_stem]
  cases role <;> simp only [List.findSome?_cons, reduceCtorEq, if_false, if_true, Option.bind_none,
    Option.map_none, Option.bind_some, readDigits?_repr, Option.map_some]

theorem text_injective {l l' : Label} (h : l.text = l'.text) : l = l' := by
  have h' := ofText?_text l
  rw [h, ofText?_text] at h'
  exact (Option.some.inj h').symm

end Label

end ImpAsm

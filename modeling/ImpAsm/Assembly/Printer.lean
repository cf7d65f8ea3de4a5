import ImpAsm.Assembly.Basic
import ImpAsm.Assembly.ByteString
import ImpAsm.Text.Decimal

namespace ImpAsm

namespace Reg

/-- The name of the whole register. -/
def quad : Reg → String
  | rax => "rax"
  | rbx => "rbx"
  | rcx => "rcx"
  | rdx => "rdx"
  | rsi => "rsi"
  | rdi => "rdi"
  | r8 => "r8"
  | r9 => "r9"

/-- The name of its low 32 bits. -/
def word : Reg → String
  | rax => "eax"
  | rbx => "ebx"
  | rcx => "ecx"
  | rdx => "edx"
  | rsi => "esi"
  | rdi => "edi"
  | r8 => "r8d"
  | r9 => "r9d"

/-- The name of its low byte. -/
def byte : Reg → String
  | rax => "al"
  | rbx => "bl"
  | rcx => "cl"
  | rdx => "dl"
  | rsi => "sil"
  | rdi => "dil"
  | r8 => "r8b"
  | r9 => "r9b"

end Reg

def Cond.suffix : Cond → String
  | e => "e"
  | ne => "ne"
  | l => "l"
  | le => "le"
  | g => "g"
  | ge => "ge"

def Arith.mnemonic : Arith → String
  | add => "add"
  | sub => "sub"
  | imul => "imul"

def ByteOp.mnemonic : ByteOp → String
  | and => "and"
  | or => "or"

def LabelRole.stem : LabelRole → String
  | otherwise => "else"
  | loop => "while"
  | done => "end"

def Label.text (l : Label) : String := l.role.stem ++ "_" ++ toString l.number

private def two (mnemonic dst src : String) : String := mnemonic ++ " " ++ dst ++ ", " ++ src

private def inMemory (symbol : String) : String := "[" ++ symbol ++ "]"

def Instr.text : Instr → String
  | const dst value => two "mov" dst.word (toString value)
  | move dst src => two "mov" dst.word src.word
  | load dst x => two "mov" dst.word (inMemory (variableLabel x))
  | store x src => two "mov" (inMemory (variableLabel x)) src.word
  | address dst message => two "lea" dst.quad (inMemory (messageLabel message))
  | neg dst => "neg " ++ dst.word
  | arith op dst src => two op.mnemonic dst.word src.word
  | cdq => "cdq"
  | idiv src => "idiv " ++ src.word
  | cmp left right => two "cmp" left.word right.word
  | cmpZero left => two "cmp" left.word "0"
  | test r => two "test" r.word r.word
  | set cond dst => "set" ++ cond.suffix ++ " " ++ dst.byte
  | bytes op dst src => two op.mnemonic dst.byte src.byte
  | widen dst src => two "movzx" dst.word src.byte
  | clear dst => two "xor" dst.word dst.word
  | push src => "push " ++ src.quad
  | pop dst => "pop " ++ dst.quad
  | release size => two "add" "rsp" (toString size)
  | jump target => "jmp " ++ target.text
  | jumpEqual target => "je " ++ target.text
  | call function => "call " ++ function
  | syscall => "syscall"

/-- Instructions and remarks in their place are indented, the rest starts in the first column. -/
def Line.text : Line → String
  | instr i => "  " ++ i.text
  | noted i note => "  " ++ i.text ++ " ; " ++ note
  | label l => l.text ++ ":"
  | remark note => "  ; " ++ note
  | heading note => "; " ++ note
  | blank => ""

namespace Assembly

def header (a : Assembly) : List String :=
  ["default rel", "section .text", "global _start"] ++ a.externals.map ("extern " ++ ·) ++
    ["_start:"]

def dataSection (a : Assembly) : List String :=
  ["", "section .data"] ++
    a.messages.entries.map (fun (label, s) => label ++ ": db " ++ byteStringText s) ++
    a.vars.slots.map (fun (x, w) => variableLabel x ++ ": dd " ++ wordText w)

def lines (a : Assembly) : List String := a.header ++ a.code.map Line.text ++ a.dataSection

/-- The program as text, each line ended by a line feed. -/
def text (a : Assembly) : String :=
  String.join (a.lines.map (· ++ "\n"))

end Assembly

end ImpAsm

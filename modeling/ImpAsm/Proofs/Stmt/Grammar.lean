import ImpAsm.Proofs.Expr.Grammar
import ImpAsm.Stmt.Basic

namespace ImpAsm

/-- Items between commas; there may be none. -/
inductive CommaSeparated {α : Type} (R : List Lexeme → α → Prop) : List Lexeme → List α → Prop where
  | nil : CommaSeparated R [] []
  | one {ls : List Lexeme} {a : α} (h : R ls a) : CommaSeparated R ls [a]
  | cons {ls ms : List Lexeme} {a b : α} {as : List α} {t : Token} (h : R ls a)
      (ht : t.isSeparator ',') (hs : CommaSeparated R ms (b :: as)) :
      CommaSeparated R (ls ++ ⟨t, none⟩ :: ms) (a :: b :: as)

/-- A single token that is a name. -/
def IsName (ls : List Lexeme) (x : String) : Prop :=
  ∃ t : Token, ls = [⟨t, none⟩] ∧ t.kind = .ident ∧ x = t.text

/-- A single token that is the separator `c`. -/
def IsSeparator (c : Char) (ls : List Lexeme) : Prop :=
  ∃ t : Token, ls = [⟨t, none⟩] ∧ t.isSeparator c

/-- The operator that binds a value to a name. -/
def IsEquals (ls : List Lexeme) : Prop := ∃ l : Lexeme, ls = [l] ∧ l.operator? = some "="

/-- The parts of a program, each with what it stands for: a sequence of statements, a block, and
what follows the keyword of a statement. -/
inductive Phrase where
  | stmts (ss : List Stmt)
  | block (ss : List Stmt)
  | after (k : Keyword) (s : Stmt)

/-- The grammar of programs over a grammar `E` of expressions: `Spells E ls p` says that the
lexemes `ls` spell the part `p`. -/
inductive Spells (E : List Lexeme → Expr → Prop) : List Lexeme → Phrase → Prop where
  | nil : Spells E [] (.stmts [])
  | cons {k : Keyword} {t : Token} {s : Stmt} {ss : List Stmt} {ls ms : List Lexeme}
      (hk : t.isKeyword k) (h : Spells E ls (.after k s)) (hs : Spells E ms (.stmts ss)) :
      Spells E (⟨t, none⟩ :: (ls ++ ms)) (.stmts (s :: ss))
  | block {ss : List Stmt} {as ls bs : List Lexeme} (ha : IsSeparator '\x7b' as)
      (h : Spells E ls (.stmts ss)) (hb : IsSeparator '\x7d' bs) :
      Spells E (as ++ (ls ++ bs)) (.block ss)
  | exit {e : Expr} {as ls bs cs : List Lexeme} (ha : IsSeparator '(' as) (he : E ls e)
      (hb : IsSeparator ')' bs) (hc : IsSeparator ';' cs) :
      Spells E (as ++ (ls ++ (bs ++ cs))) (.after .exit (.exit e))
  | printText {t : Token} {as bs cs : List Lexeme} (ha : IsSeparator '(' as) (ht : t.kind = .str)
      (hb : IsSeparator ')' bs) (hc : IsSeparator ';' cs) :
      Spells E (as ++ (⟨t, none⟩ :: (bs ++ cs))) (.after .print (.printText t.text))
  | printValue {e : Expr} {as ls bs cs : List Lexeme} (ha : IsSeparator '(' as) (he : E ls e)
      (hb : IsSeparator ')' bs) (hc : IsSeparator ';' cs) :
      Spells E (as ++ (ls ++ (bs ++ cs))) (.after .print (.printValue e))
  | declare {x : String} {e : Expr} {xs as ls cs : List Lexeme} (hx : IsName xs x)
      (ha : IsEquals as) (he : E ls e) (hc : IsSeparator ';' cs) :
      Spells E (xs ++ (as ++ (ls ++ cs))) (.after .declare (.declare x e))
  | assign {x : String} {e : Expr} {xs as ls cs : List Lexeme} (hx : IsName xs x)
      (ha : IsEquals as) (he : E ls e) (hc : IsSeparator ';' cs) :
      Spells E (xs ++ (as ++ (ls ++ cs))) (.after .assign (.assign x e))
  | branch {e : Expr} {yes : List Stmt} {as ls bs ys : List Lexeme} (ha : IsSeparator '(' as)
      (he : E ls e) (hb : IsSeparator ')' bs) (hy : Spells E ys (.block yes)) :
      Spells E (as ++ (ls ++ (bs ++ ys))) (.after .branch (.branch e yes none))
  | branchElse {e : Expr} {yes no : List Stmt} {t : Token} {as ls bs ys ns : List Lexeme}
      (ha : IsSeparator '(' as) (he : E ls e) (hb : IsSeparator ')' bs)
      (hy : Spells E ys (.block yes)) (ht : t.isKeyword .otherwise)
      (hn : Spells E ns (.block no)) :
      Spells E (as ++ (ls ++ (bs ++ (ys ++ ⟨t, none⟩ :: ns))))
        (.after .branch (.branch e yes (some no)))
  | loop {e : Expr} {body : List Stmt} {as ls bs ys : List Lexeme} (ha : IsSeparator '(' as)
      (he : E ls e) (hb : IsSeparator ')' bs) (hy : Spells E ys (.block body)) :
      Spells E (as ++ (ls ++ (bs ++ ys))) (.after .loop (.loop e body))
  | call {f : String} {args : List Expr} {fs as ls bs cs : List Lexeme} (hf : IsName fs f)
      (ha : IsSeparator '(' as) (he : CommaSeparated E ls args) (hb : IsSeparator ')' bs)
      (hc : IsSeparator ';' cs) :
      Spells E (fs ++ (as ++ (ls ++ (bs ++ cs)))) (.after .call (.call f args))
  | processor {p : String} {params : List String} {body : List Stmt}
      {ps as ls bs ys : List Lexeme} (hp : IsName ps p) (ha : IsSeparator '(' as)
      (he : CommaSeparated IsName ls params) (hb : IsSeparator ')' bs)
      (hy : Spells E ys (.block body)) :
      Spells E (ps ++ (as ++ (ls ++ (bs ++ ys)))) (.after .processor (.processor p params body))

mutual

/-- How deep the blocks of a statement nest. -/
def Stmt.blockDepth : Stmt → Nat
  | .branch _ yes no => max (blockDepth yes + 1) (blockDepthElse no)
  | .loop _ body => blockDepth body + 1
  | .processor _ _ body => blockDepth body + 1
  | .exit _ | .printText _ | .printValue _ | .declare _ _ | .assign _ _ | .call _ _ => 0

def blockDepth : List Stmt → Nat
  | [] => 0
  | s :: ss => max s.blockDepth (blockDepth ss)

def blockDepthElse : Option (List Stmt) → Nat
  | none => 0
  | some ss => blockDepth ss + 1

end

/-- The programs that are read: those of the grammar within the limits on nesting and height. -/
def IsProgram (ts : List Token) (p : Program) : Prop :=
  Spells Readable (lexemes ts) (.stmts p) ∧ blockDepth p ≤ nestingLimit

end ImpAsm

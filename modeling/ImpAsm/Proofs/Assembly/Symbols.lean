import ImpAsm.Proofs.Compilation.Correctness
import ImpAsm.Proofs.Stmt.Symbols

namespace ImpAsm

/-- What a symbol of a program in assembly stands for. -/
inductive SymbolKind where
  | start | external | code | message | variable
deriving DecidableEq

structure Symbol where
  kind : SymbolKind
  name : String
deriving DecidableEq

/-- The kind of a label: what stands behind it tells data from code. -/
def SymbolKind.ofLabel (name : String) : List String → SymbolKind
  | "db" :: _ => .message
  | "dd" :: _ => .variable
  | _ => if name = "_start" then .start else .code

/-- The symbols that a line declares or defines, given by its words. -/
def definedBy : List String → List Symbol
  | [] => []
  | w :: ws =>
    if w = "extern" then ws.map (⟨.external, ·⟩)
    else ((labelName? [w]).map fun name => ⟨.ofLabel name ws, name⟩).toList

/-- The symbols that a line of code refers to: by a jump, by a call, or as an operand in
brackets. -/
def referredBy : List String → List Symbol
  | [] => []
  | op :: ws =>
    if op.toList.head? = some 'j' then ws.map (⟨.code, ·⟩)
    else if op = "call" then ws.map (⟨.external, ·⟩)
    else ws.filterMap fun w => (Instr.inBrackets? w.toList).map fun name =>
      ⟨if op = "lea" then .message else .variable, String.ofList name⟩

/-- The symbols that a text in assembly declares or defines, in the order of its lines. -/
def definedSymbols (asm : String) : List Symbol :=
  (asm.toList.splitOnP (· == '\n')).flatMap fun line => definedBy (lineWords line)

/-- The symbols that the text section refers to. -/
def referredSymbols (asm : String) : List Symbol :=
  ((asm.toList.splitOnP (· == '\n')).takeWhile (!startsData ·)).flatMap fun line =>
    referredBy (lineWords line)

/-- The symbol that an instruction refers to. -/
def Instr.symbol? : Instr → Option Symbol
  | load _ x | store x _ => some ⟨.variable, variableLabel x⟩
  | address _ id => some ⟨.message, messageLabel id⟩
  | jump l | jumpEqual l => some ⟨.code, l.text⟩
  | call f => some ⟨.external, f⟩
  | _ => none

theorem Instr.symbol?_of_isLocal {i : Instr} (h : i.isLocal) : i.symbol? = none := by
  cases i <;> first | rfl | simp [isLocal] at h

namespace Instr

theorem inBrackets?_eq_none {cs : List Char} (h : '[' ∉ cs) : inBrackets? cs = none := by
  unfold inBrackets?
  split
  · simp at h
  · rfl

theorem inBrackets?_word (r : Reg) : inBrackets? r.word.toList = none := by cases r <;> decide

theorem inBrackets?_quad (r : Reg) : inBrackets? r.quad.toList = none := by cases r <;> decide

theorem inBrackets?_byte (r : Reg) : inBrackets? r.byte.toList = none := by cases r <;> decide

theorem inBrackets?_natural (n : Nat) : inBrackets? (toString n).toList = none := by
  apply inBrackets?_eq_none
  intro hmem
  have hdigit := isDigit_of_mem_repr (n := n) hmem
  simp at hdigit

theorem inBrackets?_integer (n : Int) : inBrackets? (toString n).toList = none := by
  cases n with
  | ofNat n => exact inBrackets?_natural n
  | negSucc n =>
    apply inBrackets?_eq_none
    change '[' ∉ ("-" ++ (n + 1).repr).toList
    simp only [String.toList_append, List.mem_append, not_or]
    refine ⟨by decide, ?_⟩
    intro hmem
    have hdigit := isDigit_of_mem_repr hmem
    simp at hdigit

theorem inBrackets?_isWord {w : String} (h : IsWord w) : inBrackets? w.toList = none := by
  apply inBrackets?_eq_none
  intro hmem
  have halpha := List.all_eq_true.mp h.2 _ hmem
  simp at halpha

attribute [local simp] inBrackets?_word inBrackets?_quad inBrackets?_byte inBrackets?_memoryText

/-- The symbol of an instruction is found in its words. -/
theorem referredBy_words (i : Instr) : referredBy i.words = i.symbol?.toList := by
  cases i with
  | const dst value => simpa [words, referredBy, symbol?] using inBrackets?_integer value
  | arith op dst src => cases op <;> simp [words, referredBy, symbol?, Arith.mnemonic]
  | set cond dst => cases cond <;> simp [words, referredBy, symbol?, Cond.suffix]
  | bytes op dst src => cases op <;> simp [words, referredBy, symbol?, ByteOp.mnemonic]
  | cmpZero left =>
    have hzero : inBrackets? ['0'] = none := by decide
    simp [words, referredBy, symbol?, hzero]
  | release size =>
    have hstack : inBrackets? ['r', 's', 'p'] = none := by decide
    simpa [words, referredBy, symbol?, hstack] using inBrackets?_natural size
  | _ => simp [words, referredBy, symbol?]

/-- An instruction defines nothing. -/
theorem definedBy_words {i : Instr} (hi : i.Plain) : definedBy i.words = [] := by
  obtain ⟨op, ws, hwords, hop⟩ := i.head_words
  have hplain := isPlain_words hi op (by simp [hwords])
  have hlast : op.toList.getLast? ≠ some ':' := by
    intro hlast
    exact hplain.not_mem (by decide) (List.mem_of_getLast? hlast)
  have hne : op ≠ "extern" := by
    rintro rfl
    exact hop (by decide)
  rw [hwords, definedBy, if_neg hne, labelName?, if_neg hlast]
  rfl

end Instr

theorem definedBy_label (name : String) (ws : List String) :
    definedBy ((name ++ ":") :: ws) = [⟨.ofLabel name ws, name⟩] := by
  have hne : name ++ ":" ≠ "extern" := by
    intro h
    exact label_not_directive name (by simp [h, directives])
  simp [definedBy, hne, labelName?]

def Line.symbols : Line → List Symbol
  | instr i | noted i _ => i.symbol?.toList
  | label _ | remark _ | heading _ | blank => []

/-- The symbols that lines of code refer to. -/
def lineSymbols (lines : List Line) : List Symbol := lines.flatMap Line.symbols

@[simp] theorem lineSymbols_nil : lineSymbols [] = [] := rfl

@[simp] theorem lineSymbols_cons (l : Line) (ls : List Line) :
    lineSymbols (l :: ls) = l.symbols ++ lineSymbols ls := rfl

@[simp] theorem lineSymbols_append (ls ms : List Line) :
    lineSymbols (ls ++ ms) = lineSymbols ls ++ lineSymbols ms := List.flatMap_append

theorem Label.text_ne_start (l : Label) : l.text ≠ "_start" := by
  obtain ⟨role, n⟩ := l
  intro h
  have hchars := congrArg String.toList h
  cases role <;> simp [Label.text, LabelRole.stem] at hchars

theorem Line.referredBy_words (l : Line) : referredBy l.words = l.symbols := by
  cases l with
  | instr i | noted i _ => exact i.referredBy_words
  | label l => simp [Line.words, referredBy, Line.symbols]
  | remark _ | heading _ | blank => rfl

theorem Line.definedBy_words {l : Line} (hl : l.Plain) :
    definedBy l.words = l.label?.toList.map fun l => ⟨.code, l.text⟩ := by
  cases l with
  | instr i => exact Instr.definedBy_words hl
  | noted i _ => exact Instr.definedBy_words hl.1
  | label l =>
    rw [Line.words, definedBy_label]
    simp [SymbolKind.ofLabel, l.text_ne_start, Line.label?]
  | remark _ | heading _ | blank => rfl

/-- The symbols of a program in assembly. -/
def Assembly.symbols (a : Assembly) : List Symbol :=
  a.externals.map (⟨.external, ·⟩) ++ ⟨.start, "_start"⟩ ::
    ((lineLabels a.code).map (fun l => ⟨.code, l.text⟩) ++
      ((List.range a.messages.size).map (⟨.message, messageLabel ·⟩) ++
        a.vars.names.map (⟨.variable, variableLabel ·⟩)))

/-- A word and a blank at the start of a line. -/
theorem lineWords_word {w : String} (hw : w.toList ≠ [])
    (hchars : ∀ c ∈ w.toList, c ≠ ';' ∧ Instr.isGap c = false) (cs : List Char) :
    lineWords (w.toList ++ ' ' :: cs) = w :: lineWords cs := by
  have hno : ';' ∉ w.toList ++ [' '] := by
    simp only [List.mem_append, List.mem_singleton, not_or]
    exact ⟨fun hmem => (hchars ';' hmem).1 rfl, by decide⟩
  have htake : (w.toList ++ ' ' :: cs).takeWhile (· ≠ ';') =
      w.toList ++ ' ' :: cs.takeWhile (· ≠ ';') := by
    have happend := (takeWhile_ne hno cs).1
    simpa using happend
  have hspace : Instr.isGap ' ' := rfl
  have hfields : fields Instr.isGap w.toList = [w.toList] :=
    fields_of_forall hw fun c hc => (hchars c hc).2
  rw [lineWords, htake, fields_append hspace, hfields]
  simp [lineWords]

/-- The symbol of a line of the data section. -/
theorem definedBy_data {name directive : String} (hname : IsPlain name)
    (hdirective : IsPlain directive) (cs : List Char) :
    ∃ ws, definedBy (lineWords (name.toList ++ ':' :: ' ' :: (directive.toList ++ ' ' :: cs))) =
      [⟨.ofLabel name (directive :: ws), name⟩] := by
  have hplain {w : String} (hw : IsPlain w) : ∀ c ∈ w.toList, c ≠ ';' ∧ Instr.isGap c = false := by
    intro c hc
    have hc' := List.all_eq_true.mp hw.2 c hc
    refine ⟨?_, Instr.isGap_of_isPlain hc'⟩
    rintro rfl
    exact absurd hc' (by decide)
  have hlabel : ∀ c ∈ (name ++ ":").toList, c ≠ ';' ∧ Instr.isGap c = false := by
    intro c hc
    rcases List.mem_append.mp (String.toList_append ▸ hc) with hc | hc
    · exact hplain hname c hc
    · obtain rfl : c = ':' := by simpa using hc
      decide
  have htext : name.toList ++ ':' :: ' ' :: (directive.toList ++ ' ' :: cs) =
      (name ++ ":").toList ++ ' ' :: (directive.toList ++ ' ' :: cs) := by simp
  refine ⟨lineWords cs, ?_⟩
  rw [htext, lineWords_word (by simp) hlabel, lineWords_word hdirective.1 (hplain hdirective),
    definedBy_label]

namespace Assembly

variable {a : Assembly}

theorem definedBy_message (id : Nat) (s : String) :
    definedBy (lineWords (messageLabel id ++ ": db " ++ byteStringText s).toList) =
      [⟨.message, messageLabel id⟩] := by
  obtain ⟨ws, hws⟩ := definedBy_data (IsPlain.messageLabel id) (show IsPlain "db" by decide)
    (byteStringText s).toList
  have htext : (messageLabel id ++ ": db " ++ byteStringText s).toList = (messageLabel id).toList ++
      ':' :: ' ' :: ("db".toList ++ ' ' :: (byteStringText s).toList) := by simp
  rw [htext, hws]
  rfl

theorem definedBy_slot {x : String} (hx : IsWord x) (w : Int32) :
    definedBy (lineWords (variableLabel x ++ ": dd " ++ wordText w).toList) =
      [⟨.variable, variableLabel x⟩] := by
  obtain ⟨ws, hws⟩ := definedBy_data (IsPlain.variableLabel hx) (show IsPlain "dd" by decide)
    (wordText w).toList
  have htext : (variableLabel x ++ ": dd " ++ wordText w).toList = (variableLabel x).toList ++
      ':' :: ' ' :: ("dd".toList ++ ' ' :: (wordText w).toList) := by simp
  rw [htext, hws]
  rfl

theorem definedBy_headings (h : a.Plain) :
    a.headings.flatMap (fun v => definedBy (lineWords (v.1 ++ " " ++ v.2).toList)) =
      a.externals.map (⟨.external, ·⟩) := by
  have hwords : ∀ v ∈ a.headings, definedBy (lineWords (v.1 ++ " " ++ v.2).toList) =
      definedBy [v.1, v.2] := by
    intro v hv
    obtain ⟨hv1, hv2, _⟩ := plain_headings h v hv
    rw [lineWords_two hv1 hv2]
  rw [List.flatMap_congr hwords, headings, List.flatMap_append, List.flatMap_map]
  simp [definedBy, labelName?, List.map_eq_flatMap]

theorem referredBy_headings (h : a.Plain) :
    ∀ v ∈ a.headings, referredBy (lineWords (v.1 ++ " " ++ v.2).toList) = [] := by
  intro v hv
  obtain ⟨hv1, hv2, _⟩ := plain_headings h v hv
  rw [lineWords_two hv1 hv2]
  rcases List.mem_append.mp hv with hv | hv
  · simp only [List.mem_cons, List.not_mem_nil, or_false] at hv
    rcases hv with rfl | rfl | rfl <;> decide
  · obtain ⟨f, hf, rfl⟩ := List.mem_map.mp hv
    simp [referredBy, Instr.inBrackets?_isWord (h.externals f hf)]

theorem definedBy_code {lines : List Line} (h : ∀ l ∈ lines, l.Plain) :
    (lines.flatMap fun l => definedBy (lineWords l.text.toList)) =
      (lineLabels lines).map fun l => ⟨.code, l.text⟩ := by
  induction lines with
  | nil => rfl
  | cons l ls ih =>
    obtain ⟨hl, hls⟩ := List.forall_mem_cons.mp h
    rw [List.flatMap_cons, ih hls, lineWords_text hl, Line.definedBy_words hl, lineLabels_cons,
      List.map_append]

theorem referredBy_code {lines : List Line} (h : ∀ l ∈ lines, l.Plain) :
    (lines.flatMap fun l => referredBy (lineWords l.text.toList)) = lineSymbols lines := by
  apply List.flatMap_congr
  intro l hl
  rw [lineWords_text (h l hl), Line.referredBy_words]

/-- The symbols of a program are found in its text. -/
theorem definedSymbols_text (h : a.Plain) : definedSymbols a.text = a.symbols := by
  have hmessages : (a.messages.texts.zipIdx.flatMap fun m =>
      definedBy (lineWords (messageLabel m.2 ++ ": db " ++ byteStringText m.1).toList)) =
        (List.range a.messages.size).map (⟨.message, messageLabel ·⟩) := by
    simp only [definedBy_message, ← List.map_eq_flatMap]
    rw [Messages.size, List.range_eq_range', ← List.zipIdx_map_snd, List.map_map]
    rfl
  have hslots : (a.vars.slots.flatMap fun v =>
      definedBy (lineWords (variableLabel v.1 ++ ": dd " ++ wordText v.2).toList)) =
        a.vars.names.map (⟨.variable, variableLabel ·⟩) := by
    have hslot : ∀ v ∈ a.vars.slots,
        definedBy (lineWords (variableLabel v.1 ++ ": dd " ++ wordText v.2).toList) =
          [⟨.variable, variableLabel v.1⟩] := fun v hv => definedBy_slot (h.vars v hv) v.2
    rw [List.flatMap_congr hslot, ← List.map_eq_flatMap, Variables.names, List.map_map]
    rfl
  have hstart : definedBy (lineWords ("_start" ++ ":").toList) = [⟨.start, "_start"⟩] := by
    rw [lineWords_label (by decide), definedBy_label]
    rfl
  have hsection : definedBy (lineWords "section .data".toList) = [] := by
    have hwords : lineWords ("section" ++ " " ++ ".data").toList = ["section", ".data"] :=
      lineWords_two (by decide) (by decide)
    exact congrArg definedBy hwords
  have hempty : definedBy (lineWords "".toList) = [] := rfl
  have hlast : definedBy (lineWords []) = [] := rfl
  rw [definedSymbols, splitOnP_text h]
  simp only [codeLines, dataLines, List.map_append, List.map_cons, List.map_map,
    List.flatMap_append, List.flatMap_cons, List.flatMap_map, Function.comp_def]
  rw [definedBy_headings h, definedBy_code h.code, hmessages, hslots, hstart, hsection, hempty,
    hlast]
  simp [symbols]

theorem referredSymbols_text (h : a.Plain) : referredSymbols a.text = lineSymbols a.code := by
  have hstart : referredBy (lineWords ("_start" ++ ":").toList) = [] := by
    rw [lineWords_label (by decide)]
    rfl
  have hempty : referredBy (lineWords "".toList) = [] := rfl
  rw [referredSymbols, (splitOnP_startsData h).1]
  simp only [codeLines, List.map_append, List.map_cons, List.map_map, List.flatMap_append,
    List.flatMap_cons, List.flatMap_map, Function.comp_def]
  rw [List.flatMap_congr (referredBy_headings h), referredBy_code h.code, hstart, hempty]
  simp

end Assembly

/-- The kind of a symbol can be told from its name: only the names of functions lack an underscore,
and the other kinds start with different letters. -/
def SymbolKind.ofName (name : List Char) : SymbolKind :=
  if '_' ∈ name then
    match name.head? with
    | some '_' => .start
    | some 'm' => .message
    | some 'v' => .variable
    | _ => .code
  else .external

theorem SymbolKind.ofName_isWord {f : String} (h : IsWord f) : ofName f.toList = .external := by
  have hno : '_' ∉ f.toList := by
    intro hmem
    have halpha := List.all_eq_true.mp h.2 _ hmem
    simp at halpha
  rw [ofName, if_neg hno]

theorem SymbolKind.ofName_label (l : Label) : ofName l.text.toList = .code := by
  obtain ⟨role, n⟩ := l
  cases role <;> simp [ofName, Label.text, LabelRole.stem]

theorem messageLabel_injective {m n : Nat} (h : messageLabel m = messageLabel n) : m = n := by
  have hread := Instr.messageOperand?_memoryText m
  rw [h, Instr.messageOperand?_memoryText] at hread
  exact (Option.some.inj hread).symm

theorem variableLabel_injective {x y : String} (h : variableLabel x = variableLabel y) : x = y := by
  have hread := Instr.variableOperand?_memoryText x
  rw [h, Instr.variableOperand?_memoryText] at hread
  exact (Option.some.inj hread).symm

namespace Assembly

variable {a : Assembly}

theorem mem_symbols {d : Symbol} : d ∈ a.symbols ↔
    (∃ f ∈ a.externals, d = ⟨.external, f⟩) ∨ d = ⟨.start, "_start"⟩ ∨
      (∃ l ∈ lineLabels a.code, d = ⟨.code, l.text⟩) ∨
      (∃ id < a.messages.size, d = ⟨.message, messageLabel id⟩) ∨
      ∃ x ∈ a.vars.names, d = ⟨.variable, variableLabel x⟩ := by
  simp [symbols, eq_comm]

theorem ofName_symbols (h : a.Plain) :
    ∀ d ∈ a.symbols, SymbolKind.ofName d.name.toList = d.kind := by
  intro d hd
  rcases mem_symbols.mp hd with ⟨f, hf, rfl⟩ | rfl | ⟨l, _, rfl⟩ | ⟨id, _, rfl⟩ | ⟨x, _, rfl⟩
  · exact SymbolKind.ofName_isWord (h.externals f hf)
  · decide
  · exact SymbolKind.ofName_label l
  · simp [SymbolKind.ofName, messageLabel]
  · simp [SymbolKind.ofName, variableLabel]

theorem nodup_symbols (hexternals : a.externals.Nodup) (hlabels : (lineLabels a.code).Nodup)
    (hvars : a.vars.names.Nodup) : a.symbols.Nodup := by
  have hmap {α : Type} {f : α → Symbol} {xs : List α} (hf : ∀ x y, f x = f y → x = y)
      (hxs : xs.Nodup) : (xs.map f).Nodup :=
    List.Pairwise.map f (fun x y hne h => hne (hf x y h)) hxs
  have h1 := hmap (f := (⟨.external, ·⟩)) (by simp) hexternals
  have h2 := hmap (f := fun l : Label => ⟨.code, l.text⟩)
    (fun _ _ heq => Label.text_injective (congrArg Symbol.name heq)) hlabels
  have h3 := hmap (f := fun id => ⟨.message, messageLabel id⟩)
    (fun _ _ heq => messageLabel_injective (congrArg Symbol.name heq))
      (List.nodup_range (n := a.messages.size))
  have h4 := hmap (f := fun x => ⟨.variable, variableLabel x⟩)
    (fun _ _ heq => variableLabel_injective (congrArg Symbol.name heq)) hvars
  simp only [symbols, List.nodup_append, List.nodup_cons]
  refine ⟨h1, ⟨?_, h2, ⟨h3, h4, ?_⟩, ?_⟩, ?_⟩
  -- What is left compares symbols of different kinds.
  all_goals grind

/-- No name is defined twice. -/
theorem nodup_symbolNames (h : a.Plain) (hsymbols : a.symbols.Nodup) :
    (a.symbols.map Symbol.name).Nodup := by
  refine List.pairwise_map.mpr (hsymbols.imp_of_mem ?_)
  intro d e hd he hne hname
  apply hne
  have hkind : d.kind = e.kind := by
    rw [← ofName_symbols h d hd, ← ofName_symbols h e he, hname]
  cases d
  cases e
  simp_all

end Assembly

section References

variable {table : List Symbol} {vars : List String}

theorem lineSymbols_instrs (is : List Instr) :
    lineSymbols (is.map .instr) = is.flatMap fun i => i.symbol?.toList := by
  rw [lineSymbols, List.flatMap_map]
  rfl

/-- An expression refers to the variables that it uses. -/
theorem lineSymbols_expr {e : Expr} (hvars : ∀ x ∈ vars, ⟨.variable, variableLabel x⟩ ∈ table)
    (he : ∀ x ∈ e.names, x ∈ vars) : lineSymbols (e.code.map .instr) ⊆ table := by
  intro d hd
  rw [lineSymbols_instrs, List.mem_flatMap] at hd
  obtain ⟨i, hi, hd⟩ := hd
  rcases mem_code i hi with hlocal | ⟨x, hx, rfl⟩
  · simp [Instr.symbol?_of_isLocal hlocal] at hd
  · obtain rfl := List.mem_singleton.mp hd
    exact hvars x (he x hx)

theorem lineSymbols_call {f : String} {args : List Expr}
    (hvars : ∀ x ∈ vars, ⟨.variable, variableLabel x⟩ ∈ table) (hf : ⟨.external, f⟩ ∈ table)
    (hargs : ∀ e ∈ args, ∀ x ∈ e.names, x ∈ vars) :
    lineSymbols ((callCode f args).map .instr) ⊆ table := by
  intro d hd
  rw [lineSymbols_instrs, List.mem_flatMap] at hd
  obtain ⟨i, hi, hd⟩ := hd
  rcases mem_callCode i hi with hlocal | ⟨x, hx, rfl⟩ | rfl
  · simp [Instr.symbol?_of_isLocal hlocal] at hd
  · obtain rfl := List.mem_singleton.mp hd
    obtain ⟨e, he, hx⟩ := List.mem_flatMap.mp hx
    exact hvars x (hargs e he x hx)
  · obtain rfl := List.mem_singleton.mp hd
    exact hf

variable {messages : Messages}

mutual

/-- A statement refers to its own labels, and to symbols of a table that has its variables, its
texts and the functions that it calls. -/
theorem Stmt.lineSymbols_code (hvars : ∀ x ∈ vars, ⟨.variable, variableLabel x⟩ ∈ table)
    (htexts : ∀ t ∈ messages.texts, ⟨.message, messageLabel (messages.idOf t)⟩ ∈ table) :
    ∀ (used : Nat) (s : Symbols) (st : Stmt), st.Covered vars messages.texts →
      (∀ f ∈ (st.collect s).externals, ⟨.external, f⟩ ∈ table) →
      (∀ l ∈ lineLabels (st.code messages used), ⟨.code, l.text⟩ ∈ table) →
      lineSymbols (st.code messages used) ⊆ table
  | used, s, .exit e, hcovered, _, _ => by
    have he := lineSymbols_expr hvars hcovered
    simpa [Stmt.code, Line.symbols, Instr.symbol?] using he
  | used, s, .printText text, hcovered, _, _ => by
    have htext := htexts text hcovered
    simpa [Stmt.code, printCode, Line.symbols, Instr.symbol?] using htext
  | used, s, .printValue e, hcovered, _, _ => by
    have he := lineSymbols_expr hvars hcovered
    simpa [Stmt.code, Line.symbols] using he
  | used, s, .declare x e, hcovered, _, _ | used, s, .assign x e, hcovered, _, _ => by
    have he := lineSymbols_expr hvars hcovered.2
    have hx := hvars x hcovered.1
    simpa [Stmt.code, Line.symbols, Instr.symbol?] using ⟨he, hx⟩
  | used, s, .branch e yes no, hcovered, hexternals, hlabels => by
    have he := lineSymbols_expr hvars hcovered.1
    have hgrows := (grows_collectElse (collectAll s yes) no).subset
    have hyes := lineSymbols_blockCode hvars htexts (used + 2) s yes hcovered.2.1
      (fun f hf => hexternals f (hgrows hf))
      (fun l hl => hlabels l (by simp [Stmt.code, hl]))
    have hno := lineSymbols_elseCode hvars htexts (used + 2 + labelCount yes) (collectAll s yes) no
      hcovered.2.2 hexternals (fun l hl => hlabels l (by simp [Stmt.code, hl]))
    have hotherwise := hlabels ⟨.otherwise, used + 1⟩ (by simp [Stmt.code, Line.label?])
    have hdone := hlabels ⟨.done, used + 2⟩ (by simp [Stmt.code, Line.label?])
    simpa [Stmt.code, Line.symbols, Instr.symbol?] using ⟨he, hotherwise, hyes, hdone, hno⟩
  | used, s, .loop e body, hcovered, hexternals, hlabels => by
    have he := lineSymbols_expr hvars hcovered.1
    have hbody := lineSymbols_blockCode hvars htexts (used + 2) s body hcovered.2 hexternals
      (fun l hl => hlabels l (by simp [Stmt.code, hl]))
    have hagain := hlabels ⟨.loop, used + 1⟩ (by simp [Stmt.code, Line.label?])
    have hdone := hlabels ⟨.done, used + 2⟩ (by simp [Stmt.code, Line.label?])
    simpa [Stmt.code, Line.symbols, Instr.symbol?] using ⟨he, hdone, hbody, hagain⟩
  | used, s, .call f args, hcovered, hexternals, _ =>
    lineSymbols_call hvars (hexternals f (s.mem_addExternal f)) hcovered
  | used, s, .processor p params body, _, _, _ => by simp [Stmt.code]

theorem lineSymbols_blockCode (hvars : ∀ x ∈ vars, ⟨.variable, variableLabel x⟩ ∈ table)
    (htexts : ∀ t ∈ messages.texts, ⟨.message, messageLabel (messages.idOf t)⟩ ∈ table) :
    ∀ (used : Nat) (s : Symbols) (ss : List Stmt), Covered vars messages.texts ss →
      (∀ f ∈ (collectAll s ss).externals, ⟨.external, f⟩ ∈ table) →
      (∀ l ∈ lineLabels (blockCode messages used ss), ⟨.code, l.text⟩ ∈ table) →
      lineSymbols (blockCode messages used ss) ⊆ table
  | used, s, [], _, _, _ => by simp [blockCode]
  | used, s, st :: ss, hcovered, hexternals, hlabels => by
    have hgrows := (grows_collectAll (st.collect s) ss).subset
    have hst := Stmt.lineSymbols_code hvars htexts used s st hcovered.1
      (fun f hf => hexternals f (hgrows hf)) (fun l hl => hlabels l (by simp [blockCode, hl]))
    have hss :=
      lineSymbols_blockCode hvars htexts (used + st.labelCount) (st.collect s) ss hcovered.2
      hexternals (fun l hl => hlabels l (by simp [blockCode, hl]))
    rw [blockCode, lineSymbols_append]
    exact List.append_subset.mpr ⟨hst, hss⟩

theorem lineSymbols_elseCode (hvars : ∀ x ∈ vars, ⟨.variable, variableLabel x⟩ ∈ table)
    (htexts : ∀ t ∈ messages.texts, ⟨.message, messageLabel (messages.idOf t)⟩ ∈ table) :
    ∀ (used : Nat) (s : Symbols) (no : Option (List Stmt)), CoveredElse vars messages.texts no →
      (∀ f ∈ (collectElse s no).externals, ⟨.external, f⟩ ∈ table) →
      (∀ l ∈ lineLabels (elseCode messages used no), ⟨.code, l.text⟩ ∈ table) →
      lineSymbols (elseCode messages used no) ⊆ table
  | used, s, none, _, _, _ => by simp [elseCode]
  | used, s, some ss, hcovered, hexternals, hlabels =>
    lineSymbols_blockCode hvars htexts used s ss hcovered hexternals hlabels

end

end References

theorem lineLabels_programCode (messages : Messages) (p : Program) :
    lineLabels (Program.code messages p) = lineLabels (blockCode messages 0 p) := by
  simp [Program.code, programEnd, Line.label?]

/-- Generated code refers to nothing that is not defined. -/
theorem lineSymbols_generate {p : Program} {a : Assembly} (h : (generate p).assembly = .ok a) :
    lineSymbols a.code ⊆ a.symbols := by
  obtain ⟨hexternals, hvars, hcode, hcovered⟩ := generate_eq_ok h
  have hend : lineSymbols programEnd = [] := rfl
  rw [hcode, Program.code, lineSymbols_append, hend, List.append_nil]
  refine lineSymbols_blockCode ?_ ?_ 0 ⟨.empty, []⟩ p hcovered ?_ ?_
  · intro x hx
    have hname : x ∈ a.vars.names := hvars ▸ mem_names_of_mem_vars hx
    exact Assembly.mem_symbols.mpr (.inr (.inr (.inr (.inr ⟨x, hname, rfl⟩))))
  · intro t ht
    have hid : a.messages.idOf t < a.messages.size := List.idxOf_lt_length_iff.mpr ht
    exact Assembly.mem_symbols.mpr (.inr (.inr (.inr (.inl ⟨_, hid, rfl⟩))))
  · intro f hf
    have hexternal : f ∈ a.externals := hexternals ▸ hf
    exact Assembly.mem_symbols.mpr (.inl ⟨f, hexternal, rfl⟩)
  · intro l hl
    have hlabel : l ∈ lineLabels a.code := by rwa [hcode, lineLabels_programCode]
    exact Assembly.mem_symbols.mpr (.inr (.inr (.inl ⟨l, hlabel, rfl⟩)))

/-- In the text of a compiled program no name is defined twice, everything that the code refers to
is defined as what it is used for, and the labels of the code have the numbers from 1 on, two for
each branch and each loop. -/
theorem compile_symbols {s asm : String} (h : compile s = .ok asm) :
    ∃ (ts : List Token) (p : Program) (externals : List String) (labels : List Label) (count : Nat)
      (vars : List String), tokenize s = .ok ts ∧ parse ts = .ok p ∧
      definedSymbols asm = externals.map (⟨.external, ·⟩) ++ ⟨.start, "_start"⟩ ::
        (labels.map (fun l => ⟨.code, l.text⟩) ++
          ((List.range count).map (⟨.message, messageLabel ·⟩) ++
            vars.map (⟨.variable, variableLabel ·⟩))) ∧
      ((definedSymbols asm).map Symbol.name).Nodup ∧
      referredSymbols asm ⊆ definedSymbols asm ∧
      (labels.map Label.number).Perm (List.range' 1 (2 * forkCount p)) := by
  obtain ⟨ts, p, a, hts, hp, ha, rfl⟩ := compile_eq_ok.mp h
  have hplain := plain_generate ha (isWord_names hts hp)
  obtain ⟨hexternals, hvars, hcode, _⟩ := generate_eq_ok ha
  have hlabels : lineLabels a.code = lineLabels (blockCode a.messages 0 p) := by
    rw [hcode, lineLabels_programCode]
  have hnodup : a.symbols.Nodup := by
    apply Assembly.nodup_symbols
    · rw [hexternals]
      exact nodup_externals p
    · rw [hlabels]
      exact (numbered_blockCode a.messages 0 p).nodup
    · rw [hvars]
      exact nodup_names p
  refine ⟨ts, p, a.externals, lineLabels a.code, a.messages.size, a.vars.names, hts, hp,
    Assembly.definedSymbols_text hplain, ?_, ?_, ?_⟩
  · rw [Assembly.definedSymbols_text hplain]
    exact Assembly.nodup_symbolNames hplain hnodup
  · rw [Assembly.definedSymbols_text hplain, Assembly.referredSymbols_text hplain]
    exact lineSymbols_generate ha
  · rw [hlabels, ← labelCount_eq]
    exact takesNumbers_blockCode a.messages 0 p

/-- A branch in a loop, and a processor with a branch and a call that are nowhere else. -/
def branchInLoop : String :=
  "let n = 2; while (n) \x7b if (n) \x7b print(\"a:\"); \x7d else \x7b call f(n); \x7d \x7d " ++
    "processor q() \x7b if (n) \x7b call g(); \x7d \x7d"

def branchInLoopProgram : Program :=
  [.declare "n" (.num 2),
    .loop (.ident "n") [.branch (.ident "n") [.printText "a:"] (some [.call "f" [.ident "n"]])],
    .processor "q" [] [.branch (.ident "n") [.call "g" []] none]]

theorem symbols_branchInLoop :
    ∃ (asm : String) (labels : List Label), compile branchInLoop = .ok asm ∧
      ((definedSymbols asm).map Symbol.name).Nodup ∧ referredSymbols asm ⊆ definedSymbols asm ∧
      (∀ l ∈ labels, ⟨.code, l.text⟩ ∈ definedSymbols asm) ∧
      (labels.map Label.number).Perm [1, 2, 3, 4] := by
  obtain ⟨ts, hts, hp⟩ :
      ∃ ts, tokenize branchInLoop = .ok ts ∧ parse ts = .ok branchInLoopProgram :=
        ⟨_, by cbv, by cbv⟩
  obtain ⟨a, ha⟩ : ∃ a, (generate branchInLoopProgram).assembly = .ok a := ⟨_, rfl⟩
  have hasm := compile_eq_ok.mpr ⟨ts, branchInLoopProgram, a, hts, hp, ha, rfl⟩
  obtain ⟨ts', p, externals, labels, count, vars, hts', hp', hdefined, hnodup, hreferred,
      hnumbers⟩ :=
    compile_symbols hasm
  obtain rfl : ts = ts' := by simpa [hts] using hts'
  obtain rfl : branchInLoopProgram = p := by simpa [hp] using hp'
  refine ⟨a.text, labels, hasm, hnodup, hreferred, ?_, hnumbers⟩
  intro l hl
  rw [hdefined]
  apply List.mem_append_right
  apply List.mem_cons_of_mem
  apply List.mem_append_left
  exact List.mem_map_of_mem hl

end ImpAsm

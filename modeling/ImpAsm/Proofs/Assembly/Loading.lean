import ImpAsm.Proofs.Assembly.Bytes
import ImpAsm.Proofs.Assembly.Lines

namespace ImpAsm

/-- What a line of the data section defines. -/
inductive Datum where
  | message (id : Nat) (bytes : List UInt8)
  | slot (x : String) (w : Int32)

namespace Datum

def message? : Datum → Option (Nat × List UInt8)
  | message id bytes => some (id, bytes)
  | slot _ _ => none

def slot? : Datum → Option (String × Int32)
  | message _ _ => none
  | slot x w => some (x, w)

theorem filterMap_message? (ms : List (Nat × List UInt8)) (vs : List (String × Int32)) :
    (ms.map (fun m => message m.1 m.2) ++ vs.map fun v => slot v.1 v.2).filterMap message? =
      ms := by
  have hms : message? ∘ (fun m : Nat × List UInt8 => message m.1 m.2) = some := rfl
  have hvs : message? ∘ (fun v : String × Int32 => slot v.1 v.2) = fun _ => none := rfl
  rw [List.filterMap_append, List.filterMap_map, List.filterMap_map, hms, hvs]
  simp

theorem filterMap_slot? (ms : List (Nat × List UInt8)) (vs : List (String × Int32)) :
    (ms.map (fun m => message m.1 m.2) ++ vs.map fun v => slot v.1 v.2).filterMap slot? = vs := by
  have hms : slot? ∘ (fun m : Nat × List UInt8 => message m.1 m.2) = fun _ => none := rfl
  have hvs : slot? ∘ (fun v : String × Int32 => slot v.1 v.2) = some := rfl
  rw [List.filterMap_append, List.filterMap_map, List.filterMap_map, hms, hvs]
  simp

/-- The symbol tells what is defined. -/
def ofParts? (label operands : List Char) : Option Datum :=
  match afterStart? "msg_".toList label, afterStart? "var_".toList label with
  | some ds, _ => do
    let id ← readDigits? ds
    let bytes ← (afterStart? ": db ".toList operands).bind (readBytes? .between)
    return message id bytes
  | none, some x => do
    let w ← (afterStart? ": dd ".toList operands).bind readWord?
    return slot (String.ofList x) w
  | none, none => none

/-- Reads a line of the data section. -/
def ofLine? (line : List Char) : Option Datum :=
  ofParts? (line.takeWhile (· ≠ ':')) (line.dropWhile (· ≠ ':'))

theorem ofLine?_append {label : List Char} (h : ':' ∉ label) (cs : List Char) :
    ofLine? (label ++ ':' :: cs) = ofParts? label (':' :: cs) := by
  obtain ⟨htake, hdrop⟩ := takeWhile_ne h (':' :: cs)
  rw [ofLine?, htake, hdrop]
  simp

theorem ofLine?_message (id : Nat) (s : String) :
    ofLine? (messageLabel id ++ ": db " ++ byteStringText s).toList =
      some (message id (s.toUTF8.data.toList ++ [10])) := by
  have htext : (messageLabel id ++ ": db " ++ byteStringText s).toList =
      (messageLabel id).toList ++ (": db ".toList ++ (byteStringText s).toList) := by simp
  have hlabel : (messageLabel id).toList = "msg_".toList ++ id.repr.toList := by
    change ("msg_" ++ id.repr).toList = _
    simp
  have hno : ':' ∉ (messageLabel id).toList := (IsPlain.messageLabel id).not_mem (by decide)
  have hline : ofLine? ((messageLabel id).toList ++ (": db ".toList ++ (byteStringText s).toList)) =
      ofParts? (messageLabel id).toList (": db ".toList ++ (byteStringText s).toList) :=
    ofLine?_append hno _
  rw [htext, hline, hlabel, ofParts?]
  simp only [afterStart?_append, readDigits?_repr, readBytes?_byteStringText, Option.bind_eq_bind,
    Option.bind_some]
  rfl

theorem ofLine?_slot {x : String} (hx : IsWord x) (w : Int32) :
    ofLine? (variableLabel x ++ ": dd " ++ wordText w).toList = some (slot x w) := by
  have htext : (variableLabel x ++ ": dd " ++ wordText w).toList =
      (variableLabel x).toList ++ (": dd ".toList ++ (wordText w).toList) := by simp
  have hlabel : (variableLabel x).toList = "var_".toList ++ x.toList := by simp [variableLabel]
  have hno : ':' ∉ (variableLabel x).toList := (IsPlain.variableLabel hx).not_mem (by decide)
  have hline : ofLine? ((variableLabel x).toList ++ (": dd ".toList ++ (wordText w).toList)) =
      ofParts? (variableLabel x).toList (": dd ".toList ++ (wordText w).toList) :=
    ofLine?_append hno _
  have hmessage : afterStart? "msg_".toList ("var_".toList ++ x.toList) = none :=
    afterStart?_eq_none (by simp)
  rw [htext, hline, hlabel, ofParts?]
  simp only [hmessage, afterStart?_append, readWord?_wordText, Option.bind_eq_bind,
    Option.bind_some, String.ofList_toList]
  rfl

end Datum

def readData? (line : List Char) : Option (List Datum) :=
  if line = [] then some [] else (Datum.ofLine? line).map fun d => [d]

/-- Reads lines one after the other. -/
def readAll? {α : Type} (read? : List Char → Option (List α)) : List (List Char) → Option (List α)
  | [] => some []
  | l :: ls => do
    let xs ← read? l
    let ys ← readAll? read? ls
    return xs ++ ys

/-- Loads the text of a program. -/
def Image.ofText? (asm : String) : Option Image := do
  let lines := asm.toList.splitOnP (· == '\n')
  let code ← readAll? readItems? (lines.takeWhile (!startsData ·))
  let data ← readAll? readData? ((lines.dropWhile (!startsData ·)).drop 1)
  return ⟨code, data.filterMap Datum.message?, data.filterMap Datum.slot?⟩

section ReadAll

variable {α β : Type} {read? : List Char → Option (List α)}

theorem readAll?_append {ls ms : List (List Char)} {xs ys : List α}
    (h : readAll? read? ls = some xs) (h' : readAll? read? ms = some ys) :
    readAll? read? (ls ++ ms) = some (xs ++ ys) := by
  induction ls generalizing xs with
  | nil =>
    obtain rfl := Option.some.inj h
    exact h'
  | cons l ls ih =>
    simp only [readAll?, Option.bind_eq_bind, Option.bind_eq_some_iff] at h
    obtain ⟨us, hus, vs, hvs, h⟩ := h
    obtain rfl := Option.some.inj h
    simp [readAll?, hus, ih hvs]

theorem readAll?_map {f : β → List Char} {g : β → List α} {bs : List β}
    (h : ∀ b ∈ bs, read? (f b) = some (g b)) : readAll? read? (bs.map f) = some (bs.flatMap g) := by
  induction bs with
  | nil => rfl
  | cons b bs ih =>
    rw [List.map_cons, readAll?, h b (by simp), ih fun c hc => h c (by simp [hc])]
    rfl

end ReadAll

/-- Lines that are ended by line feeds are found again. -/
theorem splitOnP_lines {ls : List (List Char)} (h : ∀ l ∈ ls, '\n' ∉ l) :
    (ls.flatMap (· ++ ['\n'])).splitOnP (· == '\n') = ls ++ [[]] := by
  induction ls with
  | nil => rfl
  | cons l ls ih =>
    have hl : ∀ c ∈ l, (c == '\n') = false := by
      intro c hc
      rw [beq_eq_false_iff_ne]
      rintro rfl
      exact h l (by simp) hc
    have htext : (l :: ls).flatMap (· ++ ['\n']) = l ++ '\n' :: ls.flatMap (· ++ ['\n']) := by simp
    rw [htext, List.splitOnP_append_cons_of_forall_mem hl _ (by simp),
      ih fun m hm => h m (by simp [hm])]
    rfl

theorem readData?_of_ofLine? {line : List Char} {d : Datum} (h : Datum.ofLine? line = some d) :
    readData? line = some [d] := by
  have hne : line ≠ [] := by
    rintro rfl
    simp [Datum.ofLine?, Datum.ofParts?, afterStart?] at h
  rw [readData?, if_neg hne, h]
  rfl

/-- The names of a program in assembly are words, and its remarks stay on their lines. -/
structure Assembly.Plain (a : Assembly) : Prop where
  externals : ∀ f ∈ a.externals, IsWord f
  code : ∀ l ∈ a.code, l.Plain
  vars : ∀ v ∈ a.vars.slots, IsWord v.1

namespace Assembly

variable (a : Assembly)

theorem toList_text : a.text.toList = (a.lines.map String.toList).flatMap (· ++ ['\n']) := by
  rw [text, String.toList_join, List.flatMap_map, List.flatMap_map]
  simp

/-- The lines before the code that hold a directive. -/
def headings : List (String × String) :=
  [("default", "rel"), ("section", ".text"), ("global", "_start")] ++ a.externals.map ("extern", ·)

def dataLines : List String :=
  a.messages.texts.zipIdx.map (fun (s, id) => messageLabel id ++ ": db " ++ byteStringText s) ++
    a.vars.slots.map (fun (x, w) => variableLabel x ++ ": dd " ++ wordText w)

/-- The lines in front of the data section. -/
def codeLines : List String :=
  a.headings.map (fun (v, w) => v ++ " " ++ w) ++
    ("_start" ++ ":") :: (a.code.map Line.text ++ [""])

theorem lines_eq : a.lines = a.codeLines ++ "section .data" :: a.dataLines := by
  have hheader : a.header = a.headings.map (fun (v, w) => v ++ " " ++ w) ++ ["_start" ++ ":"] := by
    simp only [header, headings, List.map_append, List.map_map]
    rfl
  have hdata : a.dataSection = "" :: "section .data" :: a.dataLines := by
    simp only [dataSection, dataLines, Messages.entries, List.map_map, List.append_assoc]
    rfl
  rw [lines, hheader, hdata, codeLines]
  simp

variable {a}

theorem plain_headings (h : a.Plain) : ∀ v ∈ a.headings,
    IsPlain v.1 ∧ IsPlain v.2 ∧ v.1 ∈ directives ∧ [v.1, v.2] ≠ ["section", ".data"] := by
  intro v hv
  rcases List.mem_append.mp hv with hv | hv
  · simp only [List.mem_cons, List.not_mem_nil, or_false] at hv
    rcases hv with rfl | rfl | rfl <;> decide
  · obtain ⟨f, hf, rfl⟩ := List.mem_map.mp hv
    have hword : IsPlain "extern" ∧ "extern" ∈ directives := by decide
    exact ⟨hword.1, .of_isWord (h.externals f hf), hword.2, by simp⟩

theorem readAll?_codeLines (h : a.Plain) :
    readAll? readItems? (a.codeLines.map String.toList) =
      some (.label "_start" :: codeItems a.code) := by
  have hheadings : readAll? readItems? (a.headings.map fun v => (v.1 ++ " " ++ v.2).toList) =
      some (a.headings.flatMap fun _ => []) := by
    refine readAll?_map ?_
    intro v hv
    obtain ⟨hv1, hv2, hdir, _⟩ := plain_headings h v hv
    exact readItems?_directive hv1 hv2 hdir
  have hstart : readAll? readItems? [("_start" ++ ":").toList] = some [.label "_start"] := by
    rw [readAll?, readItems?_label (by decide)]
    rfl
  have hcode : readAll? readItems? (a.code.map fun l => l.text.toList) = some (codeItems a.code) :=
    readAll?_map fun l hl => readItems?_text (h.code l hl)
  have hblank : readAll? readItems? [[]] = some [] := rfl
  have hall := readAll?_append hheadings (readAll?_append hstart (readAll?_append hcode hblank))
  have hlines : a.codeLines.map String.toList =
      a.headings.map (fun v => (v.1 ++ " " ++ v.2).toList) ++
      ([("_start" ++ ":").toList] ++ (a.code.map (fun l => l.text.toList) ++ [[]])) := by
    simp only [codeLines, List.map_append, List.map_cons, List.map_map]
    rfl
  rw [hlines, hall]
  simp

theorem startsData_codeLines (h : a.Plain) : ∀ l ∈ a.codeLines, startsData l.toList = false := by
  intro l hl
  simp only [codeLines, List.mem_append, List.mem_map, List.mem_cons, List.not_mem_nil,
    or_false] at hl
  rcases hl with ⟨v, hv, rfl⟩ | rfl | ⟨line, hline, rfl⟩ | rfl
  · obtain ⟨hv1, hv2, _, hne⟩ := plain_headings h v hv
    rw [startsData, lineWords_two hv1 hv2, decide_eq_false_iff_not]
    exact hne
  · rw [startsData, lineWords_label (by decide)]
    decide
  · exact startsData_text (h.code line hline)
  · rfl

theorem readAll?_dataLines (h : a.Plain) :
    readAll? readData? (a.dataLines.map String.toList) =
      some (a.image.messages.map (fun m => .message m.1 m.2) ++
        a.image.slots.map fun v => .slot v.1 v.2) := by
  have hmessages : readAll? readData? (a.messages.texts.zipIdx.map fun m =>
      (messageLabel m.2 ++ ": db " ++ byteStringText m.1).toList) =
        some (a.messages.texts.zipIdx.flatMap fun m =>
          [.message m.2 (m.1.toUTF8.data.toList ++ [10])]) :=
    readAll?_map fun m _ => readData?_of_ofLine? (Datum.ofLine?_message m.2 m.1)
  have hslots : readAll? readData? (a.vars.slots.map fun v =>
      (variableLabel v.1 ++ ": dd " ++ wordText v.2).toList) =
        some (a.vars.slots.flatMap fun v => [.slot v.1 v.2]) :=
    readAll?_map fun v hv => readData?_of_ofLine? (Datum.ofLine?_slot (h.vars v hv) v.2)
  have hall := readAll?_append hmessages hslots
  rw [← List.map_eq_flatMap, ← List.map_eq_flatMap] at hall
  simp only [dataLines, image, List.map_append, List.map_map]
  exact hall

theorem newline_not_mem_text {l : Line} (hl : l.Plain) : '\n' ∉ l.text.toList := by
  have hinstr {i : Instr} (hi : i.Plain) : '\n' ∉ i.text.toList := by
    intro hmem
    rcases Instr.text_chars hi '\n' hmem with h | h | h <;> simp [isPlain] at h
  cases l with
  | instr i => simpa [Line.text] using hinstr hl
  | noted i note => simpa [Line.text] using ⟨hinstr hl.1, hl.2⟩
  | label l => simpa [Line.text] using (IsPlain.label l).not_mem (by decide)
  | remark note | heading note =>
    have hnote : '\n' ∉ note.toList := hl
    simpa [Line.text] using hnote
  | blank => simp [Line.text]

theorem newline_not_mem_lines (h : a.Plain) : ∀ l ∈ a.lines, '\n' ∉ l.toList := by
  intro l hl
  simp only [lines_eq, codeLines, dataLines, List.mem_append, List.mem_map, List.mem_cons,
    List.not_mem_nil, or_false] at hl
  rcases hl with (⟨v, hv, rfl⟩ | rfl | ⟨line, hline, rfl⟩ | rfl) | rfl | ⟨m, _, rfl⟩ | ⟨v, hv, rfl⟩
  · obtain ⟨hv1, hv2, _⟩ := plain_headings h v hv
    simp only [String.toList_append, List.mem_append, not_or]
    exact ⟨⟨hv1.not_mem (by decide), by decide⟩, hv2.not_mem (by decide)⟩
  · decide
  · exact newline_not_mem_text (h.code line hline)
  · decide
  · decide
  · simp only [String.toList_append, List.mem_append, not_or]
    refine ⟨⟨(IsPlain.messageLabel m.2).not_mem (by decide), by decide⟩, ?_⟩
    intro hmem
    exact absurd (printable_byteStringText m.1 '\n' hmem).1 (by decide)
  · simp only [String.toList_append, List.mem_append, not_or]
    exact ⟨⟨(IsPlain.variableLabel (h.vars v hv)).not_mem (by decide), by decide⟩,
      (IsPlain.toString_int v.2.toInt).not_mem (by decide)⟩

/-- The lines of a program are found in its text. -/
theorem splitOnP_text (h : a.Plain) : a.text.toList.splitOnP (· == '\n') =
    a.codeLines.map String.toList ++
      "section .data".toList :: (a.dataLines.map String.toList ++ [[]]) := by
  have hnewline : ∀ l ∈ a.lines.map String.toList, '\n' ∉ l := by
    intro l hl
    obtain ⟨line, hline, rfl⟩ := List.mem_map.mp hl
    exact newline_not_mem_lines h line hline
  rw [toList_text, splitOnP_lines hnewline, lines_eq]
  simp

/-- The text section ends where the data section starts. -/
theorem splitOnP_startsData (h : a.Plain) :
    (a.text.toList.splitOnP (· == '\n')).takeWhile (!startsData ·) = a.codeLines.map String.toList ∧
    (a.text.toList.splitOnP (· == '\n')).dropWhile (!startsData ·) =
      "section .data".toList :: (a.dataLines.map String.toList ++ [[]]) := by
  have hcode : ∀ l ∈ a.codeLines.map String.toList, (!startsData l) = true := by
    intro l hl
    obtain ⟨line, hline, rfl⟩ := List.mem_map.mp hl
    rw [startsData_codeLines h line hline]
    rfl
  have hsection : startsData "section .data".toList = true := by
    have hwords : lineWords ("section" ++ " " ++ ".data").toList = ["section", ".data"] :=
      lineWords_two (by decide) (by decide)
    exact decide_eq_true hwords
  rw [splitOnP_text h, List.takeWhile_append_of_pos hcode, List.dropWhile_append_of_pos hcode,
    List.takeWhile_cons, List.dropWhile_cons, hsection]
  exact ⟨List.append_nil _, rfl⟩

/-- A program is loaded from its text. -/
theorem ofText?_text (h : a.Plain) : Image.ofText? a.text = some a.image := by
  obtain ⟨hcode, hsection⟩ := splitOnP_startsData h
  have hdata :=
    readAll?_append (readAll?_dataLines h) (show readAll? readData? [[]] = some [] from rfl)
  rw [Image.ofText?]
  simp only [hcode, hsection, List.append_nil, List.drop_succ_cons, List.drop_zero,
    readAll?_codeLines h, hdata, Option.bind_eq_bind, Option.bind_some, Datum.filterMap_message?,
    Datum.filterMap_slot?]
  rfl

end Assembly

end ImpAsm

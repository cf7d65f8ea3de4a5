import ImpAsm.Proofs.Assembly.Reading
import ImpAsm.Proofs.Machine.Code

namespace ImpAsm

/-- The words of a line, up to a remark. -/
def lineWords (line : List Char) : List String :=
  (fields Instr.isGap (line.takeWhile (· ≠ ';'))).map String.ofList

/-- The words that start a line without code. -/
def directives : List String := ["default", "section", "global", "extern"]

/-- The name of a label that is alone on its line. -/
def labelName? : List String → Option String
  | [w] => if w.toList.getLast? = some ':' then some (String.ofList w.toList.dropLast) else none
  | _ => none

/-- Reads a line of the text section. -/
def readItems? (line : List Char) : Option (List Item) :=
  match lineWords line with
  | [] => some []
  | w :: ws =>
    if w ∈ directives then some []
    else
      match labelName? (w :: ws) with
      | some name => some [.label name]
      | none => (Instr.ofWords? (w :: ws)).map fun i => [.instr i]

/-- The line between the text section and the data section. -/
def startsData (line : List Char) : Bool := lineWords line = ["section", ".data"]

/-- The characters of an instruction. -/
theorem Instr.text_chars {i : Instr} (hi : i.Plain) :
    ∀ c ∈ i.text.toList, isPlain c ∨ c = ' ' ∨ c = ',' := by
  have hplain {w : String} (hw : w ∈ i.words) {c : Char} (hc : c ∈ w.toList) : isPlain c :=
    List.all_eq_true.mp (isPlain_words hi w hw).2 c hc
  intro c hc
  rcases text_eq i with ⟨op, hwords, htext⟩ | ⟨op, a, hwords, htext⟩ | ⟨op, a, b, hwords, htext⟩
  · rw [htext] at hc
    exact .inl (hplain (by simp [hwords]) hc)
  · simp only [htext, String.toList_append, List.mem_append] at hc
    rcases hc with (hc | hc) | hc
    · exact .inl (hplain (by simp [hwords]) hc)
    · exact .inr (.inl (by simpa using hc))
    · exact .inl (hplain (by simp [hwords]) hc)
  · simp only [htext, String.toList_append, List.mem_append] at hc
    rcases hc with (((hc | hc) | hc) | hc) | hc
    · exact .inl (hplain (w := op) (by simp [hwords]) hc)
    · exact .inr (.inl (by simpa using hc))
    · exact .inl (hplain (w := a) (by simp [hwords]) hc)
    · exact .inr (.symm (by simpa using hc))
    · exact .inl (hplain (w := b) (by simp [hwords]) hc)

/-- The names of a line are words, and its remarks stay on it. -/
def Line.Plain : Line → Prop
  | instr i => i.Plain
  | noted i note => i.Plain ∧ '\n' ∉ note.toList
  | remark note | heading note => '\n' ∉ note.toList
  | label _ | blank => True

theorem takeWhile_ne {c : Char} {cs : List Char} (h : c ∉ cs) (ds : List Char) :
    (cs ++ ds).takeWhile (· ≠ c) = cs ++ ds.takeWhile (· ≠ c) ∧
      (cs ++ ds).dropWhile (· ≠ c) = ds.dropWhile (· ≠ c) := by
  have hall : ∀ d ∈ cs, decide (d ≠ c) = true := by
    intro d hd
    rw [decide_eq_true_eq]
    rintro rfl
    exact h hd
  exact ⟨List.takeWhile_append_of_pos hall, List.dropWhile_append_of_pos hall⟩

/-- A remark does not count. -/
theorem lineWords_remark {line : List Char} (h : ';' ∉ line) (note : List Char) :
    lineWords (line ++ ';' :: note) = (fields Instr.isGap line).map String.ofList := by
  have htake : (line ++ ';' :: note).takeWhile (· ≠ ';') = line := by
    rw [(takeWhile_ne h _).1]
    simp
  rw [lineWords, htake]

theorem lineWords_of_not_mem {line : List Char} (h : ';' ∉ line) :
    lineWords line = (fields Instr.isGap line).map String.ofList := by
  have htake : line.takeWhile (· ≠ ';') = line := by simpa using (takeWhile_ne h []).1
  rw [lineWords, htake]

theorem semicolon_not_mem {i : Instr} (hi : i.Plain) : ';' ∉ i.text.toList := by
  intro hmem
  rcases Instr.text_chars hi ';' hmem with h | h | h <;> simp [isPlain] at h

/-- Two words with a space between them. -/
theorem lineWords_two {v w : String} (hv : IsPlain v) (hw : IsPlain w) :
    lineWords (v ++ " " ++ w).toList = [v, w] := by
  have htext : (v ++ " " ++ w).toList = v.toList ++ ' ' :: w.toList := by simp
  have hspace : Instr.isGap ' ' := rfl
  have hno : ';' ∉ v.toList ++ ' ' :: w.toList := by
    simp only [List.mem_append, List.mem_cons, not_or]
    exact ⟨hv.not_mem (by decide), by decide, hw.not_mem (by decide)⟩
  rw [htext, lineWords_of_not_mem hno, fields_append hspace, Instr.fields_word hv,
    Instr.fields_word hw]
  simp

theorem lineWords_label {name : String} (h : IsPlain name) :
    lineWords (name ++ ":").toList = [name ++ ":"] := by
  have htext : (name ++ ":").toList = name.toList ++ [':'] := by simp
  have hno : ';' ∉ name.toList ++ [':'] := by
    simp only [List.mem_append, List.mem_singleton, not_or]
    exact ⟨h.not_mem (by decide), by decide⟩
  have hgap : ∀ c ∈ name.toList ++ [':'], Instr.isGap c = false := by
    intro c hc
    rcases List.mem_append.mp hc with hc | hc
    · exact Instr.isGap_of_isPlain (List.all_eq_true.mp h.2 c hc)
    · obtain rfl := List.mem_singleton.mp hc
      rfl
  rw [htext, lineWords_of_not_mem hno, fields_of_forall (by simp) hgap, ← htext]
  simp

def Line.words : Line → List String
  | instr i | noted i _ => i.words
  | label l => [l.text ++ ":"]
  | remark _ | heading _ | blank => []

theorem lineWords_text {l : Line} (hl : l.Plain) : lineWords l.text.toList = l.words := by
  have hspace : Instr.isGap ' ' := rfl
  cases l with
  | instr i =>
    have htext : (Line.instr i).text.toList = ' ' :: ' ' :: i.text.toList := by simp [Line.text]
    have hno : ';' ∉ ' ' :: ' ' :: i.text.toList := by simpa using semicolon_not_mem hl
    rw [htext, lineWords_of_not_mem hno, fields_cons hspace, fields_cons hspace,
      Instr.fields_text hl]
    simp [Line.words]
  | noted i note =>
    have htext : (Line.noted i note).text.toList =
        (' ' :: ' ' :: (i.text.toList ++ [' '])) ++ ';' :: ' ' :: note.toList := by
      simp [Line.text]
    have hno : ';' ∉ ' ' :: ' ' :: (i.text.toList ++ [' ']) := by
      simpa using semicolon_not_mem hl.1
    rw [htext, lineWords_remark hno, fields_cons hspace, fields_cons hspace, fields_append hspace,
      Instr.fields_text hl.1]
    simp [Line.words]
  | label l => exact lineWords_label (.label l)
  | remark note =>
    have htext : (Line.remark note).text.toList = [' ', ' '] ++ ';' :: ' ' :: note.toList := by
      simp [Line.text]
    rw [htext, lineWords_remark (by simp), fields_cons hspace, fields_cons hspace]
    simp [Line.words]
  | heading note =>
    have htext : (Line.heading note).text.toList = [] ++ ';' :: ' ' :: note.toList := by
      simp [Line.text]
    rw [htext, lineWords_remark (by simp)]
    simp [Line.words]
  | blank => rfl

theorem Instr.head_words (i : Instr) : ∃ w ws, i.words = w :: ws ∧ w ∉ directives := by
  cases i with
  | arith op dst src => exact ⟨_, _, rfl, by cases op <;> decide⟩
  | set cond dst => exact ⟨_, _, rfl, by cases cond <;> decide⟩
  | bytes op dst src => exact ⟨_, _, rfl, by cases op <;> decide⟩
  | _ => exact ⟨_, _, rfl, by decide⟩

theorem labelName?_words {i : Instr} (hi : i.Plain) : labelName? i.words = none := by
  rcases Instr.text_eq i with ⟨op, hwords, _⟩ | ⟨op, a, hwords, _⟩ | ⟨op, a, b, hwords, _⟩
  · have hop := Instr.isPlain_words hi op (by simp [hwords])
    have hlast : op.toList.getLast? ≠ some ':' := by
      intro hlast
      exact hop.not_mem (by decide) (List.mem_of_getLast? hlast)
    rw [hwords, labelName?, if_neg hlast]
  · rw [hwords]
    rfl
  · rw [hwords]
    rfl

theorem label_not_directive (name : String) : name ++ ":" ∉ directives := by
  intro hmem
  have hlast : (name ++ ":").toList.getLast? = some ':' := by simp
  revert hlast
  simp only [directives, List.mem_cons, List.not_mem_nil, or_false] at hmem
  rcases hmem with h | h | h | h <;> rw [h] <;> decide

theorem readItems?_instr {line : List Char} {i : Instr} (hi : i.Plain)
    (h : lineWords line = i.words) : readItems? line = some [.instr i] := by
  have hlabel := labelName?_words hi
  have hread := Instr.ofWords?_words i
  obtain ⟨w, ws, hwords, hw⟩ := i.head_words
  rw [hwords] at h hlabel hread
  simp [readItems?, h, hw, hlabel, hread]

theorem readItems?_label {name : String} (hname : IsPlain name) :
    readItems? (name ++ ":").toList = some [.label name] := by
  have hlabel : labelName? [name ++ ":"] = some name := by simp [labelName?]
  rw [readItems?, lineWords_label hname]
  simp only [if_neg (label_not_directive name), hlabel]

theorem readItems?_directive {v w : String} (hv : IsPlain v) (hw : IsPlain w) (h : v ∈ directives) :
    readItems? (v ++ " " ++ w).toList = some [] := by
  rw [readItems?, lineWords_two hv hw]
  simp only [if_pos h]

/-- A line of the text section is read as what it is. -/
theorem readItems?_text {l : Line} (hl : l.Plain) : readItems? l.text.toList = some l.items := by
  have hwords := lineWords_text hl
  cases l with
  | instr i => exact readItems?_instr hl hwords
  | noted i note => exact readItems?_instr hl.1 hwords
  | label l => exact readItems?_label (.label l)
  | remark note | heading note | blank => rw [readItems?, hwords]; rfl

theorem startsData_text {l : Line} (hl : l.Plain) : startsData l.text.toList = false := by
  rw [startsData, lineWords_text hl, decide_eq_false_iff_not]
  intro hwords
  cases l with
  | instr i | noted i note =>
    obtain ⟨w, ws, hi, hw⟩ := i.head_words
    rw [Line.words, hi] at hwords
    obtain ⟨rfl, _⟩ := List.cons.inj hwords
    exact hw (by decide)
  | label l => simp [Line.words] at hwords
  | remark note | heading note | blank => simp [Line.words] at hwords

end ImpAsm

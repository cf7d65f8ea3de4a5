import ImpAsm.Proofs.Assembly.Operands
import ImpAsm.Proofs.Machine.Basic

namespace ImpAsm

/-- What a machine keeps of a line. -/
def Line.items : Line → List Item
  | .instr i | .noted i _ => [.instr i]
  | .label l => [.label l.text]
  | .remark _ | .heading _ | .blank => []

def codeItems (lines : List Line) : List Item := lines.flatMap Line.items

@[simp] theorem codeItems_nil : codeItems [] = [] := rfl

@[simp] theorem codeItems_cons (l : Line) (ls : List Line) :
    codeItems (l :: ls) = l.items ++ codeItems ls := rfl

@[simp] theorem codeItems_append (ls ms : List Line) :
    codeItems (ls ++ ms) = codeItems ls ++ codeItems ms := List.flatMap_append

@[simp] theorem codeItems_instrs (is : List Instr) :
    codeItems (is.map .instr) = is.map .instr := by
  induction is with
  | nil => rfl
  | cons i is ih => simp [ih, Line.items]

/-- The program that a machine loads. -/
def Assembly.image (a : Assembly) : Image where
  code := .label "_start" :: codeItems a.code
  messages := a.messages.texts.zipIdx.map fun (text, id) => (id, text.toUTF8.data.toList ++ [10])
  slots := a.vars.slots

def Line.label? : Line → Option Label
  | .label l => some l
  | _ => none

/-- The labels of lines of code. -/
def lineLabels (lines : List Line) : List Label := lines.filterMap Line.label?

@[simp] theorem lineLabels_nil : lineLabels [] = [] := rfl

@[simp] theorem lineLabels_cons (l : Line) (ls : List Line) :
    lineLabels (l :: ls) = l.label?.toList ++ lineLabels ls := by
  cases h : l.label? <;> simp [lineLabels, h]

@[simp] theorem lineLabels_append (ls ms : List Line) :
    lineLabels (ls ++ ms) = lineLabels ls ++ lineLabels ms := List.filterMap_append

@[simp] theorem lineLabels_instrs (is : List Instr) : lineLabels (is.map .instr) = [] := by
  induction is with
  | nil => rfl
  | cons i is ih => simp [ih, Line.label?]

/-- Different labels with numbers in a range. -/
structure Numbered (used count : Nat) (ls : List Label) : Prop where
  nodup : ls.Nodup
  lower : ∀ l ∈ ls, used < l.number
  upper : ∀ l ∈ ls, l.number ≤ used + count

theorem numbered_nil (used : Nat) : Numbered used 0 [] := ⟨by simp, by simp, by simp⟩

theorem Numbered.append {used m n : Nat} {ls ms : List Label} (h : Numbered used m ls)
    (h' : Numbered (used + m) n ms) : Numbered used (m + n) (ls ++ ms) where
  nodup := by
    refine List.nodup_append.mpr ⟨h.nodup, h'.nodup, ?_⟩
    intro a ha b hb hab
    subst hab
    have h1 := h.upper a ha
    have h2 := h'.lower a hb
    omega
  lower := by
    intro l hl
    rcases List.mem_append.mp hl with hl | hl
    · exact h.lower l hl
    · have := h'.lower l hl
      omega
  upper := by
    intro l hl
    rcases List.mem_append.mp hl with hl | hl
    · have := h.upper l hl
      omega
    · have := h'.upper l hl
      omega

/-- Labels with the next two numbers may stand among labels with later numbers. -/
theorem Numbered.insert {used n : Nat} {ls ms : List Label} {a b : Label}
    (h : Numbered (used + 2) n (ls ++ ms)) (ha : a.number = used + 1) (hb : b.number = used + 2) :
    Numbered used (2 + n) (ls ++ a :: (ms ++ [b])) := by
  have hperm : (ls ++ a :: (ms ++ [b])).Perm (a :: b :: (ls ++ ms)) := by
    have h1 : (ls ++ a :: (ms ++ [b])).Perm (a :: (ls ++ (ms ++ [b]))) := List.perm_middle
    have h2 : (ls ++ (ms ++ [b])).Perm (b :: (ls ++ ms)) := by
      rw [← List.append_assoc]
      exact List.perm_append_singleton b (ls ++ ms)
    exact h1.trans (h2.cons a)
  have hlower := h.lower
  have hupper := h.upper
  constructor
  · rw [hperm.nodup_iff]
    refine List.nodup_cons.mpr ⟨?_, List.nodup_cons.mpr ⟨?_, h.nodup⟩⟩
    · intro hmem
      rcases List.mem_cons.mp hmem with rfl | hmem
      · omega
      · have := hlower a hmem
        omega
    · intro hmem
      have := hlower b hmem
      omega
  · intro l hl
    rcases List.mem_cons.mp (hperm.mem_iff.mp hl) with rfl | hl
    · omega
    · rcases List.mem_cons.mp hl with rfl | hl
      · omega
      · have := hlower l hl
        omega
  · intro l hl
    rcases List.mem_cons.mp (hperm.mem_iff.mp hl) with rfl | hl
    · omega
    · rcases List.mem_cons.mp hl with rfl | hl
      · omega
      · have := hupper l hl
        omega

mutual

/-- The labels of a statement are different, and they have the numbers that it takes. -/
theorem Stmt.numbered_code (messages : Messages) : ∀ (used : Nat) (s : Stmt),
    Numbered used s.labelCount (lineLabels (s.code messages used))
  | used, .exit e => by
    simpa [Stmt.code, Stmt.labelCount, Line.label?] using numbered_nil used
  | used, .printText text => by
    simpa [Stmt.code, Stmt.labelCount, Line.label?, printCode] using numbered_nil used
  | used, .printValue e => by
    simpa [Stmt.code, Stmt.labelCount, Line.label?] using numbered_nil used
  | used, .declare x e => by
    simpa [Stmt.code, Stmt.labelCount, Line.label?] using numbered_nil used
  | used, .assign x e => by
    simpa [Stmt.code, Stmt.labelCount, Line.label?] using numbered_nil used
  | used, .branch e yes no => by
    have hyes := numbered_blockCode messages (used + 2) yes
    have hno := numbered_elseCode messages (used + 2 + labelCount yes) no
    have h :=
      (hyes.append hno).insert (a := ⟨.otherwise, used + 1⟩) (b := ⟨.done, used + 2⟩) rfl rfl
    simpa [Stmt.code, Stmt.labelCount, Line.label?, Nat.add_assoc] using h
  | used, .loop e body => by
    have hbody : Numbered (used + 2) (labelCount body)
        ([] ++ lineLabels (blockCode messages (used + 2) body)) :=
      numbered_blockCode messages (used + 2) body
    have h := hbody.insert (a := ⟨.loop, used + 1⟩) (b := ⟨.done, used + 2⟩) rfl rfl
    have hlabels : lineLabels ((Stmt.loop e body).code messages used) =
        [] ++ ⟨.loop, used + 1⟩ ::
          (lineLabels (blockCode messages (used + 2) body) ++ [⟨.done, used + 2⟩]) := by
      simp [Stmt.code, Line.label?]
    rw [hlabels]
    exact h
  | used, .call f args => by
    simpa [Stmt.code, Stmt.labelCount, Line.label?] using numbered_nil used
  | used, .processor p params body => by
    simpa [Stmt.code, Stmt.labelCount, Line.label?] using numbered_nil used

theorem numbered_blockCode (messages : Messages) : ∀ (used : Nat) (ss : List Stmt),
    Numbered used (labelCount ss) (lineLabels (blockCode messages used ss))
  | used, [] => numbered_nil used
  | used, s :: ss => by
    rw [blockCode, labelCount, lineLabels_append]
    exact (Stmt.numbered_code messages used s).append
      (numbered_blockCode messages (used + s.labelCount) ss)

theorem numbered_elseCode (messages : Messages) : ∀ (used : Nat) (no : Option (List Stmt)),
    Numbered used (labelCountElse no) (lineLabels (elseCode messages used no))
  | used, none => numbered_nil used
  | used, some ss => numbered_blockCode messages used ss

end

/-- The names of the labels of loaded code. -/
def itemLabels (items : List Item) : List String :=
  items.filterMap fun
    | .label name => some name
    | .instr _ => none

theorem itemLabels_codeItems (lines : List Line) :
    itemLabels (codeItems lines) = (lineLabels lines).map Label.text := by
  induction lines with
  | nil => rfl
  | cons l ls ih =>
    rw [codeItems_cons, lineLabels_cons, List.map_append, ← ih]
    cases l <;> rfl

/-- A jump to a label that is there once goes behind it. -/
theorem codeAt?_of_suffix {name : String} {after code : List Item} (hcode : (itemLabels code).Nodup)
    (h : .label name :: after <:+ code) : codeAt? name code = some after := by
  obtain ⟨before, rfl⟩ := h
  induction before with
  | nil => simp [codeAt?]
  | cons item before ih =>
    cases item with
    | instr i => exact ih hcode
    | label l =>
      have hcons : (l :: itemLabels (before ++ .label name :: after)).Nodup := hcode
      obtain ⟨hl, hrest⟩ := List.nodup_cons.mp hcons
      have hne : l ≠ name := by
        rintro rfl
        exact hl (by simp [itemLabels])
      rw [List.cons_append, codeAt?, if_neg hne]
      exact ih hrest

/-- The labels of a program are different. -/
theorem nodup_itemLabels (messages : Messages) (p : Program) :
    (itemLabels (.label "_start" :: codeItems (Program.code messages p))).Nodup := by
  have hnumbered := numbered_blockCode messages 0 p
  have hlines : lineLabels (Program.code messages p) = lineLabels (blockCode messages 0 p) := by
    simp [Program.code, programEnd, Line.label?]
  change ("_start" :: itemLabels (codeItems (Program.code messages p))).Nodup
  rw [itemLabels_codeItems, hlines, List.nodup_cons]
  constructor
  · intro hmem
    obtain ⟨⟨role, n⟩, _, hl⟩ := List.mem_map.mp hmem
    have hchars := congrArg String.toList hl
    cases role <;> simp [Label.text, LabelRole.stem] at hchars
  · exact List.Pairwise.map Label.text (fun _ _ hne h => hne (Label.text_injective h))
      hnumbered.nodup

/-- The text with a number is in the table of texts. -/
theorem find?_zipIdx {α : Type} (f : String → α) (text : String) :
    ∀ (texts : List String) (k : Nat),
    text ∈ texts → ((texts.zipIdx k).map fun (t, id) => (id, f t)).find?
      (·.1 == k + texts.idxOf text) = some (k + texts.idxOf text, f text)
  | [], _, h => by simp at h
  | t :: ts, k, h => by
    by_cases ht : t = text
    · subst ht
      simp
    · have hmem : text ∈ ts := by simpa [Ne.symm ht] using h
      have hidx : k + (t :: ts).idxOf text = k + 1 + ts.idxOf text := by
        rw [List.idxOf_cons, beq_eq_false_iff_ne.mpr ht, cond_false]
        omega
      have hne : (k == k + 1 + ts.idxOf text) = false := by simp; omega
      rw [hidx, List.zipIdx_cons, List.map_cons, List.find?_cons, hne]
      exact find?_zipIdx f text ts (k + 1) hmem

theorem Assembly.find?_messages (a : Assembly) {text : String} (h : text ∈ a.messages.texts) :
    a.image.messages.find? (·.1 == a.messages.idOf text) =
      some (a.messages.idOf text, text.toUTF8.data.toList ++ [10]) := by
  have hfind := find?_zipIdx (fun t => t.toUTF8.data.toList ++ [10]) text a.messages.texts 0 h
  rwa [Nat.zero_add] at hfind

end ImpAsm

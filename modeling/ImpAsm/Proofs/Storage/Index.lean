import Mathlib
import ImpAsm.Proofs.Assembly.Symbols
import ImpAsm.Proofs.Stmt.Scope
import ImpAsm.Proofs.Stmt.Tables

namespace ImpAsm

/-- A table that finds its rows by their keys: the rows in the order of their entry, and the place
of each key among them. -/
structure Indexed (α : Type) where
  rows : Array α
  index : Std.HashMap String Nat

namespace Indexed

variable {α : Type}

def empty : Indexed α := ⟨#[], ∅⟩

/-- Enters a row at the end, unless there is one with its key, and gives the place of the key. -/
def enter (t : Indexed α) (key : String) (row : α) : Nat × Indexed α :=
  match t.index[key]? with
  | some i => (i, t)
  | none => (t.rows.size, ⟨t.rows.push row, t.index.insert key t.rows.size⟩)

/-- The index is the one of the rows: it leads from a key to a place exactly if the row there has
that key. -/
def Sound (key : α → String) (t : Indexed α) : Prop :=
  ∀ x i, t.index[x]? = some i ↔ t.rows[i]?.map key = some x

/-- The keys in the order of their rows. -/
def keys (key : α → String) (t : Indexed α) : List String := t.rows.toList.map key

variable {key : α → String} {t : Indexed α}

theorem getElem?_keys (i : Nat) : (t.keys key)[i]? = t.rows[i]?.map key := by
  rw [keys, List.getElem?_map, Array.getElem?_toList]

theorem sound_empty : (empty : Indexed α).Sound key := by
  intro x i
  simp [empty]

/-- Rows are never moved, changed or taken out. -/
theorem prefix_enter (t : Indexed α) (x : String) (row : α) :
    t.rows.toList <+: (t.enter x row).2.rows.toList := by
  rw [enter]
  split
  · exact List.prefix_rfl
  · rw [Array.toList_push]
    exact List.prefix_append _ _

namespace Sound

/-- A key has a place exactly if it is among the keys, and that is where it stands first. -/
theorem index_eq (h : t.Sound key) (x : String) :
    t.index[x]? = if x ∈ t.keys key then some ((t.keys key).idxOf x) else none := by
  split
  · next hx => rw [h, ← getElem?_keys, List.getElem?_idxOf hx]
  · next hx =>
    rw [Option.eq_none_iff_forall_ne_some]
    intro i hi
    rw [h, ← getElem?_keys] at hi
    exact hx (List.mem_of_getElem? hi)

/-- A key that stood at two places would have two places in the index. -/
theorem nodup_keys (h : t.Sound key) : (t.keys key).Nodup := by
  rw [List.nodup_iff_getElem?_ne_getElem?]
  intro i j hij hj heq
  obtain ⟨x, hx⟩ : ∃ x, (t.keys key)[j]? = some x := ⟨_, List.getElem?_eq_getElem hj⟩
  have hi : t.index[x]? = some i := by rw [h, ← getElem?_keys, heq, hx]
  have hj' : t.index[x]? = some j := by rw [h, ← getElem?_keys, hx]
  rw [hi] at hj'
  exact Nat.ne_of_lt hij (Option.some.inj hj')

/-- What entering a row does to the rows and the place that it gives. -/
theorem enter_eq (h : t.Sound key) (row : α) :
    (t.enter (key row) row).1 = (t.keys key).idxOf (key row) ∧
      (t.enter (key row) row).2.rows.toList =
        t.rows.toList ++ if key row ∈ t.keys key then [] else [row] := by
  have hsize : t.rows.size = (t.keys key).length := by simp [keys]
  rw [enter, h.index_eq]
  by_cases hx : key row ∈ t.keys key
  · simp [hx]
  · simp [hx, hsize]

theorem enter (h : t.Sound key) (row : α) : (t.enter (key row) row).2.Sound key := by
  rw [Indexed.enter, h.index_eq]
  by_cases hx : key row ∈ t.keys key
  · simpa [hx] using h
  · simp only [if_neg hx]
    intro x i
    rw [Std.HashMap.getElem?_insert, Array.getElem?_push]
    by_cases hi : i = t.rows.size
    · subst hi
      by_cases hk : key row = x
      · simp [hk]
      · -- no key leads to the new place but the new one
        simp [hk, h x]
    · by_cases hk : key row = x
      · -- the new key stands at no old place
        subst hk
        have hold : t.rows[i]?.map key ≠ some (key row) := by
          rw [← getElem?_keys]
          exact fun hmem => hx (List.mem_of_getElem? hmem)
        simp [hi, hold, Ne.symm hi]
      · simp [hi, hk, h x]

end Sound

end Indexed

/-- The two tables of a generator with their indexes. -/
structure IndexedTables where
  vars : Indexed (String × Int32)
  messages : Indexed String

/-- What is done to the tables: a variable is declared, or a printed text is registered. -/
inductive TableStep where
  | declare (x : String) (initial : Int32)
  | register (s : String)

namespace TableStep

def declaration? : TableStep → Option (String × Int32)
  | declare x initial => some (x, initial)
  | register _ => none

def text? : TableStep → Option String
  | declare _ _ => none
  | register s => some s

end TableStep

namespace IndexedTables

def empty : IndexedTables := ⟨.empty, .empty⟩

section

variable (t : IndexedTables)

def declare (x : String) (initial : Int32) : IndexedTables :=
  { t with vars := (t.vars.enter x (x, initial)).2 }

/-- Enters a text and gives its label. -/
def register (s : String) : String × IndexedTables :=
  (messageLabel (t.messages.enter s s).1, { t with messages := (t.messages.enter s s).2 })

/-- The initial value of a variable, looked up by its place. A place at which there is no row is an
error. -/
def initialValue (x : String) : Except Nat (Option Int32) :=
  match t.vars.index[x]? with
  | none => .ok none
  | some i =>
    match t.vars.rows[i]? with
    | none => .error i
    | some slot => .ok (some slot.2)

/-- The texts with their labels, in the order of their entry. -/
def entries : List (String × String) :=
  t.messages.rows.toList.zipIdx.map fun (s, id) => (messageLabel id, s)

def step : TableStep → IndexedTables
  | .declare x initial => t.declare x initial
  | .register s => (t.register s).2

def after (steps : List TableStep) : IndexedTables := steps.foldl step t

/-- The tables without their indexes. -/
def plainVars : Variables := ⟨t.vars.rows.toList⟩

def plainMessages : Messages := ⟨t.messages.rows.toList⟩

structure Sound : Prop where
  vars : t.vars.Sound Prod.fst
  messages : t.messages.Sound id

end

variable {t : IndexedTables}

namespace Sound

theorem step (h : t.Sound) (a : TableStep) : (t.step a).Sound := by
  cases a with
  | declare x initial => exact ⟨h.vars.enter (x, initial), h.messages⟩
  | register s => exact ⟨h.vars, h.messages.enter s⟩

theorem after (h : t.Sound) (steps : List TableStep) : (t.after steps).Sound := by
  induction steps generalizing t with
  | nil => exact h
  | cons a steps ih => exact ih (h.step a)

theorem plainVars_declare (h : t.Sound) (x : String) (initial : Int32) :
    (t.declare x initial).plainVars = t.plainVars.declare x initial := by
  have hrows : (t.declare x initial).plainVars.slots =
      t.plainVars.slots ++ if x ∈ t.plainVars.names then [] else [(x, initial)] :=
    (h.vars.enter_eq (x, initial)).2
  have hcontains : t.plainVars.contains x ↔ x ∈ t.plainVars.names := by
    simp [Variables.contains, Variables.names]
  have hslots : (t.declare x initial).plainVars.slots = (t.plainVars.declare x initial).slots := by
    rw [hrows, Variables.declare]
    by_cases hx : x ∈ t.plainVars.names
    · simp [hx, hcontains.mpr hx]
    · simp [hx, mt hcontains.mp hx]
  exact congrArg Variables.mk hslots

theorem register_eq (h : t.Sound) (s : String) :
    (t.register s).1 = messageLabel (t.plainMessages.idOf s) ∧
      (t.register s).2.plainMessages = (t.plainMessages.register s).2 := by
  have hkeys : t.messages.keys id = t.plainMessages.texts := List.map_id _
  obtain ⟨hplace, hrows⟩ := h.messages.enter_eq s
  rw [hkeys] at hplace hrows
  refine ⟨congrArg messageLabel hplace, ?_⟩
  have htexts : (t.register s).2.plainMessages.texts = (t.plainMessages.register s).2.texts := by
    rw [Messages.texts_register, addNew]
    refine Eq.trans hrows ?_
    by_cases hs : s ∈ t.plainMessages.texts
    · rw [if_pos hs, id_eq, if_pos hs, List.append_nil]
      rfl
    · rw [if_neg hs, id_eq, if_neg hs]
      rfl
  exact congrArg Messages.mk htexts

/-- The index leads to rows only, so a look-up finds what a search through the rows finds. -/
theorem initialValue_eq (h : t.Sound) (x : String) :
    t.initialValue x = .ok (t.plainVars.initialValue? x) := by
  have hnodup : t.plainVars.names.Nodup := h.vars.nodup_keys
  rw [initialValue]
  cases hi : t.vars.index[x]? with
  | none =>
    have hx : x ∉ t.vars.keys Prod.fst := by
      intro hx
      rw [h.vars.index_eq, if_pos hx] at hi
      simp at hi
    have hnone : t.plainVars.initialValue? x = none := by
      rw [Variables.initialValue?, Option.map_eq_none_iff, List.find?_eq_none]
      intro slot hslot heq
      exact hx (List.mem_map.mpr ⟨slot, hslot, by simpa using heq⟩)
    rw [hnone]
  | some i =>
    obtain ⟨slot, hslot, hname⟩ := Option.map_eq_some_iff.mp ((h.vars x i).mp hi)
    have hmem : slot ∈ t.plainVars.slots := Array.mem_toList_iff.mpr (Array.mem_of_getElem? hslot)
    rw [← hname, Variables.initialValue?_of_mem hnodup hmem]
    simp [hslot]

/-- With their indexes the tables hold what they hold without them. -/
theorem plain_after (h : t.Sound) (steps : List TableStep) :
    (t.after steps).plainVars =
        (steps.filterMap TableStep.declaration?).foldl (fun v d => v.declare d.1 d.2) t.plainVars ∧
      (t.after steps).plainMessages =
        t.plainMessages.registerAll (steps.filterMap TableStep.text?) := by
  induction steps generalizing t with
  | nil => exact ⟨rfl, rfl⟩
  | cons a steps ih =>
    obtain ⟨hvars, hmessages⟩ := ih (h.step a)
    cases a with
    | declare x initial =>
      refine ⟨?_, hmessages⟩
      refine hvars.trans ?_
      rw [show (t.step (.declare x initial)).plainVars = _ from h.plainVars_declare x initial]
      rfl
    | register s =>
      refine ⟨hvars, ?_⟩
      refine hmessages.trans ?_
      rw [show (t.step (.register s)).plainMessages = _ from (h.register_eq s).2]
      rfl

theorem nodup_texts (h : t.Sound) : t.plainMessages.texts.Nodup := by
  have hkeys : t.messages.keys id = t.plainMessages.texts := List.map_id _
  rw [← hkeys]
  exact h.messages.nodup_keys

/-- In a table that holds a text, the label of that text stands before it and before nothing
else. -/
theorem label_eq_iff (h : t.Sound) {s s' label : String} (hs : s ∈ t.plainMessages.texts)
    (hmem : (label, s') ∈ t.entries) : label = messageLabel (t.plainMessages.idOf s) ↔ s' = s := by
  obtain ⟨⟨text, i⟩, hi, heq⟩ := List.mem_map.mp hmem
  obtain ⟨rfl, rfl⟩ := Prod.mk.inj heq
  have hi' : t.plainMessages.texts[i]? = some text := List.mem_zipIdx_iff_getElem?.mp hi
  obtain ⟨hlt, hget⟩ := List.getElem?_eq_some_iff.mp hi'
  have hidx : t.plainMessages.idOf text = i := by
    rw [Messages.idOf, ← hget]
    exact h.nodup_texts.idxOf_getElem i hlt
  constructor
  · intro hlabel
    have hid : i = t.plainMessages.idOf s := messageLabel_injective hlabel
    rw [← hidx] at hid
    exact (List.idxOf_inj (List.mem_of_getElem? hi')).mp hid
  · rintro rfl
    rw [hidx]

end Sound

theorem prefix_after (t : IndexedTables) (steps : List TableStep) :
    t.vars.rows.toList <+: (t.after steps).vars.rows.toList ∧
      t.messages.rows.toList <+: (t.after steps).messages.rows.toList := by
  induction steps generalizing t with
  | nil => exact ⟨List.prefix_rfl, List.prefix_rfl⟩
  | cons a steps ih =>
    obtain ⟨hvars, hmessages⟩ := ih (t.step a)
    cases a with
    | declare x initial => exact ⟨(t.vars.prefix_enter _ _).trans hvars, hmessages⟩
    | register s => exact ⟨hvars, (t.messages.prefix_enter _ _).trans hmessages⟩

/-- A text that is registered keeps its place in the table. -/
theorem Sound.idOf_after (h : t.Sound) (s : String) (later : List TableStep) :
    s ∈ ((t.register s).2.after later).plainMessages.texts ∧
      ((t.register s).2.after later).plainMessages.idOf s = t.plainMessages.idOf s := by
  have hgrows : (t.register s).2.plainMessages.texts <+:
      ((t.register s).2.after later).plainMessages.texts := (prefix_after _ later).2
  have hmem : s ∈ (t.register s).2.plainMessages.texts := by
    rw [(h.register_eq s).2]
    exact Messages.mem_register _ _
  refine ⟨hgrows.subset hmem, ?_⟩
  rw [Messages.idOf_of_prefix hgrows hmem, (h.register_eq s).2, Messages.idOf_register]

/-- The tables after some steps from the start. -/
def built (steps : List TableStep) : IndexedTables := empty.after steps

theorem sound_built (steps : List TableStep) : (built steps).Sound :=
  .after ⟨Indexed.sound_empty, Indexed.sound_empty⟩ steps

/-- The tables after any steps. The index of each leads from a key to a place exactly if the key
stands there, and no key stands at two places. They hold and answer what the tables without an index
do. Rows stay where they are whatever is done later, and a declaration adds at most one row, for a
name that has none; so the initial value of a name is that of its first declaration, and looking it
up never leaves the table. A text gets a label that from then on stands before this text and before
no other one, and that no other text ever gets. -/
theorem built_indexed (steps : List TableStep) :
    ((∀ (x : String) (i : Nat), (built steps).vars.index[x]? = some i ↔
        (built steps).vars.rows[i]?.map Prod.fst = some x) ∧
      ∀ (s : String) (i : Nat), (built steps).messages.index[s]? = some i ↔
        (built steps).messages.rows[i]? = some s) ∧
    (((built steps).vars.rows.toList.map Prod.fst).Nodup ∧
      (built steps).messages.rows.toList.Nodup) ∧
    ((built steps).plainVars =
        (steps.filterMap TableStep.declaration?).foldl (fun v d => v.declare d.1 d.2) .empty ∧
      (built steps).plainMessages = Messages.empty.registerAll (steps.filterMap TableStep.text?) ∧
      (∀ s, ((built steps).register s).1 =
        messageLabel ((built steps).plainMessages.register s).1) ∧
      ∀ x, (built steps).initialValue x = .ok ((built steps).plainVars.initialValue? x)) ∧
    (∀ later, (built steps).vars.rows.toList <+: (built (steps ++ later)).vars.rows.toList ∧
      (built steps).messages.rows.toList <+: (built (steps ++ later)).messages.rows.toList) ∧
    (∀ x w, ((built steps).declare x w).vars.rows.toList = (built steps).vars.rows.toList ++
      if x ∈ (built steps).vars.rows.toList.map Prod.fst then [] else [(x, w)]) ∧
    (∀ x, (built steps).initialValue x =
      .ok (((steps.filterMap TableStep.declaration?).find? (·.1 == x)).map Prod.snd)) ∧
    ∀ s later,
      (((built steps).register s).1, s) ∈ (((built steps).register s).2.after later).entries ∧
      (∀ label s', (label, s') ∈ (((built steps).register s).2.after later).entries →
        (label = ((built steps).register s).1 ↔ s' = s)) ∧
      ∀ s', ((((built steps).register s).2.after later).register s').1 =
        ((built steps).register s).1 ↔
        s' = s := by
  have hsound := sound_built steps
  have hplain := Sound.plain_after (t := empty) ⟨Indexed.sound_empty, Indexed.sound_empty⟩ steps
  refine ⟨⟨hsound.vars, ?_⟩, ⟨hsound.vars.nodup_keys, hsound.nodup_texts⟩,
    ⟨hplain.1, hplain.2, fun s => (hsound.register_eq s).1, hsound.initialValue_eq⟩, ?_,
    fun x w => (hsound.vars.enter_eq (x, w)).2, ?_, ?_⟩
  · intro s i
    have hindex := hsound.messages s i
    rwa [Option.map_id_fun, id_eq] at hindex
  · intro later
    have happend : built (steps ++ later) = (built steps).after later := List.foldl_append
    rw [happend]
    exact prefix_after _ later
  · intro x
    have hfirst : (built steps).plainVars.initialValue? x = _ :=
      hplain.1 ▸ Variables.initialValue?_declareAll x _ .empty
    rw [hsound.initialValue_eq, hfirst]
    rfl
  · intro s later
    have hlater : (((built steps).register s).2.after later).Sound :=
      (hsound.step (.register s)).after later
    obtain ⟨hmem, hid⟩ := hsound.idOf_after s later
    have hlabel : ((built steps).register s).1 =
        messageLabel ((((built steps).register s).2.after later).plainMessages.idOf s) := by
      rw [hid, (hsound.register_eq s).1]
    rw [hlabel]
    refine ⟨Messages.mem_entries hmem, fun label s' => hlater.label_eq_iff hmem, ?_⟩
    intro s'
    rw [(hlater.register_eq s').1]
    constructor
    · intro heq
      exact ((List.idxOf_inj hmem).mp (messageLabel_injective heq).symm).symm
    · rintro rfl
      rfl

end IndexedTables

end ImpAsm

import Mathlib.Data.List.Induction
import Mathlib.Data.List.Nodup
import ImpAsm.Stmt.Symbols

namespace ImpAsm

/-- The one way in which tables grow: an element is added at the end, unless it is there already. -/
def addNew (xs : List String) (x : String) : List String := if x ∈ xs then xs else xs ++ [x]

section AddNew

variable {xs : List String} {x y : String}

theorem mem_addNew : y ∈ addNew xs x ↔ y ∈ xs ∨ y = x := by
  rw [addNew]
  split
  · next hx =>
    constructor
    · exact .inl
    · rintro (hy | rfl)
      · exact hy
      · exact hx
  · simp

theorem prefix_addNew (xs : List String) (x : String) : xs <+: addNew xs x := by
  rw [addNew]
  split
  · exact List.prefix_rfl
  · exact List.prefix_append _ _

theorem nodup_addNew (h : xs.Nodup) (x : String) : (addNew xs x).Nodup := by
  rw [addNew]
  split
  · exact h
  · next hx => exact List.nodup_append_comm.mp (List.nodup_cons.mpr ⟨hx, h⟩)

variable (xs) (ys : List String)

theorem prefix_foldl_addNew : xs <+: ys.foldl addNew xs := by
  induction ys generalizing xs with
  | nil => exact List.prefix_rfl
  | cons y ys ih => exact (prefix_addNew xs y).trans (ih (addNew xs y))

theorem nodup_foldl_addNew (h : xs.Nodup) : (ys.foldl addNew xs).Nodup := by
  induction ys generalizing xs with
  | nil => exact h
  | cons y ys ih => exact ih _ (nodup_addNew h y)

/-- A table that starts empty holds each element once, in the order of their first uses. -/
theorem foldl_addNew : ys.foldl addNew [] = ys.eraseDups := by
  induction ys using List.reverseRecOn with
  | nil => rfl
  | append_singleton ys y ih =>
    rw [List.foldl_concat, ih, List.eraseDups_append, addNew]
    by_cases hy : y ∈ ys
    · simp [List.removeAll, hy]
    · simp [List.removeAll, hy, List.eraseDups_cons]

end AddNew

namespace Messages

variable (m : Messages) (s : String)

/-- The table after more texts. -/
def registerAll (texts : List String) : Messages := texts.foldl (fun m s => (m.register s).2) m

theorem texts_register : (m.register s).2.texts = addNew m.texts s := by
  rw [register, idOf, addNew]
  by_cases hs : s ∈ m.texts
  · simp [hs, List.idxOf_lt_length_of_mem hs]
  · simp [hs]

theorem prefix_register : m.texts <+: (m.register s).2.texts := by
  rw [texts_register]
  exact prefix_addNew _ _

theorem mem_register : s ∈ (m.register s).2.texts := by
  rw [texts_register]
  exact mem_addNew.mpr (.inr rfl)

theorem texts_registerAll (texts : List String) :
    (m.registerAll texts).texts = texts.foldl addNew m.texts := by
  rw [registerAll]
  induction texts generalizing m with
  | nil => rfl
  | cons s texts ih => rw [List.foldl_cons, List.foldl_cons, ih, texts_register]

variable {m s}

/-- A text keeps its number when others are added. -/
theorem idOf_of_prefix {m' : Messages} (h : m.texts <+: m'.texts) (hs : s ∈ m.texts) :
    m'.idOf s = m.idOf s := by
  obtain ⟨more, hmore⟩ := h
  rw [idOf, ← hmore, List.idxOf_append_of_mem hs, idOf]

/-- A text gets the number under which it is in the table afterwards. -/
theorem idOf_register : (m.register s).2.idOf s = m.idOf s := by
  rw [idOf, texts_register, addNew]
  by_cases hs : s ∈ m.texts
  · rw [if_pos hs, idOf]
  · rw [if_neg hs, List.idxOf_append_of_notMem hs, idOf, List.idxOf_eq_length hs]
    simp

theorem mem_entries (hs : s ∈ m.texts) : (messageLabel (m.idOf s), s) ∈ m.entries := by
  have hlt : m.idOf s < m.texts.length := List.idxOf_lt_length_of_mem hs
  refine List.mem_map.mpr ⟨(s, m.idOf s), ?_, rfl⟩
  rw [List.mem_zipIdx_iff_getElem?]
  simp [idOf, List.getElem?_idxOf hs]

theorem map_entries_fst :
    m.entries.map Prod.fst = (List.range m.texts.length).map messageLabel := by
  have hfst :
      (Prod.fst ∘ fun x : String × Nat => (messageLabel x.2, x.1)) = messageLabel ∘ Prod.snd := rfl
  rw [entries, List.map_map, hfst, ← List.map_map, List.zipIdx_map_snd, List.range_eq_range']

theorem map_entries_snd : m.entries.map Prod.snd = m.texts := by
  have hsnd : (Prod.snd ∘ fun x : String × Nat => (messageLabel x.2, x.1)) = Prod.fst := rfl
  rw [entries, List.map_map, hsnd, List.zipIdx_map_fst]

end Messages

/-- The names of the variables of a table. -/
def Variables.names (v : Variables) : List String := v.slots.map Prod.fst

namespace Variables

variable {v : Variables}

theorem names_declare (x : String) (w : Int32) : (v.declare x w).names = addNew v.names x := by
  have hcontains : v.contains x ↔ x ∈ v.names := by simp [contains, names]
  rw [declare, addNew]
  by_cases hx : x ∈ v.names
  · rw [if_pos (hcontains.mpr hx), if_pos hx]
  · rw [if_neg (mt hcontains.mp hx), if_neg hx]
    simp [names]

theorem names_foldl (v : Variables) (ls : List (String × Expr)) :
    (ls.foldl (fun v l => v.declare l.1 l.2.initialValue) v).names =
      (ls.map Prod.fst).foldl addNew v.names := by
  induction ls generalizing v with
  | nil => rfl
  | cons l ls ih => rw [List.foldl_cons, ih, names_declare, List.map_cons, List.foldl_cons]

/-- A variable that has one place has the value that stands there. -/
theorem initialValue?_of_mem (h : v.names.Nodup) {slot : String × Int32} (hslot : slot ∈ v.slots) :
    v.initialValue? slot.1 = some slot.2 := by
  rw [initialValue?]
  cases hfind : v.slots.find? (·.1 == slot.1) with
  | none => exact absurd (List.find?_eq_none.mp hfind slot hslot) (by simp)
  | some found =>
    have hname : found.1 = slot.1 := by simpa using List.find?_some hfind
    obtain rfl := List.inj_on_of_nodup_map h (List.mem_of_find?_eq_some hfind) hslot hname
    rfl

end Variables

namespace Symbols

variable (s : Symbols) (f : String)

theorem externals_addExternal : (s.addExternal f).externals = addNew s.externals f := by
  rw [addExternal, addNew]
  simp only [List.contains_iff_mem]
  split <;> rfl

theorem vars_addExternal : (s.addExternal f).vars = s.vars := by
  rw [addExternal]
  split <;> rfl

end Symbols

end ImpAsm

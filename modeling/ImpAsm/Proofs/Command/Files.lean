import Mathlib
import ImpAsm.Command.Files

namespace ImpAsm

variable {σ File : Type}

namespace FileSystem

/-- Reads what a command names as its input. -/
def source {m : Type → Type} (fs : FileSystem m) (input : String) : m (Except String String) :=
  if input = "-" then fs.standardInput else fs.read input

/-- Reading changes no file, and writing changes the file that the path means and no other. What a
file holds in a state is told by `contents`, which knows of no text for a file that does not
exist. -/
structure Lawful (fs : FileSystem (StateM σ)) (file : String → File)
    (contents : σ → File → Option String) : Prop where
  standardInput : ∀ s, contents (fs.standardInput.run s).2 = contents s
  read : ∀ path s, contents ((fs.read path).run s).2 = contents s
  written : ∀ path text s, ((fs.write path text).run s).1 = .ok () →
    contents ((fs.write path text).run s).2 (file path) = some text
  kept : ∀ path text s, ((fs.write path text).run s).1 = .ok () →
    ∀ f ≠ file path, contents ((fs.write path text).run s).2 f = contents s f

theorem Lawful.source {fs : FileSystem (StateM σ)} {file : String → File}
    {contents : σ → File → Option String} (h : fs.Lawful file contents) (input : String) (s : σ) :
    contents ((fs.source input).run s).2 = contents s := by
  unfold FileSystem.source
  split
  · exact h.standardInput s
  · exact h.read input s

end FileSystem

theorem run_bind_of {α β : Type} {x : StateM σ α} {s s' : σ} {a : α} (h : x.run s = (a, s'))
    (f : α → StateM σ β) : (x >>= f).run s = (f a).run s' := by
  rw [StateT.run_bind, h]
  rfl

theorem run_get (s : σ) : (get : StateM σ σ).run s = (s, s) := rfl

namespace Directory

theorem lookup_cons_ite (name text other : String) (files : List (String × String)) :
    ((name, text) :: files).lookup other =
      if other = name then some text else files.lookup other := by
  rw [List.lookup_cons]
  by_cases h : other = name
  · simp [h]
  · rw [beq_false_of_ne h, if_neg h]

/-- Replacing the text of a file changes no other file, and makes none. -/
theorem lookup_replace (files : List (String × String)) (name text other : String) :
    (files.map fun f => if f.1 = name then (name, text) else f).lookup other =
      if other = name then (files.lookup name).map fun _ => text else files.lookup other := by
  induction files with
  | nil => simp
  | cons f files ih =>
    obtain ⟨n, old⟩ := f
    rw [List.map_cons]
    by_cases hn : n = name
    · subst hn
      rw [if_pos rfl, lookup_cons_ite, lookup_cons_ite, lookup_cons_ite, ih]
      split <;> simp
    · rw [if_neg hn, lookup_cons_ite, lookup_cons_ite, lookup_cons_ite, ih, if_neg (Ne.symm hn)]
      by_cases ho : other = name
      · rw [if_pos ho, if_pos ho, if_neg (ho ▸ Ne.symm hn)]
      · rw [if_neg ho, if_neg ho]

/-- A file that has been put into a directory is there, and all other files are as they were. -/
theorem lookup_put (d : Directory) (name text other : String) :
    (d.put name text).files.lookup other =
      if other = name then some text else d.files.lookup other := by
  have hmem : (d.files.any fun f => f.1 == name) ↔ (d.files.lookup name).isSome := by
    rw [List.any_eq_true, List.lookup_isSome_iff]
    simp only [beq_iff_eq, eq_comm (a := name)]
  unfold put
  split
  · next h =>
    obtain ⟨old, hold⟩ := Option.isSome_iff_exists.mp (hmem.mp h)
    rw [lookup_replace, hold]
    rfl
  · next h =>
    have hnone : d.files.lookup name = none := by
      rw [hmem] at h
      exact Option.not_isSome_iff_eq_none.mp h
    rw [List.lookup_append, lookup_cons_ite]
    by_cases ho : other = name
    · simp [ho, hnone]
    · simp [ho]

/-- What a directory holds as a file, if a path leads to one. -/
def contents (d : Directory) (file : Option String) : Option String :=
  file.bind fun name => d.files.lookup name

theorem run_write (standardInput path text : String) (d : Directory) :
    ((fileSystem standardInput).write path text).run d =
      match fileName? path with
      | some name => (.ok (), d.put name text)
      | none => (.error noSuchFile, d) := by
  rw [fileSystem, run_bind_of (run_get d), write?]
  cases fileName? path <;> rfl

theorem run_write_eq_ok {standardInput path text : String} {d : Directory}
    (h : (((fileSystem standardInput).write path text).run d).1 = .ok ()) :
    ∃ name, fileName? path = some name ∧
      (((fileSystem standardInput).write path text).run d).2 = d.put name text := by
  rw [run_write] at h ⊢
  cases hname : fileName? path with
  | none => simp [hname] at h
  | some name => exact ⟨name, rfl, rfl⟩

theorem lawful_fileSystem (standardInput : String) :
    (fileSystem standardInput).Lawful fileName? contents where
  standardInput := fun _ => rfl
  read := by
    intro path d
    have hrun : (((fileSystem standardInput).read path).run d).2 = d := by
      rw [fileSystem, run_bind_of (run_get d)]
      cases d.read? path <;> rfl
    rw [hrun]
  written := by
    intro path text d h
    obtain ⟨name, hname, hd⟩ := run_write_eq_ok h
    rw [hd, hname, contents, Option.bind_some, lookup_put, if_pos rfl]
  kept := by
    intro path text d h f hf
    obtain ⟨name, hname, hd⟩ := run_write_eq_ok h
    rw [hname] at hf
    cases f with
    | none => rfl
    | some other =>
      rw [hd, contents, Option.bind_some, lookup_put, if_neg fun ho => hf (congrArg some ho)]
      rfl

end Directory

end ImpAsm

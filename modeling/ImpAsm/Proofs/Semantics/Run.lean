namespace ImpAsm

/-- How a program ends. -/
inductive Ending where
  | exited (status : Int32)
  | divideError
deriving DecidableEq

/-- What a run comes to: it goes on, it has ended, or it cannot go on. -/
inductive Progress (σ : Type) where
  | running (s : σ)
  | ended (e : Ending) (s : σ)
  | stuck (s : σ)

namespace Progress

variable {σ : Type}

def state : Progress σ → σ
  | running s => s
  | ended _ s => s
  | stuck s => s

/-- Goes on from a state that is not the last one. -/
def andThen (o : Progress σ) (f : σ → Progress σ) : Progress σ :=
  match o with
  | running s => f s
  | ended e s => ended e s
  | stuck s => stuck s

end Progress

section Run

variable {σ : Type} {step : σ → Progress σ} {s t : σ} {o : Progress σ} {j k : Nat}

/-- The outcome of at most `n` steps. -/
def runFor (step : σ → Progress σ) : Nat → σ → Progress σ
  | 0, s => .running s
  | n + 1, s => (step s).andThen (runFor step n)

theorem runFor_add (step : σ → Progress σ) (j k : Nat) (s : σ) :
    runFor step (j + k) s = (runFor step j s).andThen (runFor step k) := by
  induction j generalizing s with
  | zero => rw [Nat.zero_add]; rfl
  | succ j ih =>
    rw [Nat.succ_add, runFor, runFor]
    cases step s with
    | running t => exact ih t
    | ended e t => rfl
    | stuck t => rfl

theorem runFor_trans (h : runFor step j s = .running t) (h' : runFor step k t = o) :
    runFor step (j + k) s = o := by
  rw [runFor_add, h]
  exact h'

/-- A run that goes on after `k` steps was going on before. -/
theorem runFor_running_of_le (h : runFor step k s = .running t) (hj : j ≤ k) :
    ∃ m, runFor step j s = .running m ∧ runFor step (k - j) m = .running t := by
  obtain ⟨i, rfl⟩ := Nat.exists_eq_add_of_le hj
  rw [runFor_add] at h
  cases hm : runFor step j s with
  | running m =>
    rw [hm] at h
    exact ⟨m, rfl, by rwa [Nat.add_sub_cancel_left]⟩
  | ended e m => simp [hm, Progress.andThen] at h
  | stuck m => simp [hm, Progress.andThen] at h

/-- An end that is reached from the start is reached from every state on the way. -/
theorem runFor_rest (h : runFor step j s = .running t) (hj : j ≤ k) :
    runFor step k s = runFor step (k - j) t := by
  obtain ⟨i, rfl⟩ := Nat.exists_eq_add_of_le hj
  rw [Nat.add_sub_cancel_left]
  exact runFor_trans h rfl

/-- After an end nothing happens. -/
theorem runFor_ended_of_le {e : Ending} (h : runFor step j s = .ended e t) (hj : j ≤ k) :
    runFor step k s = .ended e t := by
  obtain ⟨i, rfl⟩ := Nat.exists_eq_add_of_le hj
  rw [runFor_add, h]
  rfl

/-- Some steps lead from one state to another. -/
def Reaches (step : σ → Progress σ) (s t : σ) : Prop := ∃ j, runFor step j s = .running t

/-- At least one step leads from one state to another. -/
def Advances (step : σ → Progress σ) (s t : σ) : Prop := ∃ j, 0 < j ∧ runFor step j s = .running t

/-- Some steps lead to an end. -/
def EndsIn (step : σ → Progress σ) (s : σ) (e : Ending) (t : σ) : Prop :=
  ∃ j, runFor step j s = .ended e t

variable {u : σ} {e : Ending}

theorem Reaches.refl (s : σ) : Reaches step s s := ⟨0, rfl⟩

theorem Reaches.trans (h : Reaches step s t) (h' : Reaches step t u) : Reaches step s u := by
  obtain ⟨j, hj⟩ := h
  obtain ⟨k, hk⟩ := h'
  exact ⟨j + k, runFor_trans hj hk⟩

theorem Advances.reaches (h : Advances step s t) : Reaches step s t := by
  obtain ⟨j, _, hj⟩ := h
  exact ⟨j, hj⟩

theorem Advances.of_step (h : step s = .running t) : Advances step s t :=
  ⟨1, Nat.one_pos, by simp [runFor, h, Progress.andThen]⟩

theorem Advances.trans (h : Advances step s t) (h' : Reaches step t u) : Advances step s u := by
  obtain ⟨j, hpos, hj⟩ := h
  obtain ⟨k, hk⟩ := h'
  exact ⟨j + k, by omega, runFor_trans hj hk⟩

theorem Reaches.advances (h : Reaches step s t) (h' : Advances step t u) : Advances step s u := by
  obtain ⟨j, hj⟩ := h
  obtain ⟨k, hpos, hk⟩ := h'
  exact ⟨j + k, by omega, runFor_trans hj hk⟩

end Run

end ImpAsm

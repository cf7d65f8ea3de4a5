import Mathlib.Data.List.Forall2
import ImpAsm.Proofs.Semantics.Run

namespace ImpAsm

variable {σ τ α β : Type}

/-- Two runs have the same observable behaviour: the first never gets stuck, they have the same
ends in states that agree, and each event of one is an event of the other, in the same order.
A run without an end is covered by its events. -/
structure SameBehaviour (run : Nat → Progress σ) (ref : Nat → Progress τ)
    (Agree SameTrace : σ → τ → Prop) : Prop where
  not_stuck : ∀ n s, run n ≠ .stuck s
  ends : ∀ n e s, run n = .ended e s → ∃ k t, ref k = .ended e t ∧ Agree s t
  ends_of_ref : ∀ k e t, ref k = .ended e t → ∃ n s, run n = .ended e s ∧ Agree s t
  traces : ∀ n, ∃ k, SameTrace (run n).state (ref k).state
  traces_of_ref : ∀ k, ∃ n, SameTrace (run n).state (ref k).state

/-- A machine follows a reference: each step of the reference is done by steps of the machine. The
machine may stay where it is only if the reference gets smaller, and it adds at most one event. -/
structure Follows (step : σ → Progress σ) (refStep : τ → Progress τ) (Sim Agree : σ → τ → Prop)
    (trace : σ → List α) (refTrace : τ → List β) (Same : α → β → Prop) (size : τ → Nat) : Prop where
  prefix_step : ∀ s, trace s <+: trace (step s).state
  sim_trace : ∀ {s t}, Sim s t → List.Forall₂ Same (trace s) (refTrace t)
  agree_trace : ∀ {s t}, Agree s t → List.Forall₂ Same (trace s) (refTrace t)
  ref_not_stuck : ∀ {s t u}, Sim s t → refStep t ≠ .stuck u
  running : ∀ {s t t'}, Sim s t → refStep t = .running t' →
    ∃ j s', runFor step j s = .running s' ∧ Sim s' t' ∧ (j = 0 → size t' < size t) ∧
      (trace s').length ≤ (trace s).length + 1
  ended : ∀ {s t e t'}, Sim s t → refStep t = .ended e t' →
    ∃ j s', runFor step j s = .ended e s' ∧ Agree s' t' ∧ trace s' = trace s

namespace Follows

variable {step : σ → Progress σ} {refStep : τ → Progress τ} {Sim Agree : σ → τ → Prop}
  {trace : σ → List α} {refTrace : τ → List β} {Same : α → β → Prop} {size : τ → Nat}
  {s s' : σ} {t t' : τ} {e : Ending} {i j k : Nat}

theorem prefix_runFor (h : ∀ s, trace s <+: trace (step s).state) (k : Nat) (s : σ) :
    trace s <+: trace (runFor step k s).state := by
  induction k generalizing s with
  | zero => exact List.prefix_refl _
  | succ k ih =>
    have hs := h s
    rw [runFor]
    cases hstep : step s with
    | running u =>
      rw [hstep] at hs
      exact hs.trans (ih u)
    | ended e u => rwa [hstep] at hs
    | stuck u => rwa [hstep] at hs

/-- Between two states that differ in at most one event, a trace is the first or the last one. -/
theorem trace_between {as bs cs : List α} (hab : as <+: bs) (hbc : bs <+: cs)
    (hlen : cs.length ≤ as.length + 1) : bs = as ∨ bs = cs := by
  have hab' := hab.length_le
  have hbc' := hbc.length_le
  by_cases h : bs.length = as.length
  · exact .inl (hab.eq_of_length h.symm).symm
  · exact .inr (hbc.eq_of_length (by omega))

theorem trace_middle (h : ∀ s, trace s <+: trace (step s).state) {o : Progress σ}
    (hj : runFor step j s = o) (hi : i ≤ j) (hlen : (trace o.state).length ≤ (trace s).length + 1) :
    trace (runFor step i s).state = trace s ∨ trace (runFor step i s).state = trace o.state := by
  refine trace_between (prefix_runFor h i s) ?_ hlen
  obtain ⟨m, rfl⟩ := Nat.exists_eq_add_of_le hi
  rw [runFor_add] at hj
  cases hrun : runFor step i s with
  | running u =>
    rw [hrun] at hj
    rw [← hj]
    exact prefix_runFor h m u
  | ended e u =>
    rw [hrun] at hj
    rw [← hj]
    exact List.prefix_refl _
  | stuck u =>
    rw [hrun] at hj
    rw [← hj]
    exact List.prefix_refl _

variable (step refStep Agree trace refTrace Same) in
/-- What a machine has done after `k` steps is what the reference does. -/
structure Explained (k : Nat) (s : σ) (t : τ) : Prop where
  not_stuck : ∀ u, runFor step k s ≠ .stuck u
  ends : ∀ e u, runFor step k s = .ended e u → ∃ n t', runFor refStep n t = .ended e t' ∧ Agree u t'
  trace : ∃ n,
    List.Forall₂ Same (trace (runFor step k s).state) (refTrace (runFor refStep n t).state)

variable (h : Follows step refStep Sim Agree trace refTrace Same size)

include h

/-- Steps of the reference are done by steps of the machine. -/
theorem runFor_ref (hsim : Sim s t) (k : Nat) :
    (∃ t' n s', runFor refStep k t = .running t' ∧ runFor step n s = .running s' ∧ Sim s' t') ∨
      ∃ e t' n s', runFor refStep k t = .ended e t' ∧ runFor step n s = .ended e s' ∧
        Agree s' t' := by
  induction k generalizing s t with
  | zero => exact .inl ⟨t, 0, s, rfl, rfl, hsim⟩
  | succ k ih =>
    rw [runFor]
    cases hstep : refStep t with
    | running u =>
      obtain ⟨j, m, hj, hm, _, _⟩ := h.running hsim hstep
      rcases ih hm with ⟨t', n, s', ht', hs', hsim'⟩ | ⟨e, t', n, s', ht', hs', hagree⟩
      · exact .inl ⟨t', j + n, s', ht', runFor_trans hj hs', hsim'⟩
      · exact .inr ⟨e, t', j + n, s', ht', runFor_trans hj hs', hagree⟩
    | ended e u =>
      obtain ⟨j, m, hj, hagree, _⟩ := h.ended hsim hstep
      exact .inr ⟨e, u, j, m, rfl, hj, hagree⟩
    | stuck u => exact absurd hstep (h.ref_not_stuck hsim)

/-- Until the reference ends, a machine that follows it has done what the reference has done. -/
theorem explained_of_ended (hsim : Sim s t) (hstep : refStep t = .ended e t') (k : Nat) :
    Explained step refStep Agree trace refTrace Same k s t := by
  obtain ⟨j, s', hj, hagree, htrace⟩ := h.ended hsim hstep
  have hend : runFor refStep 1 t = .ended e t' := by simp [runFor, hstep, Progress.andThen]
  by_cases hk : k < j
  · have hsame : trace (runFor step k s).state = trace s := by
      rcases trace_middle h.prefix_step hj (Nat.le_of_lt hk) (by simp [Progress.state, htrace])
        with hm | hm
      · exact hm
      · exact hm.trans htrace
    refine ⟨?_, ?_, 0, hsame ▸ h.sim_trace hsim⟩
    · intro u hu
      obtain ⟨i, rfl⟩ := Nat.exists_eq_add_of_le (Nat.le_of_lt hk)
      rw [runFor_add, hu] at hj
      simp [Progress.andThen] at hj
    · intro e' u hu
      have hlast := runFor_ended_of_le hu (Nat.le_of_lt hk)
      rw [hj] at hlast
      obtain ⟨rfl, rfl⟩ : e = e' ∧ s' = u := by simpa using hlast
      exact ⟨1, t', hend, hagree⟩
  · have hlast := runFor_ended_of_le hj (Nat.le_of_not_lt hk)
    refine ⟨by simp [hlast], ?_, 1, ?_⟩
    · intro e' u hu
      obtain ⟨rfl, rfl⟩ : e = e' ∧ s' = u := by simpa [hlast] using hu
      exact ⟨1, t', hend, hagree⟩
    · rw [hlast, hend]
      exact h.agree_trace hagree

/-- Within the steps of a machine for one step of the reference, it has done what the reference has
done before or after that step. -/
theorem explained_of_lt (hsim : Sim s t) (hsim' : Sim s' t') (hstep : refStep t = .running t')
    (hj : runFor step j s = .running s') (hlen : (trace s').length ≤ (trace s).length + 1)
    (hk : k < j) : Explained step refStep Agree trace refTrace Same k s t := by
  obtain ⟨u, hu, _⟩ := runFor_running_of_le hj (Nat.le_of_lt hk)
  refine ⟨by simp [hu], by simp [hu], ?_⟩
  rcases trace_middle h.prefix_step hj (Nat.le_of_lt hk) hlen with hm | hm
  · exact ⟨0, hm ▸ h.sim_trace hsim⟩
  · have hone : runFor refStep 1 t = .running t' := by simp [runFor, hstep, Progress.andThen]
    refine ⟨1, ?_⟩
    rw [hm, hone]
    exact h.sim_trace hsim'

omit h in
/-- What is explained after a step of the reference is explained before it. -/
theorem Explained.of_step (hstep : refStep t = .running t') (hj : runFor step j s = .running s')
    (hk : j ≤ k) (hrest : Explained step refStep Agree trace refTrace Same (k - j) s' t') :
    Explained step refStep Agree trace refTrace Same k s t := by
  have hrun := runFor_rest hj hk
  have hone (n : Nat) : runFor refStep (n + 1) t = runFor refStep n t' := by
    simp [runFor, hstep, Progress.andThen]
  obtain ⟨n, htrace⟩ := hrest.trace
  refine ⟨hrun ▸ hrest.not_stuck, ?_, n + 1, by rwa [hrun, hone]⟩
  intro e u hu
  obtain ⟨m, t'', ht'', hagree⟩ := hrest.ends e u (hrun ▸ hu)
  exact ⟨m + 1, t'', by rwa [hone], hagree⟩

/-- All steps of the machine are explained. The induction is on the steps of the machine, and on the
size of the reference where the machine takes none. -/
theorem explained (hsim : Sim s t) (k : Nat) :
    Explained step refStep Agree trace refTrace Same k s t := by
  induction k using Nat.strongRecOn generalizing s t with
  | ind k ihk =>
    induction hsize : size t using Nat.strongRecOn generalizing s t with
    | ind m ihm =>
      subst hsize
      cases hstep : refStep t with
      | stuck u => exact absurd hstep (h.ref_not_stuck hsim)
      | ended e u => exact h.explained_of_ended hsim hstep k
      | running u =>
        obtain ⟨j, s', hj, hsim', hsmall, hlen⟩ := h.running hsim hstep
        by_cases hk : k < j
        · exact h.explained_of_lt hsim hsim' hstep hj hlen hk
        · have hle : j ≤ k := Nat.le_of_not_lt hk
          cases j with
          | zero => exact .of_step hstep hj hle (ihm (size u) (hsmall rfl) hsim' rfl)
          | succ j => exact .of_step hstep hj hle (ihk (k - (j + 1)) (by omega) hsim')

/-- A machine that follows a reference has its behaviour. -/
theorem sameBehaviour (hsim : Sim s t) :
    SameBehaviour (fun n => runFor step n s) (fun n => runFor refStep n t) Agree
      (fun s t => List.Forall₂ Same (trace s) (refTrace t)) where
  not_stuck := fun n => (h.explained hsim n).not_stuck
  ends := fun n => (h.explained hsim n).ends
  ends_of_ref := by
    intro k e u hu
    rcases h.runFor_ref hsim k with ⟨t', n, s', ht', _⟩ | ⟨e', t', n, s', ht', hs', hagree⟩
    · simp [ht'] at hu
    · obtain ⟨rfl, rfl⟩ : e' = e ∧ t' = u := by simpa [ht'] using hu
      exact ⟨n, s', hs', hagree⟩
  traces := fun n => (h.explained hsim n).trace
  traces_of_ref := by
    intro k
    rcases h.runFor_ref hsim k with ⟨t', n, s', ht', hs', hsim'⟩ | ⟨e, t', n, s', ht', hs', hagree⟩
    · refine ⟨n, ?_⟩
      rw [ht', hs']
      exact h.sim_trace hsim'
    · refine ⟨n, ?_⟩
      rw [ht', hs']
      exact h.agree_trace hagree

end Follows

end ImpAsm

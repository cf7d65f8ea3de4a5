import Mathlib
import ImpAsm.Stmt.Code
import ImpAsm.Stmt.Scope

namespace ImpAsm

/-- The names that an expression uses. -/
def Expr.names : Expr → List String
  | num _ | bool _ => []
  | ident x => [x]
  | binary _ l r => l.names ++ r.names
  | unary _ e => e.names

/-- Instructions that work on registers and the stack. -/
def Instr.isLocal : Instr → Bool
  | load _ _ | store _ _ | address _ _ | jump _ | jumpEqual _ | call _ | syscall => false
  | _ => true

/-- The code of an expression reads its names. -/
theorem mem_code {e : Expr} : ∀ i ∈ e.code, i.isLocal ∨ ∃ x ∈ e.names, i = .load .rax x := by
  induction e with
  | num w | bool b => simp [Expr.code, Instr.isLocal]
  | ident x => simp [Expr.code, Expr.names]
  | unary op e ih =>
    intro i hi
    rw [Expr.code, List.mem_append] at hi
    rcases hi with hi | hi
    · exact ih i hi
    · left
      revert i
      cases op <;> simp [UnOp.apply, truth, Instr.isLocal]
  | binary op l r ihl ihr =>
    have hop : ∀ i ∈ op.combine, i.isLocal := by
      cases op <;> simp [BinOp.combine, truth, truthOfBoth, Instr.isLocal]
    intro i hi
    simp only [Expr.code, List.mem_append, List.mem_cons] at hi
    simp only [Expr.names, List.mem_append]
    rcases hi with hi | rfl | hi | rfl | hi
    · exact (ihr i hi).imp_right fun ⟨x, hx, h⟩ => ⟨x, .inr hx, h⟩
    · exact .inl rfl
    · exact (ihl i hi).imp_right fun ⟨x, hx, h⟩ => ⟨x, .inl hx, h⟩
    · exact .inl rfl
    · exact .inl (hop i hi)

theorem mem_argumentsCode {args : List Expr} :
    ∀ i ∈ argumentsCode args, i.isLocal ∨ ∃ x ∈ args.flatMap Expr.names, i = .load .rax x := by
  intro i hi
  simp only [argumentsCode, List.mem_flatMap, List.mem_reverse, List.mem_append,
    List.mem_singleton] at hi
  obtain ⟨e, he, hi | rfl⟩ := hi
  · exact (mem_code i hi).imp_right fun ⟨x, hx, h⟩ => ⟨x, List.mem_flatMap.mpr ⟨e, he, hx⟩, h⟩
  · exact .inl rfl

theorem mem_callCode {f : String} {args : List Expr} : ∀ i ∈ callCode f args,
    i.isLocal ∨ (∃ x ∈ args.flatMap Expr.names, i = .load .rax x) ∨ i = .call f := by
  intro i hi
  simp only [callCode, List.mem_append, List.mem_map, List.mem_singleton] at hi
  rcases hi with ((((⟨r, _, rfl⟩ | hi) | ⟨r, _, rfl⟩) | rfl) | hi) | ⟨r, _, rfl⟩
  · exact .inl rfl
  · exact (mem_argumentsCode i hi).imp_right .inl
  · exact .inl rfl
  · exact .inr (.inr rfl)
  · split at hi
    · simp at hi
    · obtain rfl := List.mem_singleton.mp hi
      exact .inl rfl
  · exact .inl rfl

namespace Walk

variable {s t : Scope}

/-- The steps of a walk are taken one after the other. -/
theorem bind_eq_ok {α β : Type} {x : Walk α} {f : α → Walk β} {b : β} :
    (x >>= f) s = .ok b t ↔ ∃ a u, x s = .ok a u ∧ f a u = .ok b t := by
  change EStateM.bind x f s = _ ↔ _
  unfold EStateM.bind
  cases x s with
  | ok a u =>
    constructor
    · intro h
      exact ⟨a, u, rfl, h⟩
    · intro h
      obtain ⟨a', u', hx, hf⟩ := h
      obtain ⟨rfl, rfl⟩ : a = a' ∧ u = u' := by simpa using hx
      exact hf
  | error e u => simp

theorem report_eq_ok {e : Event} (h : report e s = .ok () t) :
    t.declared = s.declared ∧ t.messages = s.messages := by
  obtain rfl : { s with events := s.events.push e } = t := by
    injection h
  exact ⟨rfl, rfl⟩

theorem use_eq_ok {x : String} (h : use x s = .ok () t) : t = s ∧ x ∈ s.declared := by
  obtain ⟨u, v, hget, h⟩ := bind_eq_ok.mp h
  obtain ⟨rfl, rfl⟩ : s = u ∧ s = v := by
    injection hget with hu hv
    exact ⟨hu, hv⟩
  split at h
  · next hx =>
    obtain rfl : s = t := by injection h
    exact ⟨rfl, by simpa using hx⟩
  · exact absurd h (by simp [throw, throwThe, MonadExceptOf.throw, EStateM.throw])

/-- A walk over an expression declares and prints nothing, and all names of it are declared. -/
theorem expr_eq_ok {e : Expr} (h : expr e s = .ok () t) :
    t.declared = s.declared ∧ t.messages = s.messages ∧ ∀ x ∈ e.names, x ∈ s.declared := by
  induction e generalizing s t with
  | num w | bool b =>
    obtain rfl : s = t := by injection h
    exact ⟨rfl, rfl, by simp [Expr.names]⟩
  | ident x =>
    obtain ⟨rfl, hx⟩ := use_eq_ok h
    exact ⟨rfl, rfl, by simpa [Expr.names] using hx⟩
  | unary op e ih => exact ih h
  | binary op l r ihl ihr =>
    obtain ⟨_, u, hu, h⟩ := bind_eq_ok.mp h
    obtain ⟨_, v, hv, h⟩ := bind_eq_ok.mp h
    obtain ⟨hd, hm⟩ := report_eq_ok hu
    obtain ⟨hdr, hmr, hr⟩ := ihr hv
    obtain ⟨hdl, hml, hl⟩ := ihl h
    refine ⟨hdl.trans (hdr.trans hd), hml.trans (hmr.trans hm), ?_⟩
    intro x hx
    rw [Expr.names, List.mem_append] at hx
    rcases hx with hx | hx
    · exact hd ▸ hdr ▸ hl x hx
    · exact hd ▸ hr x hx

/-- All names of arguments are declared. -/
theorem arguments_eq_ok {es : List Expr} (h : arguments es s = .ok () t) :
    t.declared = s.declared ∧ t.messages = s.messages ∧
      ∀ e ∈ es, ∀ x ∈ e.names, x ∈ s.declared := by
  induction es generalizing s t with
  | nil =>
    obtain rfl : s = t := by injection h
    exact ⟨rfl, rfl, by simp⟩
  | cons e es ih =>
    obtain ⟨_, u, hu, h⟩ := bind_eq_ok.mp h
    obtain ⟨hd, hm, hes⟩ := ih hu
    obtain ⟨hd', hm', he⟩ := expr_eq_ok h
    refine ⟨hd'.trans hd, hm'.trans hm, ?_⟩
    intro e' he'
    rcases List.mem_cons.mp he' with rfl | he'
    · exact hd ▸ he
    · exact hes e' he'

end Walk

end ImpAsm

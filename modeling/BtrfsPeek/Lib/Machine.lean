import Mathlib.Tactic.Common

/-!
# Machines

A machine is a step function: what an event makes of a state, or nothing where the
event cannot happen there. A `Run` is any sequence of events from a state, with the
states they met.

* `Run.invariant`: what every step keeps holds at the end of every run;
* `Run.keeps_unless`: what every step keeps but some, holds unless one of these was
  taken;
* `Run.of_exec`: runs on events that are known.
-/

namespace Machine

variable {σ ε : Type}

/-- A run, its latest step first. -/
inductive Run (step : σ → ε → Option σ) (s₀ : σ) : List (σ × ε) → σ → Prop
  | start : Run step s₀ [] s₀
  | next {tr : List (σ × ε)} {s s' : σ} {e : ε} : Run step s₀ tr s → step s e = some s' →
      Run step s₀ ((s, e) :: tr) s'

/-- The state after some events. -/
def exec (step : σ → ε → Option σ) : σ → List ε → Option σ
  | s, [] => some s
  | s, e :: es => (step s e).bind fun s' => exec step s' es

namespace Run

variable {step : σ → ε → Option σ} {s₀ s : σ} {tr : List (σ × ε)} {I P : σ → Prop}

/-- What every step keeps holds at the end of every run. -/
theorem invariant (h : Run step s₀ tr s) (h₀ : I s₀)
    (hstep : ∀ s e s', I s → step s e = some s' → I s') : I s := by
  induction h with
  | start => exact h₀
  | next _ he ih => exact hstep _ _ _ ih he

/-- What every step from an `I` keeps, but those that are `bad`, holds at the end of
every run that took none of these. -/
theorem keeps_unless {bad : σ → ε → Prop} (h : Run step s₀ tr s) (hI : I s₀)
    (hstep : ∀ s e s', I s → step s e = some s' → I s') (h₀ : P s₀)
    (hgood : ∀ s e s', I s → P s → ¬ bad s e → step s e = some s' → P s') :
    P s ∨ ∃ x ∈ tr, bad x.1 x.2 := by
  induction h with
  | start => exact .inl h₀
  | @next tr s s' e hr he ih =>
    rcases ih with hP | ⟨x, hx, hbad⟩
    · by_cases hb : bad s e
      · exact .inr ⟨(s, e), List.mem_cons_self, hb⟩
      · exact .inl (hgood s e s' (hr.invariant hI hstep) hP hb he)
    · exact .inr ⟨x, List.mem_cons_of_mem _ hx, hbad⟩

theorem exec_append {es : List ε} {s' : σ} (h : Run step s₀ tr s) (he : exec step s es = some s') :
    ∃ tr', Run step s₀ tr' s' ∧ ∀ x ∈ tr', x ∈ tr ∨ x.2 ∈ es := by
  induction es generalizing tr s with
  | nil =>
    rw [exec, Option.some.injEq] at he
    exact ⟨tr, he ▸ h, fun x hx => .inl hx⟩
  | cons e es ih =>
    rw [exec, Option.bind_eq_some_iff] at he
    obtain ⟨s₁, hs₁, he⟩ := he
    obtain ⟨tr', hrun, hmem⟩ := ih (h.next hs₁) he
    refine ⟨tr', hrun, fun x hx => ?_⟩
    rcases hmem x hx with hx | hx
    · rcases List.mem_cons.mp hx with rfl | hx
      · exact .inr List.mem_cons_self
      · exact .inl hx
    · exact .inr (List.mem_cons_of_mem _ hx)

/-- Events that are known make a run, of these events. -/
theorem of_exec_events {es : List ε} (h : exec step s₀ es = some s) :
    ∃ tr, Run step s₀ tr s ∧ ∀ x ∈ tr, x.2 ∈ es := by
  obtain ⟨tr, hrun, hmem⟩ := exec_append .start h
  exact ⟨tr, hrun, fun x hx => (hmem x hx).resolve_left List.not_mem_nil⟩

theorem of_exec {es : List ε} (h : exec step s₀ es = some s) : ∃ tr, Run step s₀ tr s := by
  obtain ⟨tr, hrun, -⟩ := of_exec_events h
  exact ⟨tr, hrun⟩

end Run

end Machine

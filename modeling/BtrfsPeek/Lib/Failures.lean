import BtrfsPeek.Lib.Effect

/-!
# What a computation may fail with

A set of errors `E` that every part of a computation stays in, the whole stays in: unless the
state it ends in has a note of an answer that is not in it (`Noting`), which is kept once it
is there. The rules follow the ways computations are put together: `FailsWith.bind` and,
where a failure is caught, `FailsWith.attempt`.
-/

namespace Effect

variable {ε σ τ α β : Type} {E : ε → Prop}

/-- What `r` may have failed with is in `E`. -/
def Errs (E : ε → Prop) (r : Except ε α) : Prop := ∀ e, r = .error e → E e

namespace Errs

theorem ok (a : α) : Errs E (.ok a : Except ε α) := nofun

theorem error {e : ε} (h : E e) : Errs E (.error e : Except ε α) := by
  rintro _ ⟨⟩
  exact h

theorem bind {r : Except ε α} {f : α → Except ε β} (hr : Errs E r) (hf : ∀ a, Errs E (f a)) :
    Errs E (r >>= f) := by
  cases r with
  | ok a => exact hf a
  | error e => exact error (hr e rfl)

theorem ite {c : Prop} [Decidable c] {r q : Except ε α} (hr : c → Errs E r) (hq : ¬ c → Errs E q) :
    Errs E (if c then r else q) := by
  split_ifs with h
  · exact hr h
  · exact hq h

theorem mapError {ε' : Type} {E' : ε' → Prop} {g : ε → ε'} {r : Except ε α} (hr : Errs E r)
    (hg : ∀ e, E e → E' (g e)) : Errs E' (r.mapError g) := by
  cases r with
  | ok a => exact ok a
  | error e => exact error (hg e (hr e rfl))

end Errs

/-- What a state may have a note of. -/
class Noting (σ : Type) where
  hasNote : σ → Prop

export Noting (hasNote)

instance [Noting σ] [Noting τ] : Noting (σ × τ) := ⟨fun s => hasNote s.1 ∨ hasNote s.2⟩

/-- No state has a note. -/
abbrev Noting.never : Noting σ := ⟨fun _ => False⟩

/-- A note stays, and what `x` fails with is in `E` unless there is one then. -/
structure FailsWith [Noting σ] (E : ε → Prop) (x : EStateM ε σ α) : Prop where
  keeps : Keeps hasNote x
  errs : ∀ s e s', x s = .error e s' → E e ∨ hasNote s'

namespace FailsWith

variable [Noting σ] [Noting τ] {x : EStateM ε σ α} {f : α → EStateM ε σ β}

theorem mono {E' : ε → Prop} (hx : FailsWith E x) (h : ∀ e, E e → E' e) : FailsWith E' x :=
  ⟨hx.keeps, fun s e s' he => (hx.errs s e s' he).imp_left (h e)⟩

theorem pure (a : α) : FailsWith E (pure a : EStateM ε σ α) := ⟨.pure a, nofun⟩

theorem get : FailsWith E (get : EStateM ε σ σ) := ⟨.get, nofun⟩

theorem modify {g : σ → σ} (h : ∀ s, hasNote s → hasNote (g s)) :
    FailsWith E (modify g : EStateM ε σ PUnit) := ⟨.modify h, nofun⟩

theorem throw {e : ε} (h : E e) : FailsWith E (throw e : EStateM ε σ α) := by
  refine ⟨.throw e, ?_⟩
  rintro s _ s' ⟨⟩
  exact .inl h

theorem lift {r : Except ε α} (h : Errs E r) : FailsWith E (lift r : EStateM ε σ α) := by
  refine ⟨.lift r, fun s e s' he => .inl ?_⟩
  cases r with
  | ok a => cases he
  | error e' =>
    obtain ⟨rfl, -⟩ := EStateM.Result.error.inj he
    exact h e' rfl

theorem bind (hx : FailsWith E x) (hf : ∀ a, FailsWith E (f a)) : FailsWith E (x >>= f) := by
  refine ⟨hx.keeps.bind fun a => (hf a).keeps, fun s e s' h => ?_⟩
  rcases bind_error_iff.mp h with h | ⟨a, t, -, h⟩
  · exact hx.errs s e s' h
  · exact (hf a).errs t e s' h

/-- What follows need only be so of what `x` gives. -/
theorem bind_of {Q : α → Prop} (hx : FailsWith E x) (hq : ∀ s a s', x s = .ok a s' → Q a)
    (hf : ∀ a, Q a → FailsWith E (f a)) : FailsWith E (x >>= f) := by
  refine ⟨Ensures.of_state fun s hs => ?_, fun s e s' h => ?_⟩
  · rw [bind_run]
    cases hx' : x s with
    | ok a t => exact (hf a (hq s a t hx')).keeps.state (hx.keeps.ok hs hx')
    | error e t => exact hx.keeps.error hs hx'
  · rcases bind_error_iff.mp h with h | ⟨a, t, hx', h⟩
    · exact hx.errs s e s' h
    · exact (hf a (hq s a t hx')).errs t e s' h

theorem ite {c : Prop} [Decidable c] {y : EStateM ε σ α} (hx : c → FailsWith E x)
    (hy : ¬ c → FailsWith E y) : FailsWith E (if c then x else y) := by
  split_ifs with h
  · exact hx h
  · exact hy h

/-- What is caught may be thrown again. -/
theorem attempt {f : Except ε α → EStateM ε σ β} (hx : FailsWith E x)
    (hf : ∀ r, FailsWith (fun e => E e ∨ r = .error e) (f r)) :
    FailsWith E (attempt x >>= f) := by
  refine ⟨hx.keeps.attempt.bind fun r => (hf r).keeps, fun s e s' h => ?_⟩
  rcases bind_error_iff.mp h with h | ⟨r, t, hrun, h⟩
  · cases h
  · rcases (hf r).errs t e s' h with (he | rfl) | hs
    · exact .inl he
    · -- `x` failed with it, and what is noted then still is
      obtain ⟨hr, rfl⟩ := EStateM.Result.ok.inj hrun
      cases hx' : x s with
      | ok a s₁ =>
        rw [hx'] at hr
        cases hr
      | error e₁ s₁ =>
        rw [hx'] at hr h
        obtain rfl := Except.error.inj hr
        exact (hx.errs s _ s₁ hx').imp_right fun hs => (hf _).keeps.error hs h
    · exact .inr hs

theorem caught (hx : Keeps hasNote x) : FailsWith E (Effect.attempt x) := ⟨hx.attempt, nofun⟩

/-- Where it is not, it does not matter what it was. -/
theorem attempt_any {f : Except ε α → EStateM ε σ β} (hx : Keeps hasNote x)
    (hf : ∀ r, FailsWith E (f r)) : FailsWith E (Effect.attempt x >>= f) := (caught hx).bind hf

theorem onFst (hx : FailsWith E x) : FailsWith E (onFst x : EStateM ε (σ × τ) α) := by
  refine ⟨?_, fun s e s' h => ?_⟩
  · rintro ⟨s, t⟩ hs
    simp only [Effect.onFst]
    cases hr : x s with
    | ok a s' => exact hs.imp_left fun h => hx.keeps.ok h hr
    | error e s' => exact hs.imp_left fun h => hx.keeps.error h hr
  · unfold Effect.onFst at h
    cases hr : x s.1 with
    | ok a t => rw [hr] at h; cases h
    | error e' t =>
      rw [hr] at h
      obtain ⟨rfl, rfl⟩ := EStateM.Result.error.inj h
      exact (hx.errs s.1 _ t hr).imp_right .inl

theorem onSnd {x : EStateM ε τ α} (hx : FailsWith E x) :
    FailsWith E (onSnd x : EStateM ε (σ × τ) α) := by
  refine ⟨?_, fun s e s' h => ?_⟩
  · rintro ⟨s, t⟩ hs
    simp only [Effect.onSnd]
    cases hr : x t with
    | ok a t' => exact hs.imp_right fun h => hx.keeps.ok h hr
    | error e t' => exact hs.imp_right fun h => hx.keeps.error h hr
  · unfold Effect.onSnd at h
    cases hr : x s.2 with
    | ok a t => rw [hr] at h; cases h
    | error e' t =>
      rw [hr] at h
      obtain ⟨rfl, rfl⟩ := EStateM.Result.error.inj h
      exact (hx.errs s.2 _ t hr).imp_right .inr

/-- The second state, which is handed back, has no note. -/
theorem withLocal {x : EStateM ε (σ × τ) α} (hx : FailsWith E x) (hτ : ∀ t : τ, ¬ hasNote t) (t : τ) :
    FailsWith E (withLocal t x) := by
  have hfst {s : σ × τ} (h : hasNote s) : hasNote s.1 := h.resolve_right (hτ _)
  refine ⟨fun s hs => ?_, fun s e s' h => ?_⟩
  · simp only [Effect.withLocal]
    cases hr : x (s, t) with
    | ok a u => exact hfst (hx.keeps.ok (.inl hs) hr)
    | error e u => exact hfst (hx.keeps.error (.inl hs) hr)
  · unfold Effect.withLocal at h
    cases hr : x (s, t) with
    | ok a u => rw [hr] at h; cases h
    | error e' u =>
      rw [hr] at h
      obtain ⟨rfl, rfl⟩ := EStateM.Result.error.inj h
      exact (hx.errs _ _ u hr).imp_right hfst

theorem forEach {f : α → EStateM ε σ Unit} (hf : ∀ a, FailsWith E (f a)) :
    ∀ l : List α, FailsWith E (forEach f l)
  | [] => pure ()
  | a :: l => (hf a).bind fun _ => forEach hf l

theorem mapEach {f : α → EStateM ε σ β} (hf : ∀ a, FailsWith E (f a)) :
    ∀ l : List α, FailsWith E (mapEach f l)
  | [] => pure []
  | a :: l => (hf a).bind fun _ => (mapEach hf l).bind fun _ => pure _

end FailsWith

end Effect

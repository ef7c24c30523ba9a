import Mathlib.Data.List.Forall2
import Mathlib.Tactic.Common

/-!
# Computations that may fail over a state

A program that may fail and keeps its state when it does is an `EStateM`. This
module has the rules the proofs about such programs use:

* `bind_ok_iff`, `bind_error_iff`: what a successful and a failing sequence ran;
* `Returns`: what holds of a result, if there is one;
* `Result.value`, `Result.state`: the two halves of a run;
* `Ensures`: a triple with a postcondition for each of the two outcomes, and its
  rules (`Ensures.bind`, `Ensures.attempt`, `Ensures.forEach`);
* `Yields`: a computation whose outcome is the same from every state that
  satisfies an invariant, which it keeps;
* `Tracks`: two computations that run alike, unless it comes to what is excepted;
* `Notes`: a computation that does what another does, and notes something beside it;
* `Alike`: a computation that ends the same way from related states, which two
  runs of it keep related.
-/

namespace Effect

variable {ε σ τ α β : Type}

/-- What a run returned or failed with. -/
def Result.value : EStateM.Result ε σ α → Except ε α
  | .ok a _ => .ok a
  | .error e _ => .error e

/-- The state a run ended in. -/
def Result.state : EStateM.Result ε σ α → σ
  | .ok _ s => s
  | .error _ s => s

@[simp] theorem Result.value_ok (a : α) (s : σ) :
    Result.value (.ok a s : EStateM.Result ε σ α) = .ok a := rfl
@[simp] theorem Result.value_error (e : ε) (s : σ) :
    Result.value (.error e s : EStateM.Result ε σ α) = .error e := rfl
@[simp] theorem Result.state_ok (a : α) (s : σ) :
    Result.state (.ok a s : EStateM.Result ε σ α) = s := rfl
@[simp] theorem Result.state_error (e : ε) (s : σ) :
    Result.state (.error e s : EStateM.Result ε σ α) = s := rfl

/-- The run returned, and what it returned and the state it ended in pass the
test. -/
def Result.passes (test : α → σ → Bool) : EStateM.Result ε σ α → Bool
  | .ok a s => test a s
  | .error _ _ => false

theorem Result.exists_of_passes {test : α → σ → Bool} {r : EStateM.Result ε σ α}
    (h : Result.passes test r = true) : ∃ a s, r = .ok a s ∧ test a s = true := by
  cases r with
  | ok a s => exact ⟨a, s, rfl, h⟩
  | error e s => cases h

/-- The run that ends with `r` in `s`. -/
def done (r : Except ε α) (s : σ) : EStateM.Result ε σ α :=
  match r with
  | .ok a => .ok a s
  | .error e => .error e s

@[simp] theorem done_ok (a : α) (s : σ) : done (.ok a : Except ε α) s = .ok a s := rfl
@[simp] theorem done_error (e : ε) (s : σ) : done (.error e : Except ε α) s = .error e s := rfl
@[simp] theorem value_done (r : Except ε α) (s : σ) : Result.value (done r s) = r := by
  cases r <;> rfl
@[simp] theorem state_done (r : Except ε α) (s : σ) : Result.state (done r s) = s := by
  cases r <;> rfl

theorem done_value_state (r : EStateM.Result ε σ α) : done (Result.value r) (Result.state r) = r := by
  cases r <;> rfl

theorem Result.exists_done (r : EStateM.Result ε σ α) : ∃ x s, r = done x s :=
  ⟨_, _, (done_value_state r).symm⟩

theorem Result.ok_of_value {r : EStateM.Result ε σ α} {a : α} (h : Result.value r = .ok a) : ∃ s, r = .ok a s := by
  cases r with
  | ok b s => exact ⟨s, by rw [Except.ok.inj h]⟩
  | error e s => cases h

/-- A result that needs no state. -/
def lift (r : Except ε α) : EStateM ε σ α := done r

/-- Runs `x` and hands its outcome on, so that a failure goes no further. -/
def attempt (x : EStateM ε σ α) : EStateM ε σ (Except ε α) := fun s =>
  .ok (Result.value (x s)) (Result.state (x s))

/-- `x` on the first part of a pair of states. -/
def onFst (x : EStateM ε σ α) : EStateM ε (σ × τ) α := fun s =>
  done (Result.value (x s.1)) (Result.state (x s.1), s.2)

/-- `x` on the second part of a pair of states. -/
def onSnd (x : EStateM ε τ α) : EStateM ε (σ × τ) α := fun s =>
  done (Result.value (x s.2)) (s.1, Result.state (x s.2))

/-- `x` with a second state that starts as `t` and is handed back. -/
def withLocal (t : τ) (x : EStateM ε (σ × τ) α) : EStateM ε σ (α × τ) := fun s =>
  match x (s, t) with
  | .ok a s => .ok (a, s.2) s.1
  | .error e s => .error e s.1

/-- `f` on each element, in order, until one fails. -/
def forEach (f : α → EStateM ε σ Unit) : List α → EStateM ε σ Unit
  | [] => pure ()
  | a :: rest => do
    f a
    forEach f rest

/-- What `f` makes of each element, in order, unless one fails. -/
def mapEach (f : α → EStateM ε σ β) : List α → EStateM ε σ (List β)
  | [] => pure []
  | a :: rest => do
    let b ← f a
    let bs ← mapEach f rest
    pure (b :: bs)

/-- A sequence of results that needs no state succeeded: so did both parts. -/
theorem except_bind_ok {x : Except ε α} {f : α → Except ε β} {b : β} :
    (x >>= f) = .ok b ↔ ∃ a, x = .ok a ∧ f a = .ok b := by
  cases x <;> simp [bind, Except.bind]

/-- Every element gave its result. -/
theorem mapM_ok_iff {f : α → Except ε β} : ∀ {l : List α} {bs : List β},
    l.mapM f = .ok bs ↔ List.Forall₂ (fun a b => f a = .ok b) l bs
  | [], bs => by
    rw [List.mapM_nil, List.forall₂_nil_left_iff]
    exact ⟨fun h => (Except.ok.inj h).symm, fun h => by rw [h]; rfl⟩
  | a :: l, bs => by
    rw [List.mapM_cons, except_bind_ok, List.forall₂_cons_left_iff]
    constructor
    · rintro ⟨b, hb, h⟩
      obtain ⟨bs', hbs, h⟩ := except_bind_ok.mp h
      exact ⟨b, bs', hb, mapM_ok_iff.mp hbs, (Except.ok.inj h).symm⟩
    · rintro ⟨b, bs', hb, hbs, rfl⟩
      exact ⟨b, hb, except_bind_ok.mpr ⟨bs', mapM_ok_iff.mpr hbs, rfl⟩⟩

theorem exists_of_mem_mapM {f : α → Except ε β} {l : List α} {bs : List β}
    (h : l.mapM f = .ok bs) {b : β} (hb : b ∈ bs) : ∃ a ∈ l, f a = .ok b := by
  induction mapM_ok_iff.mp h with
  | nil => exact absurd hb List.not_mem_nil
  | @cons a b' l bs hab hr ih =>
    rcases List.mem_cons.mp hb with rfl | hb
    · exact ⟨a, List.mem_cons_self, hab⟩
    · obtain ⟨a', ha', hf⟩ := ih (mapM_ok_iff.mpr hr) hb
      exact ⟨a', List.mem_cons_of_mem _ ha', hf⟩

theorem exists_mem_mapM {f : α → Except ε β} {l : List α} {bs : List β}
    (h : l.mapM f = .ok bs) {a : α} (ha : a ∈ l) : ∃ b ∈ bs, f a = .ok b := by
  induction mapM_ok_iff.mp h with
  | nil => exact absurd ha List.not_mem_nil
  | @cons a' b l bs hab hr ih =>
    rcases List.mem_cons.mp ha with rfl | ha
    · exact ⟨b, List.mem_cons_self, hab⟩
    · obtain ⟨b', hb', hf⟩ := ih (mapM_ok_iff.mpr hr) ha
      exact ⟨b', List.mem_cons_of_mem _ hb', hf⟩

theorem mapM_ok_of_forall {f : α → Except ε β} : ∀ {l : List α}, (∀ a ∈ l, ∃ b, f a = .ok b) →
    ∃ bs, l.mapM f = .ok bs
  | [], _ => ⟨[], rfl⟩
  | a :: l, h => by
    obtain ⟨b, hb⟩ := h a List.mem_cons_self
    obtain ⟨bs, hbs⟩ := mapM_ok_of_forall fun a' ha => h a' (List.mem_cons_of_mem _ ha)
    exact ⟨b :: bs, by rw [List.mapM_cons, hb, hbs]; rfl⟩

/-- There is a result, and it satisfies `P`. -/
def Returns (x : Except ε α) (P : α → Prop) : Prop :=
  match x with
  | .ok a => P a
  | .error _ => False

instance (x : Except ε α) (P : α → Prop) [DecidablePred P] : Decidable (Returns x P) :=
  match x with
  | .ok a => inferInstanceAs (Decidable (P a))
  | .error _ => inferInstanceAs (Decidable False)

theorem returns_iff {x : Except ε α} {P : α → Prop} : Returns x P ↔ ∃ a, x = .ok a ∧ P a := by
  cases x <;> simp [Returns]

/-! ## Runs -/

section runs

variable {x : EStateM ε σ α} {f : α → EStateM ε σ β} {s s' s'' : σ} {a : α} {b : β} {e : ε}

theorem pure_run (a : α) (s : σ) : (pure a : EStateM ε σ α) s = .ok a s := rfl
theorem get_run (s : σ) : (get : EStateM ε σ σ) s = .ok s s := rfl
theorem modify_run (g : σ → σ) (s : σ) : (modify g : EStateM ε σ PUnit) s = .ok ⟨⟩ (g s) := rfl
theorem lift_run (r : Except ε α) (s : σ) : (lift r : EStateM ε σ α) s = done r s := rfl
theorem attempt_run (x : EStateM ε σ α) (s : σ) :
    attempt x s = .ok (Result.value (x s)) (Result.state (x s)) := rfl

theorem bind_run (x : EStateM ε σ α) (f : α → EStateM ε σ β) (s : σ) :
    (x >>= f) s = match x s with
      | .ok a s' => f a s'
      | .error e s' => .error e s' := rfl

theorem lift_ok_bind (a : α) (f : α → EStateM ε σ β) : (lift (.ok a) >>= f) = f a := rfl

theorem bind_of_ok (h : x s = .ok a s') : (x >>= f) s = f a s' := by
  rw [bind_run, h]

theorem bind_of_error (h : x s = .error e s') : (x >>= f) s = .error e s' := by
  rw [bind_run, h]

/-- A sequence succeeded: so did both its parts. -/
theorem bind_ok_iff : (x >>= f) s = .ok b s'' ↔ ∃ a s', x s = .ok a s' ∧ f a s' = .ok b s'' := by
  rw [bind_run]
  constructor
  · intro h
    split at h
    · rename_i a s' hx; exact ⟨a, s', hx, h⟩
    · cases h
  · rintro ⟨a, s', hx, hf⟩
    rw [hx]; exact hf

/-- A sequence failed: its first part did, or its second after its first. -/
theorem bind_error_iff : (x >>= f) s = .error e s'' ↔
    x s = .error e s'' ∨ ∃ a s', x s = .ok a s' ∧ f a s' = .error e s'' := by
  rw [bind_run]
  constructor
  · intro h
    split at h
    · rename_i a s' hx; exact .inr ⟨a, s', hx, h⟩
    · rename_i e' s' hx; rw [hx]
      cases h
      exact .inl rfl
  · rintro (hx | ⟨a, s', hx, hf⟩)
    · rw [hx]
    · rw [hx]; exact hf

end runs

/-! ## Triples -/

/-- From every state satisfying `P`, `x` returns with `Q` or fails with `E`. -/
def Ensures (P : σ → Prop) (x : EStateM ε σ α) (Q : α → σ → Prop) (E : ε → σ → Prop) : Prop :=
  ∀ s, P s → match x s with
    | .ok a s' => Q a s'
    | .error e s' => E e s'

namespace Ensures

variable {P P' : σ → Prop} {x : EStateM ε σ α} {f : α → EStateM ε σ β} {Q Q' : α → σ → Prop}
  {R : β → σ → Prop} {E E' : ε → σ → Prop}

theorem ok (h : Ensures P x Q E) {s s' : σ} {a : α} (hp : P s) (hx : x s = .ok a s') : Q a s' := by
  have := h s hp; rw [hx] at this; exact this

theorem error (h : Ensures P x Q E) {s s' : σ} {e : ε} (hp : P s) (hx : x s = .error e s') :
    E e s' := by
  have := h s hp; rw [hx] at this; exact this

theorem of_outcomes (hok : ∀ s a s', P s → x s = .ok a s' → Q a s')
    (herr : ∀ s e s', P s → x s = .error e s' → E e s') : Ensures P x Q E := by
  intro s hs
  cases hx : x s with
  | ok a s' => exact hok s a s' hs hx
  | error e s' => exact herr s e s' hs hx

/-- A run that is known. -/
theorem of_run {r : EStateM.Result ε σ α} {s : σ}
    (hr : match r with
      | .ok a s' => Q a s'
      | .error e s' => E e s') (h : x s = r) :
    match x s with
      | .ok a s' => Q a s'
      | .error e s' => E e s' := by
  rw [h]; exact hr

theorem mono (h : Ensures P x Q E) (hp : ∀ s, P' s → P s) (hq : ∀ a s, Q a s → Q' a s)
    (he : ∀ e s, E e s → E' e s) : Ensures P' x Q' E' := by
  intro s hs
  have := h s (hp s hs)
  split <;> rename_i hx <;> rw [hx] at this
  · exact hq _ _ this
  · exact he _ _ this

theorem pure {a : α} (h : ∀ s, P s → Q a s) : Ensures P (pure a) Q E := fun s hs => h s hs

theorem throw {e : ε} (h : ∀ s, P s → E e s) : Ensures P (throw e) Q E := fun s hs => h s hs

theorem get {Q : σ → σ → Prop} (h : ∀ s, P s → Q s s) : Ensures P get Q E := fun s hs => h s hs

theorem modify {g : σ → σ} {Q : PUnit → σ → Prop} (h : ∀ s, P s → Q ⟨⟩ (g s)) :
    Ensures P (modify g) Q E := fun s hs => h s hs

theorem bind (hx : Ensures P x Q E) (hf : ∀ a, Ensures (Q a) (f a) R E) :
    Ensures P (x >>= f) R E := by
  intro s hs
  rw [bind_run]
  cases hx' : x s with
  | ok a s' => exact hf a s' (hx.ok hs hx')
  | error e s' => exact hx.error hs hx'

theorem lift {r : Except ε α} (hok : ∀ a, r = .ok a → ∀ s, P s → Q a s)
    (herr : ∀ e, r = .error e → ∀ s, P s → E e s) : Ensures P (lift r) Q E := by
  intro s hs
  rw [lift_run]
  cases r with
  | ok a => exact hok a rfl s hs
  | error e => exact herr e rfl s hs

theorem attempt (h : Ensures P x Q E) :
    Ensures P (attempt x) (fun r s => match r with | .ok a => Q a s | .error e => E e s) E' := by
  intro s hs
  rw [attempt_run]
  have := h s hs
  cases hx : x s with
  | ok a s' => rw [hx] at this; exact this
  | error e s' => rw [hx] at this; exact this

/-- A computation on the first of two states leaves the second as it is. -/
theorem onFst (h : Ensures P x Q E) (t : τ) :
    Ensures (fun s : σ × τ => P s.1 ∧ s.2 = t) (onFst x) (fun a s => Q a s.1 ∧ s.2 = t)
      (fun e s => E e s.1) := by
  intro s hs
  have := h s.1 hs.1
  simp only [Effect.onFst]
  cases hx : x s.1 <;> rw [hx] at this <;> first | exact ⟨this, hs.2⟩ | exact this

/-- A computation on the first of two states, for what holds of both. -/
theorem onFst_of {x : EStateM ε σ α} {P : σ × τ → Prop} {Q : α → σ × τ → Prop}
    {E : ε → σ × τ → Prop} (h : ∀ t, Ensures (fun s => P (s, t)) x (fun a s => Q a (s, t))
      (fun e s => E e (s, t))) : Ensures P (Effect.onFst x) Q E := by
  rintro ⟨s, t⟩ hs
  have := h t s hs
  simp only [Effect.onFst]
  cases hx : x s <;> rw [hx] at this <;> exact this

theorem withLocal {x : EStateM ε (σ × τ) α} {t : τ} {Q : α × τ → σ → Prop}
    (h : Ensures (fun s : σ × τ => P s.1 ∧ s.2 = t) x (fun a s => Q (a, s.2) s.1)
      (fun e s => E e s.1)) : Ensures P (withLocal t x) Q E := by
  intro s hs
  have := h (s, t) ⟨hs, rfl⟩
  simp only [Effect.withLocal]
  cases hx : x (s, t) <;> rw [hx] at this <;> exact this

theorem and {R : α → σ → Prop} (h : Ensures P x Q E) (h' : Ensures P' x R E') :
    Ensures (fun s => P s ∧ P' s) x (fun a s => Q a s ∧ R a s) fun e s => E e s ∧ E' e s :=
  of_outcomes (fun _ _ _ hs hx => ⟨h.ok hs.1 hx, h'.ok hs.2 hx⟩)
    fun _ _ _ hs hx => ⟨h.error hs.1 hx, h'.error hs.2 hx⟩

/-- What is so of each state that it may start in. -/
theorem of_start (h : ∀ s, P s → Ensures (· = s) x Q E) : Ensures P x Q E := fun s hs => h s hs s rfl

/-- What holds however a run ends holds of the state it ends in. -/
theorem state {T : σ → Prop} (h : Ensures P x (fun _ => T) fun _ => T) {s : σ} (hs : P s) :
    T (Result.state (x s)) := by
  have := h s hs
  cases hx : x s <;> rw [hx] at this <;> exact this

/-- What holds of how a run ends and of the state it ends in. -/
theorem outcome {T : Except ε α → σ → Prop} (h : Ensures P x (fun a => T (.ok a)) fun e => T (.error e))
    {s : σ} (hs : P s) : T (Result.value (x s)) (Result.state (x s)) := by
  have := h s hs
  cases hx : x s <;> rw [hx] at this <;> exact this

theorem of_state {T : σ → Prop} (h : ∀ s, P s → T (Result.state (x s))) :
    Ensures P x (fun _ => T) fun _ => T := by
  intro s hs
  have := h s hs
  cases hx : x s <;> rw [hx] at this <;> exact this

/-- A loop keeps what its body keeps. -/
theorem forEach {f : α → EStateM ε σ Unit} :
    ∀ {l : List α}, (∀ a ∈ l, Ensures P (f a) (fun _ => P) E) →
      Ensures P (forEach f l) (fun _ => P) E
  | [], _ => Ensures.pure fun _ h => h
  | _ :: _, h =>
    (h _ (List.mem_cons_self ..)).bind fun _ => forEach fun b hb => h b (List.mem_cons_of_mem _ hb)

/-- What is known whatever the state. -/
theorem fact {p : Prop} (h : p → Ensures P x Q E) : Ensures (fun s => P s ∧ p) x Q E :=
  fun s hs => h hs.2 s hs.1

/-- What a loop returns, where its body keeps `P`. -/
theorem mapEach {f : α → EStateM ε σ β} {T : α → β → Prop} :
    ∀ {l : List α}, (∀ a ∈ l, Ensures P (f a) (fun b s => P s ∧ T a b) E) →
      Ensures P (mapEach f l) (fun bs s => P s ∧ ∀ b ∈ bs, ∃ a ∈ l, T a b) E
  | [], _ => Ensures.pure fun _ h => ⟨h, fun _ hb => absurd hb List.not_mem_nil⟩
  | a :: l, h => by
    refine (h a List.mem_cons_self).bind fun b => fact fun hb => ?_
    refine (mapEach fun a ha => h a (List.mem_cons_of_mem _ ha)).bind fun bs => fact fun hbs => ?_
    refine Ensures.pure fun s hs => ⟨hs, fun b' hb' => ?_⟩
    rcases List.mem_cons.mp hb' with rfl | hb'
    · exact ⟨a, List.mem_cons_self, hb⟩
    · obtain ⟨a', ha', ht⟩ := hbs b' hb'
      exact ⟨a', List.mem_cons_of_mem _ ha', ht⟩

end Ensures

/-- From every state satisfying `P`, `x` returns and keeps `P`. -/
abbrev Succeeds (P : σ → Prop) (x : EStateM ε σ α) : Prop :=
  Ensures P x (fun _ => P) (fun _ _ => False)

theorem Succeeds.value {P : σ → Prop} {x : EStateM ε σ α} (h : Succeeds P x) {s : σ} (hs : P s) :
    ∃ a, Result.value (x s) = .ok a := by
  have := h s hs
  cases hx : x s with
  | ok a s' => exact ⟨a, rfl⟩
  | error e s' => rw [hx] at this; exact this.elim

/-- However it ends, `x` keeps `P`. -/
abbrev Keeps (P : σ → Prop) (x : EStateM ε σ α) : Prop := Ensures P x (fun _ => P) (fun _ => P)

namespace Keeps

variable {P : σ → Prop} {x : EStateM ε σ α} {f : α → EStateM ε σ β}

theorem pure (a : α) : Keeps P (pure a : EStateM ε σ α) := fun _ h => h

theorem throw (e : ε) : Keeps P (throw e : EStateM ε σ α) := fun _ h => h

theorem get : Keeps P (get : EStateM ε σ σ) := fun _ h => h

theorem modify {g : σ → σ} (h : ∀ s, P s → P (g s)) : Keeps P (modify g : EStateM ε σ PUnit) :=
  fun s hs => h s hs

theorem lift (r : Except ε α) : Keeps P (lift r) := fun s h => by
  rw [lift_run]
  cases r <;> exact h

theorem bind (hx : Keeps P x) (hf : ∀ a, Keeps P (f a)) : Keeps P (x >>= f) := Ensures.bind hx hf

theorem attempt (hx : Keeps P x) : Keeps P (attempt x) := fun s hs => by
  have := hx s hs
  rw [attempt_run]
  cases h : x s <;> rw [h] at this <;> exact this

theorem ite {c : Prop} [Decidable c] {y : EStateM ε σ α} (hx : c → Keeps P x)
    (hy : ¬ c → Keeps P y) : Keeps P (if c then x else y) := by
  split_ifs with h
  · exact hx h
  · exact hy h

/-- What holds of the second of two states is kept by what works on the first. -/
theorem onFst {P : τ → Prop} (x : EStateM ε σ α) : Keeps (fun s : σ × τ => P s.2) (onFst x) := by
  intro s hs
  simp only [Effect.onFst]
  cases x s.1 <;> exact hs

theorem onSnd {P : τ → Prop} {x : EStateM ε τ α} (h : Keeps P x) :
    Keeps (fun s : σ × τ => P s.2) (onSnd x) := by
  intro s hs
  have := h s.2 hs
  simp only [Effect.onSnd]
  cases hx : x s.2 <;> rw [hx] at this <;> exact this

/-- There is no such state. -/
theorem of_false : Keeps (fun _ => False) x := fun _ h => h.elim

end Keeps

/-- Where `B` is kept, what is ensured is ensured unless `B`. -/
theorem Ensures.unless {B P : σ → Prop} {x : EStateM ε σ α} {Q : α → σ → Prop} {E : ε → σ → Prop}
    (hB : Keeps B x) (h : Ensures P x Q E) :
    Ensures (fun s => B s ∨ P s) x (fun a s => B s ∨ Q a s) fun e s => B s ∨ E e s := by
  rintro s (hs | hs)
  · have := hB s hs
    split <;> rename_i heq <;> rw [heq] at this <;> exact .inl this
  · have := h s hs
    split <;> rename_i heq <;> rw [heq] at this <;> exact .inr this

/-- From the states satisfying `P`, `y` runs as `x` does, which returns with `Q`
or fails with `E`. -/
def Coincide (P : σ → Prop) (x y : EStateM ε σ α) (Q : α → σ → Prop) (E : ε → σ → Prop) : Prop :=
  Ensures P x Q E ∧ ∀ s, P s → y s = x s

namespace Coincide

variable {P P' : σ → Prop} {x y : EStateM ε σ α} {f g : α → EStateM ε σ β} {Q Q' : α → σ → Prop}
  {R : β → σ → Prop} {E : ε → σ → Prop}

theorem refl (h : Ensures P x Q E) : Coincide P x x Q E := ⟨h, fun _ _ => rfl⟩

theorem bind (hx : Coincide P x y Q E) (hf : ∀ a, Coincide (Q a) (f a) (g a) R E) :
    Coincide P (x >>= f) (y >>= g) R E := by
  refine ⟨hx.1.bind fun a => (hf a).1, fun s hs => ?_⟩
  rw [bind_run, bind_run, hx.2 s hs]
  cases hr : x s with
  | ok a s' => exact (hf a).2 s' (hx.1.ok hs hr)
  | error e s' => rfl

theorem mono (h : Coincide P x y Q E) (hp : ∀ s, P' s → P s) (hq : ∀ a s, Q a s → Q' a s) :
    Coincide P' x y Q' E :=
  ⟨h.1.mono hp hq fun _ _ h => h, fun s hs => h.2 s (hp s hs)⟩

theorem ite {c : Prop} [Decidable c] {x' y' : EStateM ε σ α} (hx : c → Coincide P x y Q E)
    (hy : ¬ c → Coincide P x' y' Q E) : Coincide P (if c then x else x') (if c then y else y') Q E := by
  split_ifs with h
  · exact hx h
  · exact hy h

/-- What every state satisfying `P` says may be assumed. -/
theorem assume {c : Prop} (hc : ∀ s, P s → c) (h : c → Coincide P x y Q E) : Coincide P x y Q E :=
  ⟨fun s hs => (h (hc s hs)).1 s hs, fun s hs => (h (hc s hs)).2 s hs⟩

end Coincide

/-- From every state satisfying `P`, `x` ends in one that is `B`, or `y` runs as `x`
does, which keeps `P`. What is `B` stays so. -/
structure Tracks (B P : σ → Prop) (x y : EStateM ε σ α) : Prop where
  keeps : Keeps B x
  run (s : σ) : P s → B (Result.state (x s)) ∨ y s = x s ∧ P (Result.state (x s))

namespace Tracks

variable {B P : σ → Prop} {x y : EStateM ε σ α} {f g : α → EStateM ε σ β}

theorem refl (hB : Keeps B x) (h : Keeps P x) : Tracks B P x x := ⟨hB, fun _ hs => .inr ⟨rfl, h.state hs⟩⟩

theorem bind (hx : Tracks B P x y) (hf : ∀ a, Tracks B P (f a) (g a)) :
    Tracks B P (x >>= f) (y >>= g) := by
  refine ⟨hx.keeps.bind fun a => (hf a).keeps, fun s hs => ?_⟩
  have h := hx.run s hs
  rw [bind_run, bind_run]
  cases hr : x s with
  | ok a s' =>
    rw [hr] at h
    rcases h with h | ⟨hy, hP⟩
    · exact .inl ((hf a).keeps.state h)
    · rw [hy]
      exact (hf a).run s' hP
  | error e s' =>
    rw [hr] at h
    rcases h with h | ⟨hy, hP⟩
    · exact .inl h
    · rw [hy]
      exact .inr ⟨rfl, hP⟩

theorem attempt (h : Tracks B P x y) : Tracks B P (attempt x) (attempt y) := by
  refine ⟨h.keeps.attempt, fun s hs => ?_⟩
  rcases h.run s hs with h | ⟨hy, hP⟩
  · exact .inl h
  · rw [attempt_run, attempt_run, hy]
    exact .inr ⟨rfl, hP⟩

theorem ite {c : Prop} [Decidable c] {x' y' : EStateM ε σ α} (hx : c → Tracks B P x y)
    (hy : ¬ c → Tracks B P x' y') : Tracks B P (if c then x else x') (if c then y else y') := by
  split_ifs with h
  · exact hx h
  · exact hy h

theorem forEach {f g : α → EStateM ε σ Unit} (hf : ∀ a, Tracks B P (f a) (g a)) :
    ∀ l : List α, Tracks B P (forEach f l) (forEach g l)
  | [] => refl (Keeps.pure ()) (Keeps.pure ())
  | a :: l => (hf a).bind fun _ => forEach hf l

/-- Where nothing is excepted, the runs are the same. -/
theorem run_eq (h : Tracks (fun _ => False) P x y) {s : σ} (hs : P s) :
    y s = x s ∧ P (Result.state (x s)) := (h.run s hs).resolve_left id

end Tracks

/-! ## Notes beside a run -/

/-- Where `P` holds, `x` does what `y` does, and notes something beside it. -/
def Notes (P : σ → Prop) (x : EStateM ε (σ × τ) α) (y : EStateM ε σ α) : Prop :=
  ∀ s t, P s → ∃ t', x (s, t) = done (Result.value (y s)) (Result.state (y s), t')

namespace Notes

variable {P : σ → Prop} {x : EStateM ε (σ × τ) α} {y : EStateM ε σ α}
  {f : α → EStateM ε (σ × τ) β} {g : α → EStateM ε σ β}

theorem pure (a : α) : Notes P (pure a : EStateM ε (σ × τ) α) (pure a) := fun _ t _ => ⟨t, rfl⟩

theorem throw (e : ε) : Notes P (throw e : EStateM ε (σ × τ) α) (throw e) := fun _ t _ => ⟨t, rfl⟩

theorem onFst (y : EStateM ε σ α) : Notes P (onFst y : EStateM ε (σ × τ) α) y := fun _ t _ => ⟨t, rfl⟩

theorem lift (r : Except ε α) : Notes P (lift r : EStateM ε (σ × τ) α) (lift r) := by
  intro s t _
  refine ⟨t, ?_⟩
  cases r <;> rfl

/-- The next steps go on from what the ones before have come to. -/
theorem bind {Q : α → σ → Prop} (hx : Notes P x y) (hy : Ensures P y Q fun _ _ => True)
    (hf : ∀ a, Notes (Q a) (f a) (g a)) : Notes P (x >>= f) (y >>= g) := by
  intro s t hs
  obtain ⟨t', hrun⟩ := hx s t hs
  cases hr : y s with
  | ok a s' =>
    rw [hr] at hrun
    obtain ⟨t'', hrun'⟩ := hf a s' t' (hy.ok hs hr)
    refine ⟨t'', ?_⟩
    rw [bind_of_ok hrun, bind_of_ok hr]
    exact hrun'
  | error e s' =>
    rw [hr] at hrun
    refine ⟨t', ?_⟩
    rw [bind_of_error hrun, bind_of_error hr]
    rfl

theorem bind_keeps (hx : Notes P x y) (hy : Keeps P y) (hf : ∀ a, Notes P (f a) (g a)) :
    Notes P (x >>= f) (y >>= g) :=
  hx.bind (hy.mono (fun _ h => h) (fun _ _ h => h) fun _ _ _ => trivial) hf

/-- What is known whatever the state. -/
theorem fact {p : Prop} (h : p → Notes P x y) : Notes (fun s => P s ∧ p) x y :=
  fun s t hs => h hs.2 s t hs.1

/-- Making a note is no step. -/
theorem note (h : τ → τ) {x : EStateM ε (σ × τ) α} (hx : Notes P x y) :
    Notes P (modify (fun s => (s.1, h s.2)) >>= fun _ => x) y := by
  intro s t hs
  exact hx s (h t) hs

end Notes

/-! ## Outcomes that the state does not decide -/

/-- From every state satisfying `I`, `x` ends with `r`, and keeps `I`. -/
def Yields (I : σ → Prop) (x : EStateM ε σ α) (r : Except ε α) : Prop :=
  ∀ s, I s → ∃ s', I s' ∧ x s = done r s'

namespace Yields

variable {I : σ → Prop} {x : EStateM ε σ α} {f : α → EStateM ε σ β} {a : α} {r : Except ε β}

theorem value {q : Except ε α} (h : Yields I x q) {s : σ} (hs : I s) : Result.value (x s) = q := by
  obtain ⟨s', -, hx⟩ := h s hs
  rw [hx, value_done]

theorem succeeds (h : Yields I x (.ok a)) : Succeeds I x := by
  intro s hs
  obtain ⟨s', hi, hx⟩ := h s hs
  rw [hx]
  exact hi

theorem pure (a : α) : Yields I (pure a : EStateM ε σ α) (.ok a) := fun s hs => ⟨s, hs, rfl⟩

theorem throw (e : ε) : Yields I (throw e : EStateM ε σ α) (.error e) := fun s hs => ⟨s, hs, rfl⟩

theorem lift (r : Except ε α) : Yields I (lift r) r := fun s hs => ⟨s, hs, rfl⟩

theorem bind (hx : Yields I x (.ok a)) (hf : Yields I (f a) r) : Yields I (x >>= f) r := by
  intro s hs
  obtain ⟨s', hi, h⟩ := hx s hs
  obtain ⟨s'', hi', h'⟩ := hf s' hi
  exact ⟨s'', hi', by rw [bind_of_ok h, h']⟩

theorem bind_error {e : ε} (hx : Yields I x (.error e)) : Yields I (x >>= f) (.error e) := by
  intro s hs
  obtain ⟨s', hi, h⟩ := hx s hs
  exact ⟨s', hi, by rw [bind_of_error h]; rfl⟩

/-- A sequence of what needs no state, and of what goes on as that does. -/
theorem seq {q : Except ε α} {g : α → Except ε β} (hx : Yields I x q)
    (hf : ∀ a, q = .ok a → Yields I (f a) (g a)) : Yields I (x >>= f) (q >>= g) := by
  cases q with
  | ok a => exact hx.bind (hf a rfl)
  | error e => exact hx.bind_error

/-- A run that returned returned that. -/
theorem ok_of_run {q : Except ε α} (h : Yields I x q) {s s' : σ} {a : α} (hs : I s)
    (hx : x s = .ok a s') : q = .ok a ∧ I s' := by
  obtain ⟨s'', hi, h⟩ := h s hs
  rw [hx] at h
  cases q with
  | ok b =>
    cases h
    exact ⟨rfl, hi⟩
  | error e => cases h

theorem mapEach {f : α → EStateM ε σ β} {g : α → Except ε β} :
    ∀ {l : List α}, (∀ a ∈ l, Yields I (f a) (g a)) → Yields I (mapEach f l) (l.mapM g)
  | [], _ => pure []
  | a :: l, h => by
    rw [List.mapM_cons]
    apply (h a List.mem_cons_self).seq
    intro b _
    apply (mapEach fun a ha => h a (List.mem_cons_of_mem _ ha)).seq
    intro bs _
    exact pure (b :: bs)

end Yields

/-! ## Two runs -/

/-- From related states `x` ends the same way, and in related states. -/
def Alike (R : σ → σ → Prop) (x : EStateM ε σ α) : Prop :=
  ∀ s t, R s t → Result.value (x s) = Result.value (x t) ∧ R (Result.state (x s)) (Result.state (x t))

/-- `x` came to `a` in one of two runs from related states. -/
def Comes (R : σ → σ → Prop) (x : EStateM ε σ α) (a : α) : Prop :=
  ∃ s t, R s t ∧ Result.value (x t) = .ok a

namespace Alike

variable {R : σ → σ → Prop} {x : EStateM ε σ α} {f : α → EStateM ε σ β}

theorem pure (a : α) : Alike R (pure a : EStateM ε σ α) := fun _ _ h => ⟨rfl, h⟩

theorem throw (e : ε) : Alike R (throw e : EStateM ε σ α) := fun _ _ h => ⟨rfl, h⟩

theorem lift (r : Except ε α) : Alike R (lift r) := fun _ _ h => by
  simp only [lift_run, value_done, state_done]
  exact ⟨trivial, h⟩

theorem modify {g : σ → σ} (h : ∀ s t, R s t → R (g s) (g t)) :
    Alike R (modify g : EStateM ε σ PUnit) := fun s t hr => ⟨rfl, h s t hr⟩

theorem bind_comes (hx : Alike R x) (hf : ∀ a, Comes R x a → Alike R (f a)) :
    Alike R (x >>= f) := by
  intro s t h
  obtain ⟨hv, hr⟩ := hx s t h
  rw [bind_run, bind_run]
  cases hs : x s <;> cases ht : x t <;> rw [hs, ht] at hv hr <;> cases hv
  · exact hf _ ⟨s, t, h, by rw [ht]; rfl⟩ _ _ hr
  · exact ⟨rfl, hr⟩

theorem bind (hx : Alike R x) (hf : ∀ a, Alike R (f a)) : Alike R (x >>= f) :=
  hx.bind_comes fun a _ => hf a

theorem attempt (hx : Alike R x) : Alike R (attempt x) := fun s t h => by
  obtain ⟨hv, hr⟩ := hx s t h
  exact ⟨congrArg Except.ok hv, hr⟩

theorem mapEach {f : α → EStateM ε σ β} (hf : ∀ a, Alike R (f a)) :
    ∀ l : List α, Alike R (mapEach f l)
  | [] => pure []
  | a :: rest => (hf a).bind fun b => (mapEach hf rest).bind fun bs => pure (b :: bs)

theorem ite {c : Prop} [Decidable c] {y : EStateM ε σ α} (hx : c → Alike R x)
    (hy : ¬ c → Alike R y) : Alike R (if c then x else y) := by
  split_ifs with h
  · exact hx h
  · exact hy h

/-- A computation on the first of two states, the second of which is the same in
both runs. -/
theorem onFst (hx : Alike R x) :
    Alike (fun s t : σ × τ => R s.1 t.1 ∧ s.2 = t.2) (onFst x) := fun s t h => by
  obtain ⟨hv, hr⟩ := hx s.1 t.1 h.1
  simp only [Effect.onFst, value_done, state_done]
  exact ⟨hv, hr, h.2⟩

theorem onSnd (y : EStateM ε τ α) :
    Alike (fun s t : σ × τ => R s.1 t.1 ∧ s.2 = t.2) (onSnd y) := fun s t h => by
  simp only [Effect.onSnd, value_done, state_done, h.2]
  exact ⟨trivial, h.1, trivial⟩

/-- Of the state, only the second one is looked at. -/
theorem get_snd {f : σ × τ → EStateM ε (σ × τ) α} (hsnd : ∀ s t, s.2 = t.2 → f s = f t)
    (hf : ∀ u, Alike (fun s t : σ × τ => R s.1 t.1 ∧ s.2 = t.2) (f u)) :
    Alike (fun s t : σ × τ => R s.1 t.1 ∧ s.2 = t.2) (get >>= f) := by
  intro s t h
  rw [bind_of_ok (get_run s), bind_of_ok (get_run t), hsnd s t h.2]
  exact hf t s t h

theorem forEach {f : α → EStateM ε σ Unit} (hf : ∀ a, Alike R (f a)) : ∀ l : List α, Alike R (forEach f l)
  | [] => pure ()
  | a :: rest => (hf a).bind fun _ => forEach hf rest

theorem withLocal {x : EStateM ε (σ × τ) α} (u : τ)
    (hx : Alike (fun s t : σ × τ => R s.1 t.1 ∧ s.2 = t.2) x) : Alike R (withLocal u x) := by
  intro s t h
  obtain ⟨hv, hr, he⟩ := hx (s, u) (t, u) ⟨h, rfl⟩
  simp only [Effect.withLocal]
  cases hs : x (s, u) <;> cases ht : x (t, u) <;> rw [hs, ht] at hv hr he <;> cases hv
  · exact ⟨by simp only [Result.value_ok, Result.state_ok] at he ⊢; rw [he], hr⟩
  · exact ⟨rfl, hr⟩

end Alike

/-- Of a state beside itself, being alike is keeping what holds of it. -/
theorem keeps_of_alike {P : σ → Prop} {x : EStateM ε σ α} (h : Alike (fun s t => s = t ∧ P s) x) :
    Keeps P x := by
  intro s hs
  have := (h s s ⟨rfl, hs⟩).2.2
  cases hx : x s <;> rw [hx] at this <;> exact this

theorem alike_of_keeps {P : σ → Prop} {x : EStateM ε σ α} (h : Keeps P x) :
    Alike (fun s t => s = t ∧ P s) x := by
  rintro s _ ⟨rfl, hs⟩
  have := h s hs
  cases hx : x s <;> rw [hx] at this <;> exact ⟨rfl, rfl, this⟩

end Effect

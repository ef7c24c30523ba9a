import BtrfsPeek.Lib.Machine
import Mathlib.Data.List.Count

/-!
# Restarting onto an update

The listener of `serve_pipe`, from `helper/windows.rs`, its sessions, and the waiter of
`restart_when_idle`, from `helper/windows/updater.rs`, in any interleaving. A session
is counted by its own thread, once it runs, and the waiter exits in a step of its own
after it has read the count. So there are two moments in which a session is accepted and
yet the process goes: before it is counted, and after the last read. `Races` are the
steps that meet them; `restart_waits` says that no other step cuts a session off, and
that each of these can.
-/

namespace BtrfsPeek.Helper.Restart

open Machine

inductive Phase
  /-- Its connection is accepted and its thread started. -/
  | accepted
  /-- It is counted. -/
  | busy
  /-- It has ended, and its thread goes on to the restart it asked for. -/
  | updated
  | «over»
  deriving DecidableEq

/-- It was accepted and has not ended. -/
def Phase.live : Phase → Bool
  | .accepted | .busy => true
  | .updated | .over => false

inductive Waiter
  | polling
  /-- It has read that no session is active, or that it is late. -/
  | leaving
  deriving DecidableEq

structure State where
  sessions : List Phase
  /-- `ACTIVE` and `WAITING`. -/
  active : Nat
  waiting : Bool
  waiters : List Waiter
  /-- The idle limit has passed. -/
  late : Bool
  exited : Bool
  deriving DecidableEq

def State.init : State := ⟨[], 0, false, [], false, false⟩

inductive Event
  | accept
  | enter (i : Nat)
  | leave (i : Nat) (updated : Bool)
  /-- The thread of a session that installed an update, or the daily check, comes to
  `restart_when_idle`. -/
  | restart (session : Option Nat)
  | poll (j : Nat)
  | limit
  | exit (j : Nat)
  deriving DecidableEq

namespace State

variable (s : State)

/-- Only the first caller waits. -/
def restart : State :=
  if s.waiting then s else { s with waiting := true, waiters := .polling :: s.waiters }

/-- What an event makes of a process that has not exited. -/
def live : Event → Option State
  | .accept => some { s with sessions := s.sessions ++ [.accepted] }
  | .enter i =>
    if s.sessions[i]? = some .accepted then
      some { s with sessions := s.sessions.set i .busy, active := s.active + 1 }
    else none
  | .leave i updated =>
    if s.sessions[i]? = some .busy then
      some { s with
        sessions := s.sessions.set i (if updated then .updated else .over), active := s.active - 1 }
    else none
  | .restart none => some s.restart
  | .restart (some i) =>
    if s.sessions[i]? = some .updated then
      some { s.restart with sessions := s.sessions.set i .over }
    else none
  | .poll j =>
    if s.waiters[j]? = some .polling then
      if s.active > 0 ∧ s.late = false then some s
      else some { s with waiters := s.waiters.set j .leaving }
    else none
  | .limit => some { s with late := true }
  | .exit j => if s.waiters[j]? = some .leaving then some { s with exited := true } else none

def step (s : State) (e : Event) : Option State := if s.exited then none else s.live e

/-- A session's connection is closed by the exit, before the idle limit. -/
def Cut : Prop := s.exited = true ∧ s.late = false ∧ ∃ p ∈ s.sessions, p.live = true

end State

/-- A connection is accepted after the waiter's last read, or is not yet counted at it. -/
def Races (s : State) : Event → Prop
  | .accept => s.late = false ∧ .leaving ∈ s.waiters
  | .poll _ => s.late = false ∧ s.active = 0 ∧ .accepted ∈ s.sessions
  | _ => False

instance (s : State) : (e : Event) → Decidable (Races s e)
  | .accept => inferInstanceAs (Decidable (_ ∧ _))
  | .poll _ => inferInstanceAs (Decidable (_ ∧ _))
  | .enter _ | .leave _ _ | .restart _ | .limit | .exit _ => isFalse id

/-! ## What is kept -/

/-- `ACTIVE` counts the sessions inside `Busy`, and at most one caller waits. -/
structure Sound (s : State) : Prop where
  active : s.active = s.sessions.count .busy
  first : s.waiting = false → s.waiters = []
  one : s.waiters.length ≤ 1

theorem Sound.restart {s : State} (h : Sound s) : Sound s.restart := by
  unfold State.restart
  split_ifs with hw
  · exact h
  · refine ⟨h.active, nofun, ?_⟩
    show (Waiter.polling :: s.waiters).length ≤ 1
    rw [h.first (by simpa using hw)]
    decide

/-- The phase of a session moves on, from one that is not busy to one that is not. -/
theorem count_busy_set {ps : List Phase} {i : Nat} {p q : Phase} (h : ps[i]? = some p) :
    (ps.set i q).count .busy + (if p = .busy then 1 else 0) =
      ps.count .busy + (if q = .busy then 1 else 0) := by
  obtain ⟨hi, hp⟩ := List.getElem?_eq_some_iff.mp h
  have hpos : p = .busy → 0 < ps.count .busy := by
    rintro rfl
    exact List.count_pos_iff.mpr (hp ▸ List.getElem_mem hi)
  rw [List.count_set hi, hp]
  by_cases h₁ : p = .busy <;> by_cases h₂ : q = .busy <;> simp [h₁, h₂]
  all_goals have := hpos h₁; omega

theorem live_sound {s s' : State} {e : Event} (hs : Sound s) (h : s.live e = some s') : Sound s' := by
  cases e with
  | accept =>
    obtain rfl := Option.some.inj h
    refine ⟨?_, hs.first, hs.one⟩
    rw [List.count_append]
    exact hs.active
  | enter i =>
    simp only [State.live] at h
    split_ifs at h with hi
    obtain rfl := Option.some.inj h
    refine ⟨?_, hs.first, hs.one⟩
    have hcount := count_busy_set (q := .busy) hi
    have hactive := hs.active
    simp at hcount
    show s.active + 1 = (s.sessions.set i .busy).count .busy
    omega
  | leave i updated =>
    obtain ⟨q, hq⟩ : ∃ q, q = if updated then Phase.updated else .over := ⟨_, rfl⟩
    have hne : q ≠ .busy := by
      rw [hq]
      split_ifs <;> decide
    simp only [State.live, ← hq] at h
    split_ifs at h with hi
    obtain rfl := Option.some.inj h
    refine ⟨?_, hs.first, hs.one⟩
    have hcount := count_busy_set (q := q) hi
    have hactive := hs.active
    simp [hne] at hcount
    show s.active - 1 = (s.sessions.set i q).count .busy
    omega
  | restart session =>
    cases session with
    | none =>
      obtain rfl := Option.some.inj h
      exact hs.restart
    | some i =>
      simp only [State.live] at h
      split_ifs at h with hi
      obtain rfl := Option.some.inj h
      have hr := hs.restart
      refine ⟨?_, hr.first, hr.one⟩
      have hcount := count_busy_set (q := .over) hi
      have hactive := hr.active
      have hsame : s.restart.sessions = s.sessions := by
        unfold State.restart
        split_ifs <;> rfl
      rw [hsame] at hactive
      simp at hcount
      show s.restart.active = (s.sessions.set i .over).count .busy
      omega
  | poll j =>
    simp only [State.live] at h
    split_ifs at h with hj
    · obtain rfl := Option.some.inj h
      exact hs
    · obtain rfl := Option.some.inj h
      refine ⟨hs.active, fun hw => ?_, ?_⟩
      · rw [hs.first hw] at hj
        exact absurd hj (by simp)
      · show (s.waiters.set j .leaving).length ≤ 1
        rw [List.length_set]
        exact hs.one
  | limit =>
    obtain rfl := Option.some.inj h
    exact ⟨hs.active, hs.first, hs.one⟩
  | exit j =>
    simp only [State.live] at h
    split_ifs at h
    obtain rfl := Option.some.inj h
    exact ⟨hs.active, hs.first, hs.one⟩

theorem step_sound {s s' : State} {e : Event} (hs : Sound s) (h : s.step e = some s') : Sound s' := by
  unfold State.step at h
  split_ifs at h
  exact live_sound hs h

/-! ## Races -/

/-- Once a waiter is to leave, before the idle limit, no session is live. -/
def Quiet (s : State) : Prop :=
  s.late = false → .leaving ∈ s.waiters ∨ s.exited = true → ∀ p ∈ s.sessions, p.live = false

theorem not_live_of_set {ps : List Phase} {i : Nat} {q : Phase} (h : ∀ p ∈ ps, p.live = false)
    (hq : q.live = false) : ∀ p ∈ ps.set i q, p.live = false := by
  intro p hp
  rcases List.mem_or_eq_of_mem_set hp with hp | rfl
  · exact h p hp
  · exact hq

/-- A step that is no race leaves the process quiet. -/
theorem step_quiet {s s' : State} {e : Event} (hs : Sound s) (hq : Quiet s) (hrace : ¬ Races s e)
    (h : s.step e = some s') : Quiet s' := by
  unfold State.step at h
  split_ifs at h with hexited
  have hleave (hl : s.late = false) (hw : .leaving ∈ s.waiters) : ∀ p ∈ s.sessions, p.live = false :=
    hq hl (.inl hw)
  intro hlate hgone
  cases e with
  | accept =>
    obtain rfl := Option.some.inj h
    -- there is no such session, since the waiter has made its last read
    rcases hgone with hw | hx
    · exact absurd ⟨hlate, hw⟩ hrace
    · exact absurd hx hexited
  | enter i =>
    simp only [State.live] at h
    split_ifs at h with hi
    obtain rfl := Option.some.inj h
    rcases hgone with hw | hx
    · have := hleave hlate hw _ (List.mem_of_getElem? hi)
      exact absurd this (by decide)
    · exact absurd hx hexited
  | leave i updated =>
    obtain ⟨q, hqeq⟩ : ∃ q, q = if updated then Phase.updated else .over := ⟨_, rfl⟩
    simp only [State.live, ← hqeq] at h
    split_ifs at h with hi
    obtain rfl := Option.some.inj h
    rcases hgone with hw | hx
    · have := hleave hlate hw _ (List.mem_of_getElem? hi)
      exact absurd this (by decide)
    · exact absurd hx hexited
  | restart session =>
    have hwaiters : .leaving ∈ s.restart.waiters → .leaving ∈ s.waiters := by
      unfold State.restart
      split_ifs
      · exact id
      · intro hw
        exact (List.mem_cons.mp hw).resolve_left (by decide)
    have hsame : s.restart.sessions = s.sessions ∧ s.restart.late = s.late ∧ s.restart.exited = s.exited := by
      unfold State.restart
      split_ifs <;> exact ⟨rfl, rfl, rfl⟩
    cases session with
    | none =>
      obtain rfl := Option.some.inj h
      rw [hsame.2.1] at hlate
      rw [hsame.1]
      rcases hgone with hw | hx
      · exact hleave hlate (hwaiters hw)
      · exact absurd (hsame.2.2 ▸ hx) hexited
    | some i =>
      simp only [State.live] at h
      split_ifs at h with hi
      obtain rfl := Option.some.inj h
      have hlate : s.restart.late = false := hlate
      rw [hsame.2.1] at hlate
      rcases hgone with hw | hx
      · exact not_live_of_set (hleave hlate (hwaiters hw)) rfl
      · exact absurd (hsame.2.2 ▸ hx) hexited
  | poll j =>
    simp only [State.live] at h
    split_ifs at h with hj hstay
    · obtain rfl := Option.some.inj h
      exact hq hlate hgone
    · obtain rfl := Option.some.inj h
      have hlate : s.late = false := hlate
      have hzero : s.active = 0 := by
        by_contra hne
        exact hstay ⟨Nat.pos_of_ne_zero hne, hlate⟩
      have hnone : s.sessions.count .busy = 0 := hs.active ▸ hzero
      intro p hp
      cases p with
      | accepted => exact absurd ⟨hlate, hzero, hp⟩ hrace
      | busy => exact absurd hp (List.count_eq_zero.mp hnone)
      | updated => rfl
      | «over» => rfl
  | limit =>
    obtain rfl := Option.some.inj h
    exact absurd hlate (by simp)
  | exit j =>
    simp only [State.live] at h
    split_ifs at h with hj
    obtain rfl := Option.some.inj h
    exact hleave hlate (List.mem_of_getElem? hj)

/-- After a race, the waiter can exit at once, and cuts a session off. -/
theorem race_cuts {s s' : State} {e : Event} (hrace : Races s e) (h : s.step e = some s') :
    ∃ j s'', s'.step (.exit j) = some s'' ∧ s''.Cut := by
  unfold State.step at h
  split_ifs at h with hexited
  cases e with
  | accept =>
    obtain ⟨hlate, hw⟩ := hrace
    obtain rfl := Option.some.inj h
    obtain ⟨j, hj⟩ := List.mem_iff_getElem?.mp hw
    have hstep : State.step { s with sessions := s.sessions ++ [.accepted] } (.exit j) =
        some { s with sessions := s.sessions ++ [.accepted], exited := true } := by
      simp [State.step, State.live, hexited, hj]
    exact ⟨j, _, hstep, rfl, hlate, .accepted, by simp, rfl⟩
  | poll j =>
    obtain ⟨hlate, hzero, hmem⟩ := hrace
    have hidle : ¬ (s.active > 0 ∧ s.late = false) := by omega
    simp only [State.live, hidle, if_false] at h
    split_ifs at h with hj
    obtain rfl := Option.some.inj h
    obtain ⟨hlt, -⟩ := List.getElem?_eq_some_iff.mp hj
    have hstep : State.step { s with waiters := s.waiters.set j .leaving } (.exit j) =
        some { s with waiters := s.waiters.set j .leaving, exited := true } := by
      simp [State.step, State.live, hexited, hlt]
    exact ⟨j, _, hstep, rfl, hlate, .accepted, hmem, rfl⟩
  | _ => exact hrace.elim

/-- In every run, `ACTIVE` counts the sessions inside `Busy`, and one caller waits at most. A
run without races cuts no session off, and after a race the next step can. -/
theorem restart_waits {tr : List (State × Event)} {s : State} (h : Run State.step .init tr s) :
    (s.active = s.sessions.count .busy ∧ s.waiters.length ≤ 1) ∧
    ((∀ x ∈ tr, ¬ Races x.1 x.2) → ¬ s.Cut) ∧
    ∀ e s', Races s e → s.step e = some s' → ∃ j s'', s'.step (.exit j) = some s'' ∧ s''.Cut := by
  have h₀ : Sound .init := ⟨rfl, fun _ => rfl, by decide⟩
  have hsound := h.invariant h₀ fun _ _ _ hs hstep => step_sound hs hstep
  refine ⟨⟨hsound.active, hsound.one⟩, fun hgood hcut => ?_, fun e s' => race_cuts⟩
  have hquiet₀ : Quiet .init := fun _ _ => nofun
  have hquiet : Quiet s ∨ ∃ x ∈ tr, Races x.1 x.2 :=
    h.keeps_unless h₀ (fun _ _ _ hs hstep => step_sound hs hstep) hquiet₀
      fun _ _ _ hs hq hrace hstep => step_quiet hs hq hrace hstep
  rcases hquiet with hquiet | ⟨x, hx, hrace⟩
  · obtain ⟨hexited, hlate, p, hp, hlive⟩ := hcut
    rw [hquiet hlate (.inr hexited) p hp] at hlive
    exact absurd hlive (by decide)
  · exact hgood x hx hrace

/-- The waiter of a session that updated polls while another is active, and goes when that is over. -/
theorem restart_waits_served : ∃ tr s, Run State.step .init tr s ∧
    (∃ x ∈ tr, x.1.active = 1 ∧ x.2 = .poll 0) ∧ s.exited = true ∧ ¬ s.Cut := by
  have h₀ : Run State.step .init [] .init := .start
  have h₁ := h₀.next (show State.step .init .accept = some _ from rfl)
  have h₂ := h₁.next (show State.step _ .accept = some _ from rfl)
  have h₃ := h₂.next (show State.step _ (.enter 0) = some _ from rfl)
  have h₄ := h₃.next (show State.step _ (.enter 1) = some _ from rfl)
  have h₅ := h₄.next (show State.step _ (.leave 0 true) = some _ from rfl)
  have h₆ := h₅.next (show State.step _ (.restart (some 0)) = some _ from rfl)
  have h₇ := h₆.next (show State.step _ (.poll 0) = some _ from rfl)
  have h₈ := h₇.next (show State.step _ (.leave 1 false) = some _ from rfl)
  have h₉ := h₈.next (show State.step _ (.poll 0) = some _ from rfl)
  have hend := h₉.next (show State.step _ (.exit 0) = some _ from rfl)
  exact ⟨_, _, hend, by decide, rfl, (restart_waits hend).2.1 (by decide)⟩

/-- A client is accepted just before the daily check's restart reads the count. -/
theorem session_cut : ∃ tr s, Run State.step .init tr s ∧ s.Cut := by
  have hrun : exec State.step .init [.restart none, .accept, .poll 0, .exit 0] =
      some ⟨[.accepted], 0, true, [.leaving], false, true⟩ := by decide
  obtain ⟨tr, h⟩ := Run.of_exec hrun
  exact ⟨tr, _, h, rfl, rfl, .accepted, List.mem_cons_self, rfl⟩

end BtrfsPeek.Helper.Restart

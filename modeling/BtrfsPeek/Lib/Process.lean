import BtrfsPeek.Lib.Bytes
import Mathlib.Tactic.Common

/-!
# Processes on byte streams

A `Process` receives and sends single bytes, and calls what is outside it. It is
given by what it does next for each answer, so nothing is said of where the
bytes come from.

* `Takes`: what is left of a process once it has received some bytes;
* `Reads`: a process that only receives, with what it returns for the bytes it
  took, and its rules (`Reads.bind`, `reads_readExact`);
* `Step` and `Run`: a program that restarts its loop whenever it comes to the
  end of the body, against any surroundings;
* `received`, `sent`, `calls`: what a run's events amount to.
-/

/-- What a process does next: return, fail, or wait for an answer. The answer to
`recv` is the next byte, or none where the stream ends. The calls are `κ`, and
`A q` are the answers to `q`. -/
inductive Process (κ : Type) (A : κ → Type) (ε α : Type)
  | ret (a : α)
  | fail (e : ε)
  | recv (k : Except ε (Option UInt8) → Process κ A ε α)
  | send (b : UInt8) (k : Except ε Unit → Process κ A ε α)
  | call (q : κ) (k : A q → Process κ A ε α)

namespace Process

variable {κ : Type} {A : κ → Type} {ε σ ρ α β γ : Type}

/-- `x`, and then `f` with what it returned. -/
def bind : Process κ A ε α → (α → Process κ A ε β) → Process κ A ε β
  | ret a, f => f a
  | fail e, _ => fail e
  | recv k, f => recv fun r => (k r).bind f
  | send b k, f => send b fun r => (k r).bind f
  | call q k, f => call q fun a => (k a).bind f

instance : Monad (Process κ A ε) where
  pure := ret
  bind := bind

section rules

variable (f : α → Process κ A ε β)

@[simp] theorem pure_eq (a : α) : (pure a : Process κ A ε α) = ret a := rfl
@[simp] theorem ret_bind (a : α) : (ret a >>= f) = f a := rfl
@[simp] theorem fail_bind (e : ε) : (fail e >>= f) = fail e := rfl
@[simp] theorem recv_bind (k : Except ε (Option UInt8) → Process κ A ε α) :
    (recv k >>= f) = recv fun r => k r >>= f := rfl
@[simp] theorem send_bind (b : UInt8) (k : Except ε Unit → Process κ A ε α) :
    (send b k >>= f) = send b fun r => k r >>= f := rfl
@[simp] theorem call_bind (q : κ) (k : A q → Process κ A ε α) :
    (call q k >>= f) = call q fun a => k a >>= f := rfl

theorem bind_assoc (x : Process κ A ε α) (g : β → Process κ A ε γ) :
    (x >>= f) >>= g = x >>= fun a => f a >>= g := by
  induction x with
  | ret a => rfl
  | fail e => rfl
  | recv k ih => simp only [recv_bind, ih]
  | send b k ih => simp only [send_bind, ih]
  | call q k ih => simp only [call_bind, ih]

theorem ite_bind {c : Prop} [Decidable c] (x y : Process κ A ε α) :
    ((if c then x else y) >>= f) = if c then x >>= f else y >>= f := by
  split <;> rfl

end rules

/-! ## Reading and writing -/

/-- One byte, or none where the stream ends. -/
def readByte : Process κ A ε (Option UInt8) :=
  recv fun
    | .ok b => ret b
    | .error e => fail e

/-- `n` bytes. A stream that ends before them is the error `short`. -/
def readExact (short : ε) : Nat → Process κ A ε Bytes
  | 0 => ret []
  | n + 1 => recv fun
    | .ok (some b) => do
      let bs ← readExact short n
      ret (b :: bs)
    | .ok none => fail short
    | .error e => fail e

def writeAll : Bytes → Process κ A ε Unit
  | [] => ret ()
  | b :: bs => send b fun
    | .ok () => writeAll bs
    | .error e => fail e

theorem writeAll_append (xs ys : Bytes) :
    (writeAll (xs ++ ys) : Process κ A ε Unit) = writeAll xs >>= fun _ => writeAll ys := by
  induction xs with
  | nil => rfl
  | cons x xs ih =>
    simp only [List.cons_append, writeAll, send_bind]
    congr 1
    funext r
    cases r with
    | ok u => exact ih
    | error e => rfl

/-- Runs `x` and hands its outcome on, so that a failure goes no further. -/
def attempt : Process κ A ε α → Process κ A ε (Except ε α)
  | ret a => ret (.ok a)
  | fail e => ret (.error e)
  | recv k => recv fun r => (k r).attempt
  | send b k => send b fun r => (k r).attempt
  | call q k => call q fun a => (k a).attempt

/-- Makes a call. -/
def ask (q : κ) : Process κ A ε (A q) := call q ret

/-! ## What is left after some bytes -/

/-- Once `p` has received the bytes it is `q`. -/
inductive Takes : Process κ A ε α → Bytes → Process κ A ε α → Prop
  | nil {p : Process κ A ε α} : Takes p [] p
  | cons {k : Except ε (Option UInt8) → Process κ A ε α} {b : UInt8} {bs : Bytes}
      {q : Process κ A ε α} : Takes (k (.ok (some b))) bs q → Takes (recv k) (b :: bs) q

namespace Takes

variable {p q q' : Process κ A ε α} {bs cs : Bytes}

theorem unique (h : Takes p bs q) (h' : Takes p bs q') : q = q' := by
  induction h with
  | nil => cases h'; rfl
  | cons _ ih => cases h' with | cons h' => exact ih h'

theorem trans (h : Takes p bs q) (h' : Takes q cs q') : Takes p (bs ++ cs) q' := by
  induction h with
  | nil => exact h'
  | cons _ ih => exact cons (ih h')

theorem snoc {k : Except ε (Option UInt8) → Process κ A ε α} (h : Takes p bs (recv k)) (b : UInt8) :
    Takes p (bs ++ [b]) (k (.ok (some b))) :=
  h.trans (cons nil)

/-- The bytes came in two parts. -/
theorem split : ∀ {bs : Bytes} {p : Process κ A ε α}, Takes p (bs ++ cs) q →
    ∃ y, Takes p bs y ∧ Takes y cs q
  | [], p, h => ⟨p, nil, h⟩
  | _ :: _, _, cons h => by
    obtain ⟨y, hy, hq⟩ := split h
    exact ⟨y, cons hy, hq⟩

theorem bind (h : Takes p bs q) (f : α → Process κ A ε β) : Takes (p >>= f) bs (q >>= f) := by
  induction h with
  | nil => exact nil
  | cons _ ih => exact cons ih

theorem attempt (h : Takes p bs q) : Takes p.attempt bs q.attempt := by
  induction h with
  | nil => exact nil
  | cons _ ih => exact cons ih

/-- A process that more bytes go into is receiving. -/
theorem receiving {b : UInt8} (h : Takes p (b :: bs) q) :
    ∃ k, p = recv k ∧ Takes (k (.ok (some b))) bs q := by
  cases h with | cons h => exact ⟨_, rfl, h⟩

end Takes

theorem takes_readExact (short : ε) (bs : Bytes) :
    Takes (readExact short bs.length : Process κ A ε Bytes) bs (ret bs) := by
  induction bs with
  | nil => exact .nil
  | cons b bs ih => exact .cons (ih.bind fun bs => ret (b :: bs))

/-! ## Readers -/

/-- `x` receives, and does nothing else: what it returns once it has taken some
bytes satisfies `P`, and it fails where the stream ends or breaks before. -/
def Reads : Process κ A ε α → (Bytes → α → Prop) → Prop
  | ret a, P => P [] a
  | recv k, P => (∀ b, Reads (k (.ok (some b))) fun bs a => P (b :: bs) a) ∧
      (∃ e, k (.ok none) = fail e) ∧ ∀ e, k (.error e) = fail e
  | _, _ => False

namespace Reads

variable {x : Process κ A ε α} {P : Bytes → α → Prop} {f : α → Process κ A ε β}
  {Q : Bytes → β → Prop}

theorem bind (h : Reads x P) (hf : ∀ bs a, P bs a → Reads (f a) fun cs b => Q (bs ++ cs) b) :
    Reads (x >>= f) Q := by
  induction x generalizing P Q with
  | ret a => exact hf [] a h
  | recv k ih =>
    obtain ⟨hb, ⟨e, he⟩, hf'⟩ := h
    refine ⟨fun b => ih _ (hb b) fun bs a ha => hf (b :: bs) a ha, ⟨e, ?_⟩, fun e' => ?_⟩
    · show (k (.ok none) >>= f) = fail e
      rw [he, fail_bind]
    · show (k (.error e') >>= f) = fail e'
      rw [hf', fail_bind]
  | fail e => exact h.elim
  | send b k => exact h.elim
  | call q k => exact h.elim

theorem ite {c : Prop} [Decidable c] {y : Process κ A ε α} (hx : c → Reads x P)
    (hy : ¬ c → Reads y P) : Reads (if c then x else y) P := by
  split
  · next h => exact hx h
  · next h => exact hy h

/-- A reader that has taken some bytes goes on reading, or has returned. -/
theorem takes {bs : Bytes} {y : Process κ A ε α} (h : Reads x P) (ht : Takes x bs y) :
    Reads y fun cs a => P (bs ++ cs) a := by
  induction ht generalizing P with
  | nil => exact h
  | cons _ ih => exact ih (h.1 _)

end Reads

theorem reads_readExact (short : ε) (n : Nat) :
    Reads (readExact short n : Process κ A ε Bytes) fun bs a => a = bs ∧ bs.length = n := by
  induction n with
  | zero => exact ⟨rfl, rfl⟩
  | succ n ih =>
    refine ⟨fun b => ?_, ⟨short, rfl⟩, fun e => rfl⟩
    apply ih.bind
    intro bs a h
    exact ⟨by rw [h.1, List.append_nil], by rw [List.append_nil, List.length_cons, h.2]⟩

/-! ## Runs -/

/-- What happened in a step. -/
inductive Event (κ : Type) (A : κ → Type) (ε : Type)
  | received (b : UInt8)
  /-- The stream ended. -/
  | hungUp
  | recvFailed (e : ε)
  | sent (b : UInt8)
  | sendFailed (e : ε)
  | called (q : κ) (a : A q)

/-- A call, with its answer. -/
abbrev Answered (κ : Type) (A : κ → Type) := (q : κ) × A q

namespace Event

def input : Event κ A ε → Bytes
  | received b => [b]
  | _ => []

def output : Event κ A ε → Bytes
  | sent b => [b]
  | _ => []

def answered : Event κ A ε → List (Answered κ A)
  | called q a => [⟨q, a⟩]
  | _ => []

def isSendFailed : Event κ A ε → Bool
  | sendFailed _ => true
  | _ => false

end Event

/-- The bytes received, in order. -/
def received (tr : List (Event κ A ε)) : Bytes := tr.flatMap Event.input

/-- The bytes sent, in order. -/
def sent (tr : List (Event κ A ε)) : Bytes := tr.flatMap Event.output

/-- The calls made, in order. -/
def calls (tr : List (Event κ A ε)) : List (Answered κ A) := tr.flatMap Event.answered

/-- Every write succeeded. -/
def WritesOk (tr : List (Event κ A ε)) : Prop := ∀ ev ∈ tr, ev.isSendFailed = false

@[simp] theorem received_append (tr tr' : List (Event κ A ε)) :
    received (tr ++ tr') = received tr ++ received tr' := List.flatMap_append
@[simp] theorem sent_append (tr tr' : List (Event κ A ε)) :
    sent (tr ++ tr') = sent tr ++ sent tr' := List.flatMap_append
@[simp] theorem calls_append (tr tr' : List (Event κ A ε)) :
    calls (tr ++ tr') = calls tr ++ calls tr' := List.flatMap_append

section bytes

variable (bs : Bytes)

@[simp] theorem received_received : received (bs.map (.received : UInt8 → Event κ A ε)) = bs := by
  simp [received, Event.input, List.flatMap_map]
@[simp] theorem sent_received : sent (bs.map (.received : UInt8 → Event κ A ε)) = [] := by
  simp [sent, Event.output, List.flatMap_map]
@[simp] theorem calls_received : calls (bs.map (.received : UInt8 → Event κ A ε)) = [] := by
  simp [calls, Event.answered, List.flatMap_map]
@[simp] theorem received_sent : received (bs.map (.sent : UInt8 → Event κ A ε)) = [] := by
  simp [received, Event.input, List.flatMap_map]
@[simp] theorem sent_sent : sent (bs.map (.sent : UInt8 → Event κ A ε)) = bs := by
  simp [sent, Event.output, List.flatMap_map]
@[simp] theorem calls_sent : calls (bs.map (.sent : UInt8 → Event κ A ε)) = [] := by
  simp [calls, Event.answered, List.flatMap_map]

end bytes

/-- A step of a program whose loop is `loop`: wherever the body returns a new
state the loop runs from it. The surroundings answer as they like. What was
interrupted is `transient`, and is asked again. -/
inductive Step (transient : ε → Prop) (loop : σ → Process κ A ε (σ ⊕ ρ)) :
    Process κ A ε (σ ⊕ ρ) → List (Event κ A ε) → Process κ A ε (σ ⊕ ρ) → Prop
  | recv (k : Except ε (Option UInt8) → Process κ A ε (σ ⊕ ρ)) (b : UInt8) :
      Step transient loop (recv k) [.received b] (k (.ok (some b)))
  | hangUp (k : Except ε (Option UInt8) → Process κ A ε (σ ⊕ ρ)) :
      Step transient loop (recv k) [.hungUp] (k (.ok none))
  | recvFail (k : Except ε (Option UInt8) → Process κ A ε (σ ⊕ ρ)) (e : ε) : ¬ transient e →
      Step transient loop (recv k) [.recvFailed e] (k (.error e))
  | recvRetry (k : Except ε (Option UInt8) → Process κ A ε (σ ⊕ ρ)) (e : ε) : transient e →
      Step transient loop (recv k) [] (recv k)
  | send (b : UInt8) (k : Except ε Unit → Process κ A ε (σ ⊕ ρ)) :
      Step transient loop (send b k) [.sent b] (k (.ok ()))
  | sendFail (b : UInt8) (k : Except ε Unit → Process κ A ε (σ ⊕ ρ)) (e : ε) : ¬ transient e →
      Step transient loop (send b k) [.sendFailed e] (k (.error e))
  | sendRetry (b : UInt8) (k : Except ε Unit → Process κ A ε (σ ⊕ ρ)) (e : ε) : transient e →
      Step transient loop (send b k) [] (send b k)
  | call (q : κ) (k : A q → Process κ A ε (σ ⊕ ρ)) (a : A q) :
      Step transient loop (call q k) [.called q a] (k a)
  | again (s : σ) : Step transient loop (ret (.inl s)) [] (loop s)

/-- The program `start`, then `loop`, has come to `p` through these events. -/
inductive Run (transient : ε → Prop) (loop : σ → Process κ A ε (σ ⊕ ρ))
    (start : Process κ A ε (σ ⊕ ρ)) : List (Event κ A ε) → Process κ A ε (σ ⊕ ρ) → Prop
  | start : Run transient loop start [] start
  | step {tr ev : List (Event κ A ε)} {p q : Process κ A ε (σ ⊕ ρ)} :
      Run transient loop start tr p → Step transient loop p ev q →
      Run transient loop start (tr ++ ev) q

namespace Run

variable {transient : ε → Prop} {loop : σ → Process κ A ε (σ ⊕ ρ)}
  {start p q : Process κ A ε (σ ⊕ ρ)} {tr : List (Event κ A ε)} {bs : Bytes}

/-- What a process may receive it receives in a run. -/
theorem takes (h : Run transient loop start tr p) (ht : Takes p bs q) :
    Run transient loop start (tr ++ bs.map .received) q := by
  induction ht generalizing tr with
  | nil =>
    rw [List.map_nil, List.append_nil]
    exact h
  | @cons k b bs q _ ih =>
    have hb := ih (h.step (.recv k b))
    simpa using hb

/-- Where all writes succeed, a process that writes some bytes first has sent them. -/
theorem writeAll {f : Unit → Process κ A ε (σ ⊕ ρ)}
    (h : Run transient loop start tr (writeAll bs >>= f)) :
    Run transient loop start (tr ++ bs.map .sent) (f ()) := by
  induction bs generalizing tr with
  | nil =>
    rw [List.map_nil, List.append_nil]
    exact h
  | cons b bs ih =>
    have hb := ih (h.step (.send b fun r => (match r with
      | .ok () => Process.writeAll bs
      | .error e => fail e) >>= f))
    simpa using hb

end Run

end Process

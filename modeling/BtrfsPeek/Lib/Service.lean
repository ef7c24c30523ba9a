import BtrfsPeek.Lib.Process

/-!
# Services

A `Service` answers requests one after another on a byte stream: it reads a
request, makes a `Plan` of it (its reply, at most one call away, and the state to
go on in or the end of the session), and sends the reply.

* `History`: what a service did, exchange by exchange;
* `Stage`: where in its work a service is, and what it has received, called and
  sent by then;
* `run_stage`: every run of a service is at a stage, whatever its surroundings
  do. `Stage.explained` is what that says of the run's events;
* `History.run`: every history is that of a run.
-/

open Process

/-- Something to do that takes one call or none. -/
inductive Plan (κ : Type) (A : κ → Type) (α : Type)
  | now (a : α)
  | ask (q : κ) (k : A q → α)

namespace Plan

variable {κ : Type} {A : κ → Type} {ε α : Type}

def run : Plan κ A α → Process κ A ε α
  | now a => ret a
  | ask q k => call q fun a => ret (k a)

/-- The plan gives `a` with these calls. -/
inductive Gives : Plan κ A α → List (Answered κ A) → α → Prop
  | now (a : α) : Gives (now a) [] a
  | ask {q : κ} {k : A q → α} (a : A q) : Gives (ask q k) [⟨q, a⟩] (k a)

theorem Gives.of_ask {q : κ} {k : A q → α} {cs : List (Answered κ A)} {b : α}
    (h : Gives (.ask q k) cs b) : ∃ a, cs = [⟨q, a⟩] ∧ k a = b := by
  cases h with | ask a => exact ⟨a, rfl, rfl⟩

end Plan

/-- The requests a service takes in the state `s` are the `Valid s` ones, and
`bytes` is their encoding: `first s b` reads the rest of a request from its first
byte on. -/
structure Service (κ : Type) (A : κ → Type) (ε σ ρ R : Type) where
  first : σ → UInt8 → Process κ A ε R
  /-- How a session ends that the other side has left. -/
  closed : ρ
  bytes : R → Bytes
  Valid : σ → R → Prop
  plan : σ → R → Plan κ A (Bytes × (σ ⊕ ρ))
  reads (s : σ) (b : UInt8) : Reads (first s b) fun bs r => Valid s r ∧ b :: bs = bytes r
  complete {s : σ} {r : R} : Valid s r → ∃ b bs, bytes r = b :: bs ∧ Takes (first s b) bs (ret r)

/-- A request, the calls made for it, and its reply. -/
structure Exchange (κ : Type) (A : κ → Type) (R : Type) where
  request : R
  calls : List (Answered κ A)
  reply : Bytes

namespace Service

variable {κ : Type} {A : κ → Type} {ε σ ρ R : Type} (S : Service κ A ε σ ρ R)

/-- Sends the reply, and then there is `next`. -/
def deliver (reply : Bytes) (next : σ ⊕ ρ) : Process κ A ε (σ ⊕ ρ) := do
  writeAll reply
  ret next

def answer (s : σ) (r : R) : Process κ A ε (σ ⊕ ρ) := do
  let (reply, next) ← (S.plan s r).run
  deliver reply next

/-- One request, from the state `s`. -/
def body (s : σ) : Process κ A ε (σ ⊕ ρ) :=
  recv fun
    | .ok none => ret (.inr S.closed)
    | .ok (some b) => S.first s b >>= S.answer s
    | .error e => fail e

/-! ## Histories -/

/-- From `s₀` on the service made these exchanges, after which there is `next`. -/
inductive History (s₀ : σ) : List (Exchange κ A R) → σ ⊕ ρ → Prop
  | nil : History s₀ [] (.inl s₀)
  | snoc {xs : List (Exchange κ A R)} {s : σ} {r : R} {cs : List (Answered κ A)} {reply : Bytes}
      {next : σ ⊕ ρ} : History s₀ xs (.inl s) → S.Valid s r → (S.plan s r).Gives cs (reply, next) →
      History s₀ (xs ++ [⟨r, cs, reply⟩]) next

theorem History.of_nil {S : Service κ A ε σ ρ R} {s₀ : σ} {next : σ ⊕ ρ}
    (h : S.History s₀ [] next) : next = .inl s₀ := by
  generalize hxs : ([] : List (Exchange κ A R)) = xs at h
  cases h with
  | nil => rfl
  | snoc => simp at hxs

/-- Each exchange was planned in the state the ones before it led to. -/
theorem History.split {S : Service κ A ε σ ρ R} {s₀ : σ} {xs pre post : List (Exchange κ A R)}
    {x : Exchange κ A R} {next : σ ⊕ ρ} (h : S.History s₀ xs next) (hx : xs = pre ++ x :: post) :
    ∃ s next', S.History s₀ pre (.inl s) ∧ S.Valid s x.request ∧
      (S.plan s x.request).Gives x.calls (x.reply, next') ∧ (post = [] → next' = next) := by
  induction h generalizing post with
  | nil => simp at hx
  | @snoc ys s r cs reply next' hy hv hg ih =>
    rcases List.eq_nil_or_concat post with rfl | ⟨post, y, rfl⟩
    · obtain ⟨rfl, hxy⟩ := List.append_inj' hx rfl
      obtain rfl := (List.cons.inj hxy).1
      exact ⟨s, next', hy, hv, hg, fun _ => rfl⟩
    · have hx' : ys ++ [⟨r, cs, reply⟩] = (pre ++ x :: post) ++ [y] := by simpa using hx
      obtain ⟨hys, -⟩ := List.append_inj' hx' rfl
      obtain ⟨s', next'', h1, h2, h3, -⟩ := ih hys
      exact ⟨s', next'', h1, h2, h3, by simp⟩

/-- The bytes of the requests. -/
def requests (xs : List (Exchange κ A R)) : Bytes := xs.flatMap fun x => S.bytes x.request

/-- The bytes of the replies. -/
def replies (xs : List (Exchange κ A R)) : Bytes := xs.flatMap Exchange.reply

/-- The calls made in the exchanges. -/
def made (xs : List (Exchange κ A R)) : List (Answered κ A) := xs.flatMap Exchange.calls

@[simp] theorem requests_snoc (xs : List (Exchange κ A R)) (x : Exchange κ A R) :
    S.requests (xs ++ [x]) = S.requests xs ++ S.bytes x.request := by
  simp [requests]

@[simp] theorem replies_snoc (xs : List (Exchange κ A R)) (x : Exchange κ A R) :
    replies (xs ++ [x]) = replies xs ++ x.reply := by
  simp [replies]

@[simp] theorem made_snoc (xs : List (Exchange κ A R)) (x : Exchange κ A R) :
    made (xs ++ [x]) = made xs ++ x.calls := by
  simp [made]

/-- The events of a run add up to the exchanges, `part` of a further request,
and all but `unsent` of the replies. -/
structure Books (tr : List (Event κ A ε)) (xs : List (Exchange κ A R)) (part unsent : Bytes) :
    Prop where
  received : received tr = S.requests xs ++ part
  calls : calls tr = made xs
  sent : sent tr ++ unsent = replies xs

namespace Books

variable {S} {tr : List (Event κ A ε)} {xs : List (Exchange κ A R)} {part unsent : Bytes}

theorem nil : S.Books ([] : List (Event κ A ε)) [] [] [] := ⟨rfl, rfl, rfl⟩

/-- An event that is none of the three changes nothing. -/
theorem silent (h : S.Books tr xs part unsent) {ev : List (Event κ A ε)} (hi : Process.received ev = [])
    (ho : Process.sent ev = []) (hc : Process.calls ev = []) : S.Books (tr ++ ev) xs part unsent := by
  obtain ⟨h1, h2, h3⟩ := h
  exact ⟨by simpa [hi] using h1, by simpa [hc] using h2, by simpa [ho] using h3⟩

theorem receive (h : S.Books tr xs part unsent) (b : UInt8) :
    S.Books (tr ++ [.received b]) xs (part ++ [b]) unsent := by
  obtain ⟨h1, h2, h3⟩ := h
  refine ⟨?_, by simpa [Process.calls, Event.answered] using h2,
    by simpa [Process.sent, Event.output] using h3⟩
  rw [received_append, h1, List.append_assoc]
  rfl

theorem receives (h : S.Books tr xs part unsent) (bs : Bytes) :
    S.Books (tr ++ bs.map .received) xs (part ++ bs) unsent := by
  obtain ⟨h1, h2, h3⟩ := h
  refine ⟨?_, by rw [calls_append, calls_received, List.append_nil, h2],
    by rw [sent_append, sent_received, List.append_nil, h3]⟩
  rw [received_append, h1, received_received, List.append_assoc]

/-- The whole of what there was to send. -/
theorem sends (h : S.Books tr xs part unsent) : S.Books (tr ++ unsent.map .sent) xs part [] := by
  obtain ⟨h1, h2, h3⟩ := h
  refine ⟨by rw [received_append, received_sent, List.append_nil, h1],
    by rw [calls_append, calls_sent, List.append_nil, h2], ?_⟩
  rw [sent_append, sent_sent, List.append_nil, h3]

theorem send {b : UInt8} (h : S.Books tr xs part (b :: unsent)) :
    S.Books (tr ++ [.sent b]) xs part unsent := by
  obtain ⟨h1, h2, h3⟩ := h
  refine ⟨by simpa [Process.received, Event.input] using h1,
    by simpa [Process.calls, Event.answered] using h2, ?_⟩
  rw [sent_append, ← h3, List.append_assoc]
  rfl

/-- The request is complete and was answered: it becomes an exchange. -/
theorem close {r : R} (h : S.Books tr xs (S.bytes r) []) {ev : List (Event κ A ε)}
    (hi : Process.received ev = []) (ho : Process.sent ev = []) (reply : Bytes) :
    S.Books (tr ++ ev) (xs ++ [⟨r, Process.calls ev, reply⟩]) [] reply := by
  obtain ⟨h1, h2, h3⟩ := h
  rw [List.append_nil] at h3
  refine ⟨?_, ?_, ?_⟩
  · simp only [received_append, hi, h1, requests_snoc, List.append_nil]
  · rw [calls_append, h2, made_snoc]
  · rw [sent_append, ho, h3, replies_snoc, List.append_nil]

end Books

/-! ## Stages -/

/-- Where a service is that started in `s₀`. -/
inductive Stage (s₀ : σ) : List (Event κ A ε) → Process κ A ε (σ ⊕ ρ) → Prop
  /-- At the end of the loop's body. -/
  | looping {tr xs s} : S.History s₀ xs (.inl s) → S.Books tr xs [] [] → Stage s₀ tr (ret (.inl s))
  /-- Waiting for a request. -/
  | idle {tr xs s} : S.History s₀ xs (.inl s) → S.Books tr xs [] [] → Stage s₀ tr (S.body s)
  /-- Within a request. -/
  | reading {tr xs s b bs k} : S.History s₀ xs (.inl s) → S.Books tr xs (b :: bs) [] →
      Takes (S.first s b) bs (recv k) → Stage s₀ tr (recv k >>= S.answer s)
  /-- About to make the call of a plan. -/
  | calling {tr xs s r q k} : S.History s₀ xs (.inl s) → S.Valid s r →
      S.Books tr xs (S.bytes r) [] → S.plan s r = .ask q k →
      Stage s₀ tr (call q fun a => deliver (k a).1 (k a).2)
  /-- Within the reply of the last exchange. -/
  | writing {tr xs x next b unsent} : S.History s₀ (xs ++ [x]) next →
      S.Books tr (xs ++ [x]) [] (b :: unsent) → b :: unsent <:+ x.reply →
      Stage s₀ tr (deliver (b :: unsent) next)
  /-- Ended by a request. -/
  | ended {tr xs e} : S.History s₀ xs (.inr e) → S.Books tr xs [] [] → Stage s₀ tr (ret (.inr e))
  /-- Left by the other side, between two requests. -/
  | left {tr xs s} : S.History s₀ xs (.inl s) → S.Books tr xs [] [] →
      Stage s₀ tr (ret (.inr S.closed))
  | readFailed {tr xs s part k e} : S.History s₀ xs (.inl s) → S.Books tr xs part [] →
      (∀ r, S.Valid s r → ¬ S.bytes r <+: part) → k = fail e → Stage s₀ tr k
  | writeFailed {tr xs x next unsent e} : S.History s₀ (xs ++ [x]) next →
      S.Books tr (xs ++ [x]) [] unsent → unsent ≠ [] → unsent <:+ x.reply → ¬ WritesOk tr →
      Stage s₀ tr (fail e)

variable {S} {transient : ε → Prop} {s₀ s : σ} {tr : List (Event κ A ε)}
  {xs : List (Exchange κ A R)}

/-- A request is not complete while its reader still receives. -/
theorem incomplete {b : UInt8} {bs : Bytes} {k : Except ε (Option UInt8) → Process κ A ε R}
    (h : Takes (S.first s b) bs (recv k)) {r : R} (hr : S.Valid s r) :
    ¬ S.bytes r <+: b :: bs := by
  rintro ⟨cs, hcs⟩
  obtain ⟨b', bs', hb, ht⟩ := S.complete hr
  rw [hb, List.cons_append] at hcs
  obtain ⟨rfl, rfl⟩ := List.cons.inj hcs
  obtain ⟨y, hy, hk⟩ := h.split
  rw [ht.unique hy |>.symm] at hk
  cases hk

theorem bytes_ne_nil {r : R} (hr : S.Valid s r) : S.bytes r ≠ [] := by
  obtain ⟨b, bs, hb, -⟩ := S.complete hr
  rw [hb]
  exact List.cons_ne_nil b bs

/-- A reply being sent is a stage of its own, unless it is empty. -/
theorem Stage.of_deliver {x : Exchange κ A R} {next : σ ⊕ ρ} {unsent : Bytes}
    (hx : S.History s₀ (xs ++ [x]) next) (hb : S.Books tr (xs ++ [x]) [] unsent)
    (hu : unsent <:+ x.reply) : S.Stage s₀ tr (deliver unsent next) := by
  cases unsent with
  | nil =>
    cases next with
    | inl s => exact .looping hx hb
    | inr e => exact .ended hx hb
  | cons b unsent => exact .writing hx hb hu

/-- The reader of a request returned, or goes on receiving. -/
theorem Stage.of_reader {b : UInt8} {bs : Bytes} {y : Process κ A ε R}
    (hx : S.History s₀ xs (.inl s)) (hb : S.Books tr xs (b :: bs) []) (hy : Takes (S.first s b) bs y) :
    S.Stage s₀ tr (y >>= S.answer s) := by
  have hr := (S.reads s b).takes hy
  cases y with
  | ret r =>
    obtain ⟨hv, hbs⟩ := hr
    rw [List.append_nil] at hbs
    rw [hbs] at hb
    show S.Stage s₀ tr (S.answer s r)
    rw [answer]
    cases hp : S.plan s r with
    | now a =>
      have hg : (S.plan s r).Gives [] (a.1, a.2) := by rw [hp]; exact .now a
      have hc : S.Books (tr ++ []) _ [] a.1 := hb.close rfl rfl a.1
      rw [List.append_nil] at hc
      exact .of_deliver (hx.snoc hv hg) hc List.suffix_rfl
    | ask q k => exact .calling hx hv hb hp
  | recv k => exact .reading hx hb hy
  | fail e => exact hr.elim
  | send b k => exact hr.elim
  | call q k => exact hr.elim

/-- A step goes from stage to stage. -/
theorem Stage.step {p q : Process κ A ε (σ ⊕ ρ)} {ev : List (Event κ A ε)} (h : S.Stage s₀ tr p)
    (hs : Step transient S.body p ev q) : S.Stage s₀ (tr ++ ev) q := by
  cases h with
  | looping hx hb =>
    cases hs with
    | again => exact .idle hx (hb.silent rfl rfl rfl)
  | idle hx hb =>
    cases hs with
    | recv k b => exact .of_reader hx (hb.receive b) .nil
    | hangUp => exact .left hx (hb.silent rfl rfl rfl)
    | recvFail k e =>
      exact .readFailed hx (hb.silent rfl rfl rfl)
        (fun r hr hp => bytes_ne_nil hr (List.prefix_nil.mp hp)) rfl
    | recvRetry => exact .idle hx (hb.silent rfl rfl rfl)
  | @reading xs s b bs k hx hb ht =>
    have hr := ((S.reads s b).takes ht).2
    have hno : ∀ r, S.Valid s r → ¬ S.bytes r <+: b :: bs := fun r => incomplete ht
    cases hs with
    | recv _ c => exact .of_reader hx (hb.receive c) (ht.snoc c)
    | hangUp =>
      obtain ⟨e, he⟩ := hr.1
      have hk : (k (.ok none) >>= S.answer s) = fail e := by rw [he, fail_bind]
      exact .readFailed hx (hb.silent rfl rfl rfl) hno hk
    | recvFail _ e =>
      have hk : (k (.error e) >>= S.answer s) = fail e := by rw [hr.2 e, fail_bind]
      exact .readFailed hx (hb.silent rfl rfl rfl) hno hk
    | recvRetry => exact .reading hx (hb.silent rfl rfl rfl) ht
  | @calling xs s r q k hx hv hb hp =>
    cases hs with
    | call _ _ a =>
      have hg : (S.plan s r).Gives [⟨q, a⟩] ((k a).1, (k a).2) := by rw [hp]; exact .ask a
      exact .of_deliver (hx.snoc hv hg) (hb.close rfl rfl _) List.suffix_rfl
  | writing hx hb hu =>
    cases hs with
    | send => exact .of_deliver hx hb.send ((List.suffix_cons _ _).trans hu)
    | sendFail _ _ e =>
      refine .writeFailed hx (hb.silent rfl rfl rfl) (List.cons_ne_nil _ _) hu fun hw => ?_
      exact absurd (hw (.sendFailed e) (by simp)) (by simp [Event.isSendFailed])
    | sendRetry => exact .writing hx (hb.silent rfl rfl rfl) hu
  | ended hx hb => cases hs
  | left hx hb => cases hs
  | readFailed hx hb hno hk => subst hk; cases hs
  | writeFailed => cases hs

/-- Every run of a service is at a stage. -/
theorem run_stage {p : Process κ A ε (σ ⊕ ρ)} (h : Run transient S.body (S.body s₀) tr p) :
    S.Stage s₀ tr p := by
  induction h with
  | start => exact .idle .nil .nil
  | step _ hs ih => exact ih.step hs

/-! ## A run of a history -/

/-- What a service is at when some exchanges are behind it. -/
def resume (S : Service κ A ε σ ρ R) : σ ⊕ ρ → Process κ A ε (σ ⊕ ρ)
  | .inl s => S.body s
  | .inr e => ret (.inr e)

/-- A reply whose writes all succeed. -/
theorem run_deliver {x : Exchange κ A R} {next : σ ⊕ ρ}
    (h : Run transient S.body (S.body s₀) tr (deliver x.reply next))
    (hb : S.Books tr (xs ++ [x]) [] x.reply) :
    ∃ tr, Run transient S.body (S.body s₀) tr (S.resume next) ∧ S.Books tr (xs ++ [x]) [] [] := by
  have hw : Run transient S.body (S.body s₀) _ (ret next) := h.writeAll
  cases next with
  | inl s => exact ⟨_, hw.step (.again s), hb.sends.silent rfl rfl rfl⟩
  | inr e => exact ⟨_, hw, hb.sends⟩

variable (transient) in
/-- Every history is that of a run. -/
theorem History.run {next : σ ⊕ ρ} (h : S.History s₀ xs next) :
    ∃ tr, Run transient S.body (S.body s₀) tr (S.resume next) ∧ S.Books tr xs [] [] := by
  induction h with
  | nil => exact ⟨[], .start, .nil⟩
  | @snoc xs s r cs reply next _ hv hg ih =>
    obtain ⟨tr, hrun, hb⟩ := ih
    obtain ⟨b, bs, hbytes, ht⟩ := S.complete hv
    have hread : Run transient S.body (S.body s₀) _ (S.answer s r) :=
      (hrun.step (.recv _ b)).takes (ht.bind (S.answer s))
    have hbooks := (hb.receive b).receives bs
    rw [List.nil_append, List.singleton_append, ← hbytes] at hbooks
    rw [answer] at hread
    cases hp : S.plan s r with
    | now a =>
      rw [hp] at hg hread
      cases hg
      have hc : S.Books (_ ++ []) _ [] reply := hbooks.close rfl rfl reply
      rw [List.append_nil] at hc
      exact run_deliver hread hc
    | ask q k =>
      rw [hp] at hg hread
      obtain ⟨a, rfl, ha⟩ := hg.of_ask
      have hcall : Run transient S.body (S.body s₀) _ (deliver (k a).1 (k a).2) :=
        hread.step (.call q _ a)
      rw [ha] at hcall
      exact run_deliver hcall (hbooks.close rfl rfl reply)

/-! ## What a run amounts to -/

variable (S) in
/-- The events of a run, up to `p`, explained by exchanges. -/
structure Explained (s₀ : σ) (tr : List (Event κ A ε)) (p : Process κ A ε (σ ⊕ ρ))
    (xs : List (Exchange κ A R)) (part unsent : Bytes) (next : σ ⊕ ρ) : Prop where
  history : S.History s₀ xs next
  books : S.Books tr xs part unsent
  /-- Only the last reply may be unfinished. -/
  last : unsent = [] ∨ ∃ ys x, xs = ys ++ [x] ∧ unsent <:+ x.reply
  /-- Unless a write failed it is finished before anything else is done. -/
  prompt : WritesOk tr → unsent = [] ∨ ∃ b k, p = send b k
  /-- A complete request is waiting for its call, and for nothing else. -/
  whole : ∀ s r, next = .inl s → S.Valid s r → S.bytes r <+: part → ∃ q k, p = call q k
  /-- The session ends with the reply that ends it. -/
  closed : ∀ e, next = .inr e → part = [] ∧ (unsent = [] → p = ret (.inr e))
  ended : ∀ e, p = ret (.inr e) → part = [] ∧ unsent = [] ∧
    (next = .inr e ∨ e = S.closed ∧ ∃ s, next = .inl s)

theorem Stage.explained {p : Process κ A ε (σ ⊕ ρ)} (h : S.Stage s₀ tr p) :
    ∃ xs part unsent next, S.Explained s₀ tr p xs part unsent next := by
  have nothing : ∀ s r, S.Valid s r → S.bytes r <+: [] → ∃ q k, p = call q k :=
    fun s r hr hp => (bytes_ne_nil hr (List.prefix_nil.mp hp)).elim
  cases h with
  | @looping xs s hx hb =>
    exact ⟨xs, [], [], .inl s, hx, hb, .inl rfl, fun _ => .inl rfl,
      fun s r _ => nothing s r, fun e h => (by cases h), fun e h => (by cases h)⟩
  | @idle xs s hx hb =>
    exact ⟨xs, [], [], .inl s, hx, hb, .inl rfl, fun _ => .inl rfl,
      fun s r _ => nothing s r, fun e h => (by cases h), fun e h => (by cases h)⟩
  | @reading xs s b bs k hx hb ht =>
    refine ⟨xs, b :: bs, [], .inl s, hx, hb, .inl rfl, fun _ => .inl rfl, fun s' r h hr hp => ?_,
      fun e h => (by cases h), fun e h => (by cases h)⟩
    cases h
    exact (incomplete ht hr hp).elim
  | @calling xs s r q k hx hv hb hp =>
    exact ⟨xs, S.bytes r, [], .inl s, hx, hb, .inl rfl, fun _ => .inl rfl,
      fun _ _ _ _ _ => ⟨q, _, rfl⟩, fun e h => (by cases h), fun e h => (by cases h)⟩
  | @writing xs x next b unsent hx hb hu =>
    exact ⟨xs ++ [x], [], b :: unsent, next, hx, hb, .inr ⟨xs, x, rfl, hu⟩,
      fun _ => .inr ⟨b, _, rfl⟩, fun s r _ => nothing s r,
      fun e _ => ⟨rfl, fun h => (by cases h)⟩, fun e h => (by cases h)⟩
  | @ended xs e hx hb =>
    exact ⟨xs, [], [], .inr e, hx, hb, .inl rfl, fun _ => .inl rfl, fun s r h => (by cases h),
      fun e' h => (by cases h; exact ⟨rfl, fun _ => rfl⟩),
      fun e' h => (by cases h; exact ⟨rfl, rfl, .inl rfl⟩)⟩
  | @left xs s hx hb =>
    exact ⟨xs, [], [], .inl s, hx, hb, .inl rfl, fun _ => .inl rfl, fun s r _ => nothing s r,
      fun e h => (by cases h), fun e h => (by cases h; exact ⟨rfl, rfl, .inr ⟨rfl, s, rfl⟩⟩)⟩
  | @readFailed xs s part k e hx hb hno hk =>
    subst hk
    refine ⟨xs, part, [], .inl s, hx, hb, .inl rfl, fun _ => .inl rfl, fun s' r h hr hp => ?_,
      fun e h => (by cases h), fun e h => (by cases h)⟩
    cases h
    exact (hno r hr hp).elim
  | @writeFailed xs x next unsent e hx hb hne hu hw =>
    exact ⟨xs ++ [x], [], unsent, next, hx, hb, .inr ⟨xs, x, rfl, hu⟩, fun h => (hw h).elim,
      fun s r _ => nothing s r, fun e _ => ⟨rfl, fun h => (hne h).elim⟩, fun e h => (by cases h)⟩

end Service

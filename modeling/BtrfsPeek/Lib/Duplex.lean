import BtrfsPeek.Lib.Service
import Mathlib.Logic.Relation

/-!
# A client and a service on two streams

A client and a program exchange bytes over two FIFO streams that lose nothing
(`Net`, `Net.Move`), in any interleaving. A client that writes the bytes of one
request and reads one reply is an `Exchange`, and `InTransit` says where its
bytes are: at the server, on a stream, or still with the client. It is kept by
every move (`InTransit.move`), and there is a move until the client is done
(`InTransit.progress`). So in every interleaving the client gets the reply that
the service plans, and nothing is left on either stream (`exchange_settles`,
`exchange_returns`).
-/

open Process

/-- `Q` is reached, whichever moves are made. -/
inductive Inevitably {N : Type} (move : N → N → Prop) (Q : N → Prop) : N → Prop
  | here {n : N} : Q n → Inevitably move Q n
  | next {n : N} : (∃ m, move n m) → (∀ m, move n m → Inevitably move Q m) → Inevitably move Q n

/-- What can be said of `n` and a number that every move lowers, and of which a
move can be made unless `Q` holds, comes to `Q`. -/
theorem Inevitably.of_measure {N : Type} {move : N → N → Prop} {Q : N → Prop} {I : Nat → N → Prop}
    (hmove : ∀ {k n m}, I k n → move n m → ∃ j < k, I j m)
    (hprogress : ∀ {k n}, I k n → Q n ∨ ∃ m, move n m) {k : Nat} {n : N} (h : I k n) :
    Inevitably move Q n := by
  induction k using Nat.strongRecOn generalizing n with
  | ind k ih =>
    rcases hprogress h with hq | hm
    · exact .here hq
    · refine .next hm fun m hm => ?_
      obtain ⟨j, hj, hi⟩ := hmove h hm
      exact ih j hj hi

theorem Inevitably.exists_moves {N : Type} {move : N → N → Prop} {Q : N → Prop} {n : N}
    (h : Inevitably move Q n) : ∃ m, Relation.ReflTransGen move n m ∧ Q m := by
  induction h with
  | here hq => exact ⟨_, .refl, hq⟩
  | next hm _ ih =>
    obtain ⟨m, hm⟩ := hm
    obtain ⟨m', hms, hq⟩ := ih m hm
    exact ⟨m', hms.head hm, hq⟩

namespace Process

variable {κ : Type} {A : κ → Type} {ε α : Type}

/-- The process has returned or failed. -/
def Over (p : Process κ A ε α) : Prop := (∃ a, p = ret a) ∨ ∃ e, p = fail e

theorem Over.takes {p q : Process κ A ε α} {bs : Bytes} (h : Over p) (ht : Takes p bs q) :
    bs = [] ∧ p = q := by
  cases ht with
  | nil => exact ⟨rfl, rfl⟩
  | cons => rcases h with ⟨a, h⟩ | ⟨e, h⟩ <;> cases h

end Process

/-- What a plan comes to when the calls are answered by `answer`. -/
def Plan.eval {κ : Type} {A : κ → Type} {α ω : Type} (answer : (q : κ) → ω → A q × ω) :
    Plan κ A α → ω → α × ω
  | now a, w => (a, w)
  | ask q k, w => (k (answer q w).1, (answer q w).2)

/-- A client, a server, the bytes on the way from the one to the other and back,
and what the answers to the server's calls depend on. -/
structure Net (κ : Type) (A : κ → Type) (ε σ ρ ω α : Type) where
  client : Process Empty (fun _ => Unit) ε α
  server : Process κ A ε (σ ⊕ ρ)
  up : Bytes
  down : Bytes
  world : ω

namespace Net

variable {κ : Type} {A : κ → Type} {ε σ ρ ω α : Type}

/-- A move of either side. A side waits for a byte until there is one; the
client sees the end of its stream once the server is gone and the stream is
empty. The client stays. -/
inductive Move (loop : σ → Process κ A ε (σ ⊕ ρ)) (answer : (q : κ) → ω → A q × ω) :
    Net κ A ε σ ρ ω α → Net κ A ε σ ρ ω α → Prop
  | clientSend {b k srv up down w} :
      Move loop answer ⟨send b k, srv, up, down, w⟩ ⟨k (.ok ()), srv, up ++ [b], down, w⟩
  | clientRecv {k srv up b down w} :
      Move loop answer ⟨recv k, srv, up, b :: down, w⟩ ⟨k (.ok (some b)), srv, up, down, w⟩
  | clientEnd {k srv up w} : (∃ e, srv = ret (.inr e)) ∨ (∃ e, srv = fail e) →
      Move loop answer ⟨recv k, srv, up, [], w⟩ ⟨k (.ok none), srv, up, [], w⟩
  | serverSend {cl b k up down w} :
      Move loop answer ⟨cl, send b k, up, down, w⟩ ⟨cl, k (.ok ()), up, down ++ [b], w⟩
  | serverRecv {cl k b up down w} :
      Move loop answer ⟨cl, recv k, b :: up, down, w⟩ ⟨cl, k (.ok (some b)), up, down, w⟩
  | serverCall {cl q k up down w} :
      Move loop answer ⟨cl, call q k, up, down, w⟩
        ⟨cl, k (answer q w).1, up, down, (answer q w).2⟩
  | again {cl s up down w} :
      Move loop answer ⟨cl, ret (.inl s), up, down, w⟩ ⟨cl, loop s, up, down, w⟩

/-- Any number of moves. -/
abbrev Moves (loop : σ → Process κ A ε (σ ⊕ ρ)) (answer : (q : κ) → ω → A q × ω) :
    Net κ A ε σ ρ ω α → Net κ A ε σ ρ ω α → Prop :=
  Relation.ReflTransGen (Move loop answer)

end Net

namespace Service

variable {κ : Type} {A : κ → Type} {ε σ ρ R ω α : Type} (S : Service κ A ε σ ρ R)

/-- The server is between two requests, in the state `s`. -/
def Ready (s : σ) (srv : Process κ A ε (σ ⊕ ρ)) : Prop := srv = ret (.inl s) ∨ srv = S.body s

/-- The server has received `pre`, in the state `s`. -/
inductive Has (s : σ) : Bytes → Process κ A ε (σ ⊕ ρ) → Prop
  | nothing : Has s [] (S.body s)
  | begun {b bs y} : Takes (S.first s b) bs y → Has s (b :: bs) (y >>= S.answer s)

/-- The exchange of one request: the server's state before and after, the reply,
and how the client that reads it ends. -/
structure Talk (answer : (q : κ) → ω → A q × ω) (s : σ) (r : R) (w : ω) (reply : Bytes)
    (next : σ ⊕ ρ) (w' : ω) (rd fin : Process Empty (fun _ => Unit) ε α) : Prop where
  valid : S.Valid s r
  planned : (S.plan s r).eval answer w = ((reply, next), w')
  some_reply : reply ≠ []
  reads : Takes rd reply fin
  ends : Over fin

/-- Where the bytes of an exchange are, and a bound on the moves to come. -/
inductive InTransit (answer : (q : κ) → ω → A q × ω) (s : σ) (r : R) (w : ω) (reply : Bytes)
    (next : σ ⊕ ρ) (w' : ω) (rd : Process Empty (fun _ => Unit) ε α) :
    Nat → Net κ A ε σ ρ ω α → Prop
  /-- The server has not begun its loop. -/
  | waiting {up post} : up ++ post = S.bytes r →
      InTransit answer s r w reply next w' rd (2 * post.length + up.length + 2 * reply.length + 4)
        ⟨writeAll post >>= fun _ => rd, ret (.inl s), up, [], w⟩
  /-- The request is on its way. -/
  | asking {pre up post srv} : S.Has s pre srv → pre ++ up ++ post = S.bytes r →
      (up ++ post ≠ []) →
      InTransit answer s r w reply next w' rd (2 * post.length + up.length + 2 * reply.length + 3)
        ⟨writeAll post >>= fun _ => rd, srv, up, [], w⟩
  /-- The server makes the call. -/
  | calling {q k} : S.plan s r = .ask q k →
      InTransit answer s r w reply next w' rd (2 * reply.length + 2)
        ⟨rd, call q fun a => deliver (k a).1 (k a).2, [], [], w⟩
  /-- The reply is on its way. -/
  | replying {done down rest y} : done ++ down ++ rest = reply → Takes rd done y →
      InTransit answer s r w reply next w' rd (2 * rest.length + down.length + 1)
        ⟨y, deliver rest next, [], down, w'⟩
  /-- The server is back in its loop. -/
  | replied {done down y s'} : done ++ down = reply → Takes rd done y → next = .inl s' →
      InTransit answer s r w reply next w' rd down.length ⟨y, S.body s', [], down, w'⟩

variable {S} {answer : (q : κ) → ω → A q × ω} {s : σ} {r : R} {w w' : ω} {reply : Bytes}
  {next : σ ⊕ ρ} {rd fin : Process Empty (fun _ => Unit) ε α}

/-- The server has the whole request and acts on its plan. -/
theorem InTransit.of_whole (h : S.Talk answer s r w reply next w' rd fin)
    {srv : Process κ A ε (σ ⊕ ρ)} (hs : S.Has s (S.bytes r) srv) :
    ∃ k ≤ 2 * reply.length + 2,
      S.InTransit answer s r w reply next w' rd k ⟨rd, srv, [], [], w⟩ := by
  obtain ⟨b, bs, hb, ht⟩ := S.complete h.valid
  rw [hb] at hs
  cases hs with
  | begun hy =>
    rw [hy.unique ht]
    show ∃ k ≤ _, S.InTransit answer s r w reply next w' rd k ⟨rd, S.answer s r, [], [], w⟩
    have hp := h.planned
    rw [Service.answer]
    cases hpl : S.plan s r with
    | now a =>
      rw [hpl] at hp
      cases hp
      have hr : [] ++ [] ++ reply = reply := rfl
      exact ⟨_, by simp, .replying hr .nil⟩
    | ask q k => exact ⟨_, Nat.le_refl _, .calling hpl⟩

/-- The server receives a byte of the request. -/
theorem Has.receive {pre bs : Bytes} {b : UInt8}
    {k : Except ε (Option UInt8) → Process κ A ε (σ ⊕ ρ)} (hv : S.Valid s r)
    (h : S.Has s pre (recv k)) (hr : pre ++ b :: bs = S.bytes r) :
    S.Has s (pre ++ [b]) (k (.ok (some b))) := by
  generalize hsrv : recv k = srv at h
  cases h with
  | nothing =>
    cases hsrv
    exact .begun .nil
  | begun hy =>
    obtain ⟨c', cs', hb, ht⟩ := S.complete hv
    rw [hb, List.cons_append] at hr
    obtain ⟨rfl, rfl⟩ := List.cons.inj hr
    obtain ⟨y', hy', hrest⟩ := ht.split
    rw [hy'.unique hy] at hrest
    obtain ⟨k', rfl, -⟩ := hrest.receiving
    cases hsrv
    exact .begun (hy.snoc b)

/-- A server that has part of a request waits for more. -/
theorem Has.receiving {pre bs : Bytes} {srv : Process κ A ε (σ ⊕ ρ)} (hv : S.Valid s r)
    (h : S.Has s pre srv) (hr : pre ++ bs = S.bytes r) (hbs : bs ≠ []) : ∃ k, srv = recv k := by
  cases h with
  | nothing => exact ⟨_, rfl⟩
  | begun hy =>
    obtain ⟨c', cs', hb, ht⟩ := S.complete hv
    rw [hb, List.cons_append] at hr
    obtain ⟨rfl, rfl⟩ := List.cons.inj hr
    obtain ⟨y', hy', hrest⟩ := ht.split
    rw [hy'.unique hy] at hrest
    obtain ⟨b, bs, rfl⟩ := List.exists_cons_of_ne_nil hbs
    obtain ⟨k', rfl, -⟩ := hrest.receiving
    exact ⟨_, rfl⟩

/-- What the client has yet to read of the reply. -/
theorem Talk.rest (h : S.Talk answer s r w reply next w' rd fin) {done bs : Bytes}
    {y : Process Empty (fun _ => Unit) ε α} (hr : done ++ bs = reply) (hy : Takes rd done y) :
    Takes y bs fin := by
  have ht := h.reads
  rw [← hr] at ht
  obtain ⟨y', hy', hrest⟩ := ht.split
  rw [hy'.unique hy] at hrest
  exact hrest

/-- It only reads. -/
theorem Talk.not_send (h : S.Talk answer s r w reply next w' rd fin) {done bs : Bytes} {b : UInt8}
    {k : Except ε Unit → Process Empty (fun _ => Unit) ε α} (hr : done ++ bs = reply) :
    ¬ Takes rd done (send b k) := by
  intro hy
  have ht := h.rest hr hy
  cases ht with
  | nil => rcases h.ends with ⟨a, ha⟩ | ⟨e, he⟩ <;> contradiction

/-- The client that has sent its request waits for the reply. -/
theorem Talk.receiving (h : S.Talk answer s r w reply next w' rd fin) : ∃ k, rd = recv k := by
  obtain ⟨b, bs, hb⟩ := List.exists_cons_of_ne_nil h.some_reply
  have ht := h.reads
  rw [hb] at ht
  obtain ⟨k, hk, -⟩ := ht.receiving
  exact ⟨k, hk⟩

/-- Every move keeps the exchange in transit and brings it nearer to its end. -/
theorem InTransit.move (h : S.Talk answer s r w reply next w' rd fin) {k : Nat}
    {n m : Net κ A ε σ ρ ω α} (hn : S.InTransit answer s r w reply next w' rd k n)
    (hm : Net.Move S.body answer n m) :
    ∃ j < k, S.InTransit answer s r w reply next w' rd j m := by
  obtain ⟨k₀, rfl⟩ := h.receiving
  cases hn with
  | @waiting up post hb =>
    have hne : up ++ post ≠ [] := fun e => bytes_ne_nil h.valid (hb ▸ e)
    cases post with
    | nil =>
      cases hm with
      | clientEnd ho => rcases ho with ⟨e, he⟩ | ⟨e, he⟩ <;> cases he
      | again => exact ⟨_, by omega, .asking .nothing hb hne⟩
    | cons b post =>
      cases hm with
      | clientSend =>
        have hb' : up ++ [b] ++ post = S.bytes r := by rw [← hb]; simp
        refine ⟨_, ?_, .waiting hb'⟩
        simp only [List.length_append, List.length_cons, List.length_nil]; omega
      | again => exact ⟨_, by omega, .asking .nothing hb hne⟩
  | @asking pre up post srv hs hb hne =>
    obtain ⟨k₁, rfl⟩ := hs.receiving h.valid (by rw [← hb, List.append_assoc]) hne
    have hrecv : ∀ b up', up = b :: up' → ∃ j < 2 * post.length + up.length + 2 * reply.length + 3,
        S.InTransit answer s r w reply next w' (recv k₀) j
          ⟨writeAll post >>= fun _ => recv k₀, k₁ (.ok (some b)), up', [], w⟩ := by
      rintro b up' rfl
      have hb' : pre ++ b :: (up' ++ post) = S.bytes r := by rw [← hb]; simp
      have hs' := hs.receive h.valid hb'
      by_cases he : up' ++ post = []
      · obtain ⟨rfl, rfl⟩ := List.append_eq_nil_iff.mp he
        have hw : pre ++ [b] = S.bytes r := hb'
        rw [hw] at hs'
        obtain ⟨j, hj, ht⟩ := InTransit.of_whole h hs'
        exact ⟨j, by simp only [List.length_cons, List.length_nil]; omega, ht⟩
      · refine ⟨_, ?_, .asking hs' (by rw [← hb']; simp) he⟩
        simp only [List.length_cons]; omega
    cases post with
    | nil =>
      cases hm with
      | clientEnd ho => rcases ho with ⟨e, he⟩ | ⟨e, he⟩ <;> cases he
      | serverRecv => exact hrecv _ _ rfl
    | cons b post =>
      cases hm with
      | clientSend =>
        have hb' : pre ++ (up ++ [b]) ++ post = S.bytes r := by rw [← hb]; simp
        refine ⟨_, ?_, .asking hs hb' (by simp)⟩
        simp only [List.length_append, List.length_cons, List.length_nil]; omega
      | serverRecv => exact hrecv _ _ rfl
  | @calling q k hp =>
    cases hm with
    | clientEnd ho => rcases ho with ⟨e, he⟩ | ⟨e, he⟩ <;> cases he
    | serverCall =>
      have he := h.planned
      rw [hp, Plan.eval] at he
      obtain ⟨hk, rfl⟩ := Prod.mk.inj he
      show ∃ j < _, S.InTransit answer s r w reply next (answer q w).2 (recv k₀) j
        ⟨recv k₀, deliver (k (answer q w).1).1 (k (answer q w).1).2, [], [], (answer q w).2⟩
      rw [hk]
      have hr : [] ++ [] ++ reply = reply := rfl
      exact ⟨_, by simp, .replying hr .nil⟩
  | @replying done down rest y hr hy =>
    have hr' : done ++ (down ++ rest) = reply := by rw [← hr, List.append_assoc]
    have ht : Takes y (down ++ rest) fin := h.rest hr' hy
    have hrecv : ∀ b down', down = b :: down' → ∀ k, y = recv k →
        ∃ j < 2 * rest.length + down.length + 1,
          S.InTransit answer s r w reply next w' (recv k₀) j
            ⟨k (.ok (some b)), deliver rest next, [], down', w'⟩ := by
      rintro b down' rfl k rfl
      have hb : done ++ [b] ++ down' ++ rest = reply := by rw [← hr]; simp
      refine ⟨_, ?_, .replying hb (hy.snoc b)⟩
      simp only [List.length_cons]; omega
    have hover : down ++ rest = [] → ∀ k, y ≠ recv k := by
      intro hd k hk
      rw [hd] at ht
      cases ht
      subst hk
      rcases h.ends with ⟨a, ha⟩ | ⟨e, he⟩
      · cases ha
      · cases he
    cases rest with
    | nil =>
      cases next with
      | inl s' =>
        cases hm with
        | clientSend => exact (h.not_send hr' hy).elim
        | clientRecv => exact hrecv _ _ rfl _ rfl
        | clientEnd ho => rcases ho with ⟨e, he⟩ | ⟨e, he⟩ <;> cases he
        | again =>
          rw [List.append_nil] at hr
          exact ⟨_, by simp, .replied hr hy rfl⟩
      | inr e =>
        cases hm with
        | clientSend => exact (h.not_send hr' hy).elim
        | clientRecv => exact hrecv _ _ rfl _ rfl
        | clientEnd => exact (hover rfl _ rfl).elim
    | cons b rest =>
      cases hm with
      | clientSend => exact (h.not_send hr' hy).elim
      | clientRecv => exact hrecv _ _ rfl _ rfl
      | clientEnd ho => rcases ho with ⟨e, he⟩ | ⟨e, he⟩ <;> cases he
      | serverSend =>
        have hb : done ++ (down ++ [b]) ++ rest = reply := by rw [← hr]; simp
        refine ⟨_, ?_, .replying hb hy⟩
        simp only [List.length_append, List.length_cons, List.length_nil]; omega
  | @replied done down y s' hr hy hnext =>
    cases hm with
    | clientSend => exact (h.not_send hr hy).elim
    | clientRecv =>
      refine ⟨_, ?_, .replied (by rw [← hr]; simp) (hy.snoc _) hnext⟩
      simp
    | clientEnd ho => rcases ho with ⟨e, he⟩ | ⟨e, he⟩ <;> cases he

/-- Until the client is done a move can be made. -/
theorem InTransit.progress (h : S.Talk answer s r w reply next w' rd fin) {k : Nat}
    {n : Net κ A ε σ ρ ω α} (hn : S.InTransit answer s r w reply next w' rd k n) :
    Over n.client ∨ ∃ m, Net.Move S.body answer n m := by
  cases hn with
  | waiting => exact .inr ⟨_, .again⟩
  | @asking pre up post srv hs hb hne =>
    cases up with
    | cons b up =>
      obtain ⟨k, rfl⟩ := hs.receiving h.valid (by rw [← hb, List.append_assoc]) hne
      exact .inr ⟨_, .serverRecv⟩
    | nil =>
      cases post with
      | nil => exact (hne rfl).elim
      | cons b post => exact .inr ⟨_, .clientSend⟩
  | calling => exact .inr ⟨_, .serverCall⟩
  | @replying done down rest y hr hy =>
    cases rest with
    | cons b rest => exact .inr ⟨_, .serverSend⟩
    | nil =>
      rw [List.append_nil] at hr
      have ht := h.rest hr hy
      cases down with
      | cons b down =>
        obtain ⟨k, rfl, -⟩ := ht.receiving
        exact .inr ⟨_, .clientRecv⟩
      | nil =>
        cases ht
        exact .inl h.ends
  | @replied done down y s' hr hy hnext =>
    have ht := h.rest hr hy
    cases down with
    | cons b down =>
      obtain ⟨k, rfl, -⟩ := ht.receiving
      exact .inr ⟨_, .clientRecv⟩
    | nil =>
      cases ht
      exact .inl h.ends

/-- The exchange is over: the client has read the reply, nothing is left on
either stream, and the server has gone on. -/
structure Settled (S : Service κ A ε σ ρ R) (next : σ ⊕ ρ) (w' : ω)
    (fin : Process Empty (fun _ => Unit) ε α) (n : Net κ A ε σ ρ ω α) : Prop where
  client : n.client = fin
  up : n.up = []
  down : n.down = []
  server : (∃ s', next = .inl s' ∧ S.Ready s' n.server) ∨ ∃ e, next = .inr e ∧ n.server = ret (.inr e)
  world : n.world = w'

/-- A client that is done has the whole reply. -/
theorem InTransit.settled (h : S.Talk answer s r w reply next w' rd fin) {k : Nat}
    {n : Net κ A ε σ ρ ω α} (hn : S.InTransit answer s r w reply next w' rd k n)
    (ho : Over n.client) : S.Settled next w' fin n := by
  obtain ⟨k₀, rfl⟩ := h.receiving
  have hwait : ∀ {post : Bytes},
      ¬ Over (writeAll post >>= fun _ => recv k₀ : Process Empty (fun _ => Unit) ε α) := by
    intro post ho
    cases post <;> rcases ho with ⟨a, ha⟩ | ⟨e, he⟩ <;> contradiction
  cases hn with
  | waiting => exact (hwait ho).elim
  | asking => exact (hwait ho).elim
  | calling => exact (@hwait [] ho).elim
  | @replying done down rest y hr hy =>
    obtain ⟨hd, rfl⟩ := ho.takes (h.rest (by rw [← hr, List.append_assoc]) hy)
    obtain ⟨rfl, rfl⟩ := List.append_eq_nil_iff.mp hd
    refine ⟨rfl, rfl, rfl, ?_, rfl⟩
    cases next with
    | inl s' => exact .inl ⟨s', rfl, .inl rfl⟩
    | inr e => exact .inr ⟨e, rfl, rfl⟩
  | @replied done down y s' hr hy hnext =>
    obtain ⟨rfl, rfl⟩ := ho.takes (h.rest hr hy)
    exact ⟨rfl, rfl, rfl, .inl ⟨s', hnext, .inr rfl⟩, rfl⟩

/-- An exchange begins with the server between two requests. -/
theorem InTransit.start (h : S.Talk answer s r w reply next w' rd fin)
    {srv : Process κ A ε (σ ⊕ ρ)} (hs : S.Ready s srv) :
    ∃ k, S.InTransit answer s r w reply next w' rd k
      ⟨writeAll (S.bytes r) >>= fun _ => rd, srv, [], [], w⟩ := by
  rcases hs with rfl | rfl
  · exact ⟨_, .waiting (show [] ++ S.bytes r = S.bytes r from rfl)⟩
  · have hb : [] ++ [] ++ S.bytes r = S.bytes r := rfl
    exact ⟨_, .asking .nothing hb (bytes_ne_nil h.valid)⟩

/-- It stays in transit. -/
theorem InTransit.moves (h : S.Talk answer s r w reply next w' rd fin)
    {srv : Process κ A ε (σ ⊕ ρ)} (hs : S.Ready s srv) {m : Net κ A ε σ ρ ω α}
    (hm : Net.Moves S.body answer ⟨writeAll (S.bytes r) >>= fun _ => rd, srv, [], [], w⟩ m) :
    ∃ k, S.InTransit answer s r w reply next w' rd k m := by
  induction hm with
  | refl => exact InTransit.start h hs
  | tail _ hm ih =>
    obtain ⟨k, hk⟩ := ih
    obtain ⟨j, -, hj⟩ := hk.move h hm
    exact ⟨j, hj⟩

/-- A client that is done with the exchange of one request has what the service
planned for it, in every interleaving, -/
theorem exchange_settles (h : S.Talk answer s r w reply next w' rd fin)
    {srv : Process κ A ε (σ ⊕ ρ)} (hs : S.Ready s srv) {m : Net κ A ε σ ρ ω α}
    (hm : Net.Moves S.body answer ⟨writeAll (S.bytes r) >>= fun _ => rd, srv, [], [], w⟩ m)
    (ho : Over m.client) : S.Settled next w' fin m := by
  obtain ⟨k, hk⟩ := InTransit.moves h hs hm
  exact hk.settled h ho

/-- and in every interleaving it is done at some time. -/
theorem exchange_returns (h : S.Talk answer s r w reply next w' rd fin)
    {srv : Process κ A ε (σ ⊕ ρ)} (hs : S.Ready s srv) :
    Inevitably (Net.Move S.body answer) (fun n => Over n.client)
      (⟨writeAll (S.bytes r) >>= fun _ => rd, srv, [], [], w⟩ : Net κ A ε σ ρ ω α) := by
  obtain ⟨k, hk⟩ := InTransit.start (ω := ω) h hs
  exact .of_measure (fun hi hm => hi.move h hm) (fun hi => hi.progress h) hk

/-- A client that is done without a request leaves the service as it is. -/
theorem over_settles {c : Process Empty (fun _ => Unit) ε α} (hc : Over c)
    {srv : Process κ A ε (σ ⊕ ρ)} (hs : S.Ready s srv) {m : Net κ A ε σ ρ ω α}
    (hm : Net.Moves S.body answer ⟨c, srv, [], [], w⟩ m) : S.Settled (.inl s) w c m := by
  induction hm with
  | refl => exact ⟨rfl, rfl, rfl, .inl ⟨s, rfl, hs⟩, rfl⟩
  | @tail n m _ hm ih =>
    obtain ⟨cl, srv', up, down, w'⟩ := n
    obtain ⟨rfl, rfl, rfl, hs', rfl⟩ := ih
    rcases hs' with ⟨s', he, hs'⟩ | ⟨e, he, -⟩
    · cases he
      rcases hs' with rfl | rfl
      · cases hm with
        | clientSend => rcases hc with ⟨a, ha⟩ | ⟨e, he⟩ <;> contradiction
        | clientEnd => rcases hc with ⟨a, ha⟩ | ⟨e, he⟩ <;> contradiction
        | again => exact ⟨rfl, rfl, rfl, .inl ⟨s, rfl, .inr rfl⟩, rfl⟩
      · cases hm with
        | clientSend => rcases hc with ⟨a, ha⟩ | ⟨e, he⟩ <;> contradiction
        | clientEnd => rcases hc with ⟨a, ha⟩ | ⟨e, he⟩ <;> contradiction
    · cases he

end Service

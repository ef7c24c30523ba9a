import BtrfsPeek.Helper.Server
import BtrfsPeek.Lib.Duplex

/-!
# The helper's client

A client's calls, one after another, against the server over two streams. What
they are for is said by `direct`, without a protocol: a session has at most one
open file, and a call is a call of what the server calls, or an error.
`session_agrees` says that in every interleaving each call returns just that, that
nothing is left on either stream after it, and that the session goes on until an
update installed a version.
-/

namespace BtrfsPeek.Helper

open Process

/-- A call of a session that has begun. -/
inductive Op
  | open (path : String)
  /-- Into a buffer of `size` bytes. -/
  | readAt (size : Nat) (off : UInt64)
  | update (version : String)

/-- What a call returns. -/
inductive Value
  | version (v : String)
  | opened
  | data (b : Bytes)
  | update (reply : String) (installed : Option Version)
  deriving DecidableEq

def startCall : Client Value := do
  let v ← Session.start
  pure (.version v)

def Op.call : Op → Client Value
  | .open path => do
    Session.open path
    pure .opened
  | .readAt size off => do
    let b ← Session.readAt size off.toNat
    pure (.data b)
  | .update version => do
    let (reply, installed) ← Session.update version
    pure (.update reply installed)

/-! ## What the calls are for -/

variable {F ω : Type}

/-- A session: the file that is open, what the server's calls depend on, and
whether the session has ended. -/
structure State (F ω : Type) where
  file : Option F
  world : ω
  ended : Bool

/-- An error of the other side: its text. -/
def remoteError (text : String) : IoError := ⟨.other, text, .device⟩

def refusalError : Refusal → IoError
  | .notFound m => ⟨.notFound, m, .device⟩
  | .refused m => ⟨.invalidData, s!"the helper refused: {m}", .device⟩
  | .failed m => remoteError m

def Update.version? : Update → Option Version
  | upToDate _ => none
  | installed v => some v

/-- What `open` gave. -/
def opened (st : State F ω) : Except Refusal F × ω → Except IoError Value × State F ω
  | (.ok f, w) => (.ok .opened, { st with file := some f, world := w })
  | (.error r, w) => (.error (refusalError r), { st with world := w })

/-- What a read of the file gave. -/
def didRead (st : State F ω) {len : Nat} :
    Except IoError { b : Bytes // b.length ≤ len } × ω → Except IoError Value × State F ω
  | (.ok data, w) => (.ok (.data data.1), { st with world := w })
  | (.error e, w) => (.error (remoteError e.text), { st with world := w })

/-- What the update came to. -/
def updated (st : State F ω) : Except IoError Update × ω → Except IoError Value × State F ω
  | (.ok u, w) => (.ok (.update u.text u.version?), { st with world := w, ended := u.version?.isSome })
  | (.error e, w) => (.error (remoteError e.text), { st with world := w })

/-- A call, made where the files are. -/
def direct (answer : (q : Ask F) → ω → Answer q × ω) (op : Op) (st : State F ω) :
    Except IoError Value × State F ω :=
  match op with
  | .open path =>
    if (utf8 path).length > MAX_PATH then
      (.error ⟨.invalidInput, s!"path longer than {MAX_PATH} bytes", .device⟩, st)
    else
      match st.file with
      | some _ => (.error (remoteError "a device is already open on this connection"), st)
      | none => opened st (answer (.open path) st.world)
  | .readAt size off =>
    match st.file with
    | none => (.error (remoteError "READ before OPEN"), st)
    | some f => didRead st (answer (.readAt f off.toNat (min size MAX_READ)) st.world)
  | .update _ => updated st (answer .update st.world)

/-- A text that a reply can carry, and that is not what an older service
answers. -/
structure Fits (t : String) : Prop where
  short : (utf8 t).length ≤ MAX_MESSAGE
  other : t ≠ s!"unknown operation {UPDATE}"

/-- All texts that come of the server's calls fit. -/
structure TextsFit (answer : (q : Ask F) → ω → Answer q × ω) : Prop where
  refusal {path : String} {w : ω} {r : Refusal} : (answer (.open path) w).1 = .error r → Fits r.message
  read {f : F} {off len : Nat} {w : ω} {e : IoError} :
    (answer (.readAt f off len) w).1 = .error e → Fits e.text
  update {w : ω} {u : Update} : (answer .update w).1 = .ok u → Fits u.text
  failed {w : ω} {e : IoError} : (answer .update w).1 = .error e → Fits e.text

/-- All texts that come of opening and reading fit. -/
structure ReadsFit (answer : (q : Ask F) → ω → Answer q × ω) : Prop where
  refusal {path : String} {w : ω} {r : Refusal} : (answer (.open path) w).1 = .error r → Fits r.message
  read {f : F} {off len : Nat} {w : ω} {e : IoError} :
    (answer (.readAt f off len) w).1 = .error e → Fits e.text

theorem TextsFit.reads (fits : TextsFit answer) : ReadsFit answer := ⟨fits.refusal, fits.read⟩

/-- The texts that come of a call fit. -/
def Op.Fitting (answer : (q : Ask F) → ω → Answer q × ω) : Op → Prop
  | .open _ | .readAt .. => ReadsFit answer
  | .update _ => TextsFit answer

theorem TextsFit.fitting (fits : TextsFit answer) (op : Op) : op.Fitting answer := by
  cases op with
  | «open» path => exact fits.reads
  | readAt size off => exact fits.reads
  | update version => exact fits

/-! ## Reading a reply -/

theorem takes_header {status : UInt8} {n : Nat} (h : n < 2 ^ 32) :
    Takes Session.header (status :: Bytes.toLE 4 n) (ret (status, n)) := by
  have ht : Takes (readExact shortRead (status :: Bytes.toLE 4 n).length : Client Bytes) _ _ :=
    takes_readExact shortRead (status :: Bytes.toLE 4 n)
  rw [List.length_cons, Bytes.length_toLE] at ht
  have hs : Bytes.slice (status :: Bytes.toLE 4 n) 1 4 = Bytes.toLE 4 n := by
    have := List.take_length (l := Bytes.toLE 4 n)
    rw [Bytes.length_toLE] at this
    exact this
  have := ht.bind fun h => pure (h.getD 0 0, Bytes.ofLE (h.slice 1 4))
  rw [ret_bind, hs, Bytes.ofLE_toLE_of_lt h] at this
  exact this

theorem takes_message {t : String} (h : (utf8 t).length ≤ MAX_MESSAGE) :
    Takes (Session.message (utf8 t).length) (utf8 t) (ret t) := by
  rw [Session.message, if_neg (Nat.not_lt.mpr h)]
  have := (takes_readExact (κ := Empty) (A := fun _ => Unit) shortRead (utf8 t)).bind
    fun b => pure (lossy b)
  rw [ret_bind, lossy_utf8] at this
  exact this

theorem max_message_lt : MAX_MESSAGE < 2 ^ 32 := by decide

/-- A short reply is its payload, or the error it carries. -/
theorem takes_reply {t : String} (status : UInt8) (h : (utf8 t).length ≤ MAX_MESSAGE) :
    Takes Session.reply (message status (utf8 t))
      (if status ≠ OK then fail (statusError status t) else ret (utf8 t)) := by
  have h1 := (takes_header (h.trans_lt max_message_lt) : Takes _ (status :: _) _).bind
    fun x => Session.message x.2 >>= fun msg =>
      if x.1 ≠ OK then fail (statusError x.1 msg) else pure (utf8 msg)
  have h2 := (takes_message h).bind fun msg =>
    (if status ≠ OK then fail (statusError status msg) else pure (utf8 msg) : Client Bytes)
  exact h1.trans h2

/-- How a client ends whose call comes to `r`. -/
def finish : Except IoError Value → Client Value
  | .ok v => ret v
  | .error e => fail e

theorem over_finish (r : Except IoError Value) : Over (finish r) := by
  cases r with
  | ok v => exact .inl ⟨v, rfl⟩
  | error e => exact .inr ⟨e, rfl⟩

/-- Where the server goes on. -/
def State.next (st : State F ω) : Phase F ⊕ Ended :=
  if st.ended then .inr .updated else .inl (.serving st.file)

theorem message_ne_nil (status : UInt8) (payload : Bytes) : message status payload ≠ [] :=
  List.cons_ne_nil _ _

variable {answer : (q : Ask F) → ω → Answer q × ω} {st : State F ω}

/-- The call `c` is an exchange in which the client gets what `d` says and the
session goes on as it says. -/
def Asks (answer : (q : Ask F) → ω → Answer q × ω) (s : Phase F) (w : ω) (c : Client Value)
    (d : Except IoError Value × State F ω) : Prop :=
  ∃ r rd reply, c = (writeAll r.bytes >>= fun _ => rd) ∧
    (helper F).Talk answer s r w reply d.2.next d.2.world rd (finish d.1)

/-- An exchange in which the client reads a short reply. -/
theorem Asks.of_reply {s : Phase F} {w : ω} {c : Client Value} {d : Except IoError Value × State F ω}
    {r : Request} {status : UInt8} {t : String} {f : Bytes → Client Value} (hv : Valid s r)
    (hc : c = (writeAll r.bytes >>= fun _ => Session.reply >>= f))
    (hp : (plan s r).eval answer w = ((message status (utf8 t), d.2.next), d.2.world))
    (ht : (utf8 t).length ≤ MAX_MESSAGE)
    (hd : (if status ≠ OK then fail (statusError status t) else ret (utf8 t)) >>= f = finish d.1) :
    Asks answer s w c d := by
  refine ⟨r, _, _, hc, hv, hp, message_ne_nil _ _, ?_, over_finish _⟩
  rw [← hd]
  exact (takes_reply status ht).bind f

theorem plan_hello :
    plan (F := F) .greeting (.hello PROTOCOL) =
      .now (message OK (utf8 VERSION), .inl (.serving none)) := by
  rw [plan, if_neg (by decide)]

/-- The handshake. -/
theorem start_asks (w : ω) : Asks answer .greeting w startCall
    (.ok (.version VERSION), ⟨(none : Option F), w, false⟩) := by
  have hc : startCall = (writeAll (Request.hello PROTOCOL).bytes >>=
      fun _ => Session.reply >>= fun v => pure (.version (lossy v))) := by
    rw [startCall, Session.start]
    simp only [Process.bind_assoc]
    rfl
  have hv : Valid (Phase.greeting : Phase F) (.hello PROTOCOL) := trivial
  refine @Asks.of_reply _ _ _ _ _ _ _ _ OK VERSION _ hv hc ?_ (by decide +kernel) ?_
  · rw [plan_hello]
    rfl
  · rw [if_neg (by decide), ret_bind, lossy_utf8]
    rfl

/-- A path that is not too long. -/
theorem open_asks (fits : ReadsFit answer) (path : String) (hp : ¬ (utf8 path).length > MAX_PATH)
    (he : st.ended = false) :
    Asks answer (.serving st.file) st.world (Op.call (.open path)) (direct answer (.open path) st) := by
  have hc : Op.call (.open path) = (writeAll (Request.openPath (utf8 path)).bytes >>=
      fun _ => Session.reply >>= fun _ => pure Value.opened) := by
    rw [Op.call, Session.open, if_neg hp]
    simp only [Process.bind_assoc]
    rfl
  have hv : Valid (.serving st.file) (.openPath (utf8 path)) := Nat.le_of_not_gt hp
  rw [direct, if_neg hp]
  obtain ⟨file, w, ended⟩ := st
  obtain rfl : ended = false := he
  cases file with
  | some f =>
    refine @Asks.of_reply _ _ _ _ _ _ _ _ ERROR "a device is already open on this connection" _ hv hc
      ?_ (by decide +kernel) rfl
    rw [plan_openTwice _ rfl]
    rfl
  | none =>
    have hpl := @plan_open F none (utf8 path) (by simp)
    rw [fromUtf8_utf8] at hpl
    have hpe : (plan (.serving none) (.openPath (utf8 path))).eval answer w =
        (afterOpen none (answer (.open path) w).1, (answer (.open path) w).2) := by
      rw [hpl]
      rfl
    show Asks answer _ w _ (opened ⟨none, w, false⟩ (answer (.open path) w))
    have hfit : ∀ r, (answer (.open path) w).1 = .error r → Fits r.message := fun r => fits.refusal
    rcases hres : answer (.open path) w with ⟨r | f, w'⟩
    · rw [hres] at hpe hfit
      refine @Asks.of_reply _ _ _ _ _ _ _ _ r.status r.message _ hv hc hpe (hfit r rfl).short ?_
      cases r <;> rfl
    · rw [hres] at hpe
      exact @Asks.of_reply _ _ _ _ _ _ _ _ OK "" _ hv hc hpe (by decide) rfl

/-- What a read does with the reply. -/
def readReply (len : Nat) : Client Bytes := do
  let (status, n) ← Session.header
  if status ≠ OK then do
    let msg ← Session.message n
    fail (statusError status msg)
  else if n > len then
    fail ⟨.invalidData, s!"the helper sent {n} bytes for a read of {len}", .device⟩
  else readExact shortRead n

theorem takes_readReply_error {t : String} (len : Nat) (h : (utf8 t).length ≤ MAX_MESSAGE) :
    Takes (readReply len) (message ERROR (utf8 t)) (fail (remoteError t)) := by
  have h1 := (takes_header (h.trans_lt max_message_lt) : Takes _ (ERROR :: _) _).bind fun x =>
    if x.1 ≠ OK then Session.message x.2 >>= fun msg => fail (statusError x.1 msg)
    else if x.2 > len then
      fail ⟨.invalidData, s!"the helper sent {x.2} bytes for a read of {len}", .device⟩
    else readExact shortRead x.2
  rw [ret_bind, if_pos (show ERROR ≠ OK by decide)] at h1
  exact h1.trans ((takes_message h).bind fun msg => fail (statusError ERROR msg))

theorem max_read_lt : MAX_READ < 2 ^ 32 := by decide

theorem takes_readReply_ok {b : Bytes} {len : Nat} (h : b.length ≤ len) (hl : len ≤ MAX_READ) :
    Takes (readReply len) (message OK b) (ret b) := by
  have h1 := (takes_header ((h.trans hl).trans_lt max_read_lt) : Takes _ (OK :: _) _).bind fun x =>
    if x.1 ≠ OK then Session.message x.2 >>= fun msg => fail (statusError x.1 msg)
    else if x.2 > len then
      fail ⟨.invalidData, s!"the helper sent {x.2} bytes for a read of {len}", .device⟩
    else readExact shortRead x.2
  rw [ret_bind, if_neg (show ¬ OK ≠ OK by decide), if_neg (Nat.not_lt.mpr h)] at h1
  exact h1.trans (takes_readExact shortRead b)

theorem read_asks (fits : ReadsFit answer) (size : Nat) (off : UInt64) (he : st.ended = false) :
    Asks answer (.serving st.file) st.world (Op.call (.readAt size off))
      (direct answer (.readAt size off) st) := by
  let len := min size MAX_READ
  have hl : len ≤ MAX_READ := Nat.min_le_right _ _
  have hc : Op.call (.readAt size off) = (writeAll (Request.read off.toNat len).bytes >>=
      fun _ => readReply len >>= fun b => pure (Value.data b)) := by
    rw [Op.call, Session.readAt, Process.bind_assoc]
    rfl
  have hv : Valid (.serving st.file) (.read off.toNat len) :=
    ⟨off.toNat_lt, hl.trans_lt max_read_lt⟩
  obtain ⟨file, w, ended⟩ := st
  obtain rfl : ended = false := he
  cases file with
  | none =>
    have hp := plan_readNone (F := F) off.toNat (Nat.not_lt.mpr hl)
    have hpe : (plan (.serving (none : Option F)) (.read off.toNat len)).eval answer w =
        ((message ERROR (utf8 "READ before OPEN"), .inl (.serving none)), w) := by
      rw [hp]
      rfl
    refine ⟨_, _, _, hc, hv, hpe, message_ne_nil _ _, ?_, over_finish _⟩
    exact (takes_readReply_error len (by decide +kernel)).bind fun b => pure (Value.data b)
  | some f =>
    have hp := plan_read f off.toNat (Nat.not_lt.mpr hl)
    have hpe : (plan (.serving (some f)) (.read off.toNat len)).eval answer w =
        (afterRead (some f) (answer (.readAt f off.toNat len) w).1,
          (answer (.readAt f off.toNat len) w).2) := by
      rw [hp]
      rfl
    show Asks answer _ w _ (didRead ⟨some f, w, false⟩ (answer (.readAt f off.toNat len) w))
    have hfit : ∀ e, (answer (.readAt f off.toNat len) w).1 = .error e → Fits e.text :=
      fun e => fits.read
    rcases hres : answer (.readAt f off.toNat len) w with ⟨e | data, w'⟩
    · rw [hres] at hpe hfit
      refine ⟨_, _, _, hc, hv, hpe, message_ne_nil ERROR (utf8 e.text), ?_, over_finish _⟩
      exact (takes_readReply_error len (hfit e rfl).short).bind fun b => pure (Value.data b)
    · rw [hres] at hpe
      refine ⟨_, _, _, hc, hv, hpe, message_ne_nil OK data.1, ?_, over_finish _⟩
      exact (takes_readReply_ok data.2 hl).bind fun b => pure (Value.data b)

/-- What an update does with the reply. -/
def updateReply (version : String) : Except IoError Bytes → Client Value
  | .ok r => pure (.update (lossy r) (installedVersion (lossy r)))
  | .error e =>
    if e.text = s!"unknown operation {UPDATE}" then
      fail ⟨.other, s!"this helper ({version}) predates self-update; run `btrfs-peek helper install` from an elevated terminal once more", .device⟩
    else fail e

theorem update_asks (fits : TextsFit answer) (version : String) (he : st.ended = false) :
    Asks answer (.serving st.file) st.world (Op.call (.update version))
      (direct answer (.update version) st) := by
  have hc : Op.call (.update version) = (writeAll Request.update.bytes >>=
      fun _ => Session.reply.attempt >>= updateReply version) := by
    rw [Op.call, Session.update]
    simp only [Process.bind_assoc]
    congr 1
    funext _
    congr 1
    funext r
    rcases r with e | r
    · exact ite_bind _ _ _
    · rfl
  have hv : Valid (.serving st.file) .update := trivial
  obtain ⟨file, w, ended⟩ := st
  obtain rfl : ended = false := he
  have hpe : (plan (.serving file) .update).eval answer w =
      (afterUpdate file (answer .update w).1, (answer .update w).2) := rfl
  show Asks answer _ w _ (updated ⟨file, w, false⟩ (answer .update w))
  have hfail : ∀ e, (answer .update w).1 = .error e → Fits e.text := fun e => fits.failed
  have hok : ∀ u, (answer .update w).1 = .ok u → Fits u.text := fun u => fits.update
  rcases hres : answer .update w with ⟨e | u, w'⟩
  · rw [hres] at hpe hfail
    refine ⟨_, _, _, hc, hv, hpe, message_ne_nil ERROR (utf8 e.text), ?_, over_finish _⟩
    have ht := (takes_reply ERROR (hfail e rfl).short).attempt.bind (updateReply version)
    rw [if_pos (show ERROR ≠ OK by decide)] at ht
    have hu : updateReply version (.error (statusError ERROR e.text)) = fail (remoteError e.text) :=
      if_neg (hfail e rfl).other
    show Takes _ _ (fail (remoteError e.text))
    rw [← hu]
    exact ht
  · rw [hres] at hpe hok
    have ht := (takes_reply OK (hok u rfl).short).attempt.bind (updateReply version)
    rw [if_neg (show ¬ OK ≠ OK by decide)] at ht
    have hu : updateReply version (.ok (utf8 u.text)) = ret (.update u.text u.version?) := by
      rw [updateReply, lossy_utf8]
      cases u with
      | upToDate v => rw [installedVersion_upToDate]; rfl
      | installed v => rw [installedVersion_installed]; rfl
    have hpe' : (plan (.serving file) .update).eval answer w =
        ((message OK (utf8 u.text), (updated ⟨file, w, false⟩ (.ok u, w')).2.next), w') := by
      rw [hpe]
      cases u <;> rfl
    refine ⟨_, _, _, hc, hv, hpe', message_ne_nil _ _, ?_, over_finish _⟩
    show Takes _ _ (ret (Value.update u.text u.version?))
    rw [← hu]
    exact ht

/-! ## Sessions -/

/-- A connection, between two calls of the client. -/
structure Line (F ω : Type) where
  server : Server F (Phase F ⊕ Ended)
  up : Bytes
  down : Bytes
  world : ω

/-- The client makes the call `c`. -/
def Line.during (l : Line F ω) (c : Client Value) :
    Net (Ask F) (@Answer F) IoError (Phase F) Ended ω Value :=
  ⟨c, l.server, l.up, l.down, l.world⟩

/-- The client's call is over. -/
def lineOf (n : Net (Ask F) (@Answer F) IoError (Phase F) Ended ω Value) : Line F ω :=
  ⟨n.server, n.up, n.down, n.world⟩

/-- A connection on which the client has said nothing yet. -/
def fresh (w : ω) : Line F ω := ⟨serve .greeting, [], [], w⟩

/-- The client made these calls, one after another, and they came to these
results, in some interleaving with the server. -/
inductive Makes (answer : (q : Ask F) → ω → Answer q × ω) (l₀ : Line F ω) :
    List (Client Value) → List (Except IoError Value) → Line F ω → Prop
  | nil : Makes answer l₀ [] [] l₀
  | snoc {cs rs l c r n} : Makes answer l₀ cs rs l → Net.Moves serve answer (l.during c) n →
      n.client = finish r → Makes answer l₀ (cs ++ [c]) (rs ++ [r]) (lineOf n)

/-- The calls, made where the files are. -/
def directs (answer : (q : Ask F) → ω → Answer q × ω) :
    List Op → State F ω → List (Except IoError Value) × State F ω
  | [], st => ([], st)
  | op :: ops, st =>
    let (r, st) := direct answer op st
    let (rs, st) := directs answer ops st
    (r :: rs, st)

theorem directs_snoc (ops : List Op) (op : Op) (st : State F ω) :
    directs answer (ops ++ [op]) st =
      ((directs answer ops st).1 ++ [(direct answer op (directs answer ops st).2).1],
        (direct answer op (directs answer ops st).2).2) := by
  induction ops generalizing st with
  | nil => rfl
  | cons o ops ih => simp only [List.cons_append, directs, ih]

/-- The connection is as it should be after calls that led to `st`: nothing is
left on it, and the server is in its loop, or has ended the session. -/
structure Good (st : State F ω) (l : Line F ω) : Prop where
  up : l.up = []
  down : l.down = []
  world : l.world = st.world
  server : if st.ended = true then l.server = ret (.inr .updated)
    else (helper F).Ready (.serving st.file) l.server

theorem finish_injective {r r' : Except IoError Value} (h : finish r = finish r') : r = r' := by
  cases r <;> cases r' <;> cases h <;> rfl

/-- What an exchange leaves is as it should be. -/
theorem good_of_settled {n : Net (Ask F) (@Answer F) IoError (Phase F) Ended ω Value}
    {fin : Client Value} (h : (helper F).Settled st.next st.world fin n) : Good st (lineOf n) := by
  refine ⟨h.up, h.down, h.world, ?_⟩
  rcases h.server with ⟨s', hn, hs⟩ | ⟨e, hn, hs⟩
  · unfold State.next at hn
    split_ifs at hn ⊢
    cases hn
    exact hs
  · unfold State.next at hn
    split_ifs at hn ⊢
    cases hn
    exact hs

/-- A call of a session that goes on: what its client comes to, and that it
does. -/
theorem call_agrees (op : Op) (fits : op.Fitting answer) {l : Line F ω} (hg : Good st l)
    (he : st.ended = false) :
    (∀ n, Net.Moves serve answer (l.during op.call) n → Over n.client →
      n.client = finish (direct answer op st).1 ∧ Good (direct answer op st).2 (lineOf n)) ∧
    Inevitably (Net.Move serve answer) (fun n => Over n.client) (l.during op.call) := by
  obtain ⟨srv, up, down, w⟩ := l
  obtain ⟨rfl, rfl, rfl, hs⟩ := hg
  rw [he, if_neg (by simp)] at hs
  rw [serve_eq]
  have of_asks : Asks answer (.serving st.file) st.world op.call (direct answer op st) →
      (∀ n, Net.Moves (helper F).body answer (Line.during ⟨srv, [], [], st.world⟩ op.call) n →
        Over n.client → n.client = finish (direct answer op st).1 ∧
          Good (direct answer op st).2 (lineOf n)) ∧
      Inevitably (Net.Move (helper F).body answer) (fun n => Over n.client)
        (Line.during ⟨srv, [], [], st.world⟩ op.call) := by
    rintro ⟨r, rd, reply, hc, ht⟩
    rw [hc]
    refine ⟨fun n hm ho => ?_, Service.exchange_returns ht hs⟩
    have := Service.exchange_settles ht hs hm ho
    exact ⟨this.client, good_of_settled this⟩
  cases op with
  | «open» path =>
    by_cases hp : (utf8 path).length > MAX_PATH
    · have hc : Op.call (.open path) =
          fail ⟨.invalidInput, s!"path longer than {MAX_PATH} bytes", .device⟩ := by
        rw [Op.call, Session.open, if_pos hp]
        rfl
      have hd : direct answer (.open path) st =
          (.error ⟨.invalidInput, s!"path longer than {MAX_PATH} bytes", .device⟩, st) := if_pos hp
      have hover : Over (Op.call (.open path)) := .inr ⟨_, hc⟩
      refine ⟨fun n hm ho => ?_, .here hover⟩
      have hset := Service.over_settles hover hs hm
      rw [hd]
      refine ⟨hset.client.trans hc, ?_⟩
      have hnext : st.next = .inl (.serving st.file) := by rw [State.next, he]; rfl
      rw [← hnext] at hset
      exact good_of_settled hset
    · exact of_asks (open_asks fits path hp he)
  | readAt size off => exact of_asks (read_asks fits size off he)
  | update version => exact of_asks (update_asks fits version he)

/-- The handshake. -/
theorem start_agrees (w : ω) :
    (∀ n, Net.Moves serve answer ((fresh w : Line F ω).during startCall) n → Over n.client →
      n.client = finish (.ok (.version VERSION)) ∧ Good ⟨none, w, false⟩ (lineOf n)) ∧
    Inevitably (Net.Move serve answer) (fun n => Over n.client)
      ((fresh w : Line F ω).during startCall) := by
  obtain ⟨r, rd, reply, hc, ht⟩ := (start_asks w : Asks answer _ _ _ _)
  have hs : (helper F).Ready .greeting (serve .greeting) := .inr (by rw [serve_eq])
  rw [serve_eq] at hs ⊢
  rw [hc, fresh, serve_eq]
  refine ⟨fun n hm ho => ?_, Service.exchange_returns ht hs⟩
  have := Service.exchange_settles ht hs hm ho
  exact ⟨this.client, good_of_settled this⟩

theorem Makes.of_snoc {l₀ l : Line F ω} {cs : List (Client Value)} {c : Client Value}
    {rs : List (Except IoError Value)} (h : Makes answer l₀ (cs ++ [c]) rs l) :
    ∃ rs' l' r n, Makes answer l₀ cs rs' l' ∧ Net.Moves serve answer (l'.during c) n ∧
      n.client = finish r ∧ rs = rs' ++ [r] ∧ l = lineOf n := by
  generalize hcs : cs ++ [c] = cs' at h
  cases h with
  | nil => simp at hcs
  | @snoc cs' rs' l' c' r n h hm hr =>
    obtain ⟨rfl, hc⟩ := List.append_inj' hcs rfl
    obtain ⟨rfl, -⟩ := List.cons.inj hc
    exact ⟨rs', l', r, n, h, hm, hr, rfl, rfl⟩

theorem Makes.of_nil {l₀ l : Line F ω} {rs : List (Except IoError Value)}
    (h : Makes answer l₀ [] rs l) : rs = [] ∧ l = l₀ := by
  generalize hcs : ([] : List (Client Value)) = cs at h
  cases h with
  | nil => exact ⟨rfl, rfl⟩
  | snoc => simp at hcs

/-- A session ends for an update that installed a version, and for nothing
else. -/
theorem ended_of_direct {op : Op} (h : (direct answer op st).2.ended = true) :
    st.ended = true ∨ ∃ v, (answer .update st.world).1 = .ok (.installed v) := by
  cases op with
  | «open» path =>
    left
    change (if _ then _ else _ : Except IoError Value × State F ω).2.ended = true at h
    split at h
    · exact h
    · split at h
      · exact h
      · rcases hres : answer (.open path) st.world with ⟨r | f, w⟩ <;> rw [hres] at h <;> exact h
  | readAt size off =>
    left
    cases hf : st.file with
    | none =>
      rw [direct, hf] at h
      exact h
    | some f =>
      rw [direct, hf] at h
      rcases hres : answer (.readAt f off.toNat (min size MAX_READ)) st.world with ⟨e | d, w⟩ <;>
        simp only [hres] at h <;> exact h
  | update version =>
    rw [direct] at h
    rcases hres : answer .update st.world with ⟨e | u, w⟩
    · rw [hres] at h
      exact .inl h
    · rw [hres] at h
      cases u with
      | upToDate v => cases h
      | installed v => exact .inr ⟨v, rfl⟩

theorem exists_finish {c : Client Value} (h : Over c) : ∃ r, c = finish r := by
  rcases h with ⟨v, rfl⟩ | ⟨e, rfl⟩
  · exact ⟨.ok v, rfl⟩
  · exact ⟨.error e, rfl⟩

/-- Each of the calls is made while the session goes on. -/
def Alive (answer : (q : Ask F) → ω → Answer q × ω) (st : State F ω) (ops : List Op) : Prop :=
  ∀ pre op post, ops = pre ++ op :: post → (directs answer pre st).2.ended = false

theorem Alive.of_snoc {ops : List Op} {op : Op} (h : Alive answer st (ops ++ [op])) :
    Alive answer st ops ∧ (directs answer ops st).2.ended = false :=
  ⟨fun pre o post ho => h pre o (post ++ [op]) (by rw [ho]; simp), h ops op [] rfl⟩

theorem calls_snoc (ops : List Op) (op : Op) : startCall :: (ops ++ [op]).map Op.call =
    (startCall :: ops.map Op.call) ++ [op.call] := by
  simp

/-- What the calls come to on a connection, and how they leave it. -/
theorem Makes.agrees {w : ω} {ops : List Op} (fits : ∀ op ∈ ops, op.Fitting answer) {l : Line F ω}
    {rs : List (Except IoError Value)} (alive : Alive answer ⟨none, w, false⟩ ops)
    (h : Makes answer (fresh w) (startCall :: ops.map Op.call) rs l) :
    rs = .ok (.version VERSION) :: (directs answer ops ⟨none, w, false⟩).1 ∧
      Good (directs answer ops ⟨none, w, false⟩).2 l := by
  induction ops using List.reverseRecOn generalizing rs l with
  | nil =>
    rw [show startCall :: [].map Op.call = [] ++ [startCall] from rfl] at h
    obtain ⟨rs', l', r, n, h', hm, hr, rfl, rfl⟩ := h.of_snoc
    obtain ⟨rfl, rfl⟩ := h'.of_nil
    obtain ⟨hc, hg⟩ := (start_agrees w).1 n hm (hr ▸ over_finish r)
    obtain rfl := finish_injective (hr.symm.trans hc)
    exact ⟨rfl, hg⟩
  | append_singleton ops op ih =>
    rw [calls_snoc] at h
    obtain ⟨rs', l', r, n, h', hm, hr, rfl, rfl⟩ := h.of_snoc
    obtain ⟨hrs, hg⟩ := ih (fun o ho => fits o (List.mem_append_left _ ho)) alive.of_snoc.1 h'
    obtain ⟨hc, hg'⟩ := (call_agrees op (fits op (by simp)) hg alive.of_snoc.2).1 n hm (hr ▸ over_finish r)
    obtain rfl := finish_injective (hr.symm.trans hc)
    rw [directs_snoc]
    exact ⟨by rw [hrs]; rfl, hg'⟩

/-- The calls can be made. -/
theorem exists_makes {ops : List Op} (fits : ∀ op ∈ ops, op.Fitting answer) (w : ω)
    (alive : Alive answer ⟨none, w, false⟩ ops) :
    ∃ rs l, Makes answer (fresh w) (startCall :: ops.map Op.call) rs l := by
  induction ops using List.reverseRecOn with
  | nil =>
    obtain ⟨n, hm, ho⟩ := (@start_agrees F ω answer w).2.exists_moves
    obtain ⟨r, hr⟩ := exists_finish ho
    exact ⟨_, _, .snoc .nil hm hr⟩
  | append_singleton ops op ih =>
    have hfits := fun o ho => fits o (List.mem_append_left _ ho)
    obtain ⟨rs, l, h⟩ := ih hfits alive.of_snoc.1
    obtain ⟨-, hg⟩ := h.agrees hfits alive.of_snoc.1
    obtain ⟨n, hm, ho⟩ := (call_agrees op (fits op (by simp)) hg alive.of_snoc.2).2.exists_moves
    obtain ⟨r, hr⟩ := exists_finish ho
    rw [calls_snoc]
    exact ⟨_, _, .snoc h hm hr⟩

/-- In every interleaving of a client's calls with the server, the handshake
returns, each call returns what it would where the files are, nothing is left on
either stream after it, and the session goes on, so that the next call returns as
well, until an update has installed a version. -/
theorem session_agrees (fits : TextsFit answer) (w : ω) :
    Inevitably (Net.Move serve answer) (fun n => Over n.client)
      ((fresh w : Line F ω).during startCall) ∧
    ∀ ops rs l, Alive answer ⟨none, w, false⟩ ops →
      Makes answer (fresh w) (startCall :: ops.map Op.call) rs l →
      rs = .ok (.version VERSION) :: (directs answer ops ⟨none, w, false⟩).1 ∧
      Good (directs answer ops ⟨none, w, false⟩).2 l ∧
      ((directs answer ops ⟨none, w, false⟩).2.ended = false → ∀ op : Op,
        Inevitably (Net.Move serve answer) (fun n => Over n.client) (l.during op.call)) := by
  refine ⟨(start_agrees w).2, fun ops rs l alive h => ?_⟩
  obtain ⟨hrs, hg⟩ := h.agrees (fun op _ => fits.fitting op) alive
  exact ⟨hrs, hg, fun he op => (call_agrees op (fits.fitting op) hg he).2⟩

/-- A server that opens one file, and cannot update. -/
def oneFile : (q : Ask Bytes) → Unit → Answer q × Unit
  | .open path, w =>
    if path = "disk" then (.ok [10, 11, 12, 13], w) else (.error (.notFound "no such partition"), w)
  | .readAt f off len, w => (.ok ⟨f.slice off len, by rw [Bytes.length_slice]; omega⟩, w)
  | .update, w => (.error ⟨.other, "no network", .device⟩, w)

theorem oneFile_open (path : String) (w : Unit) : oneFile (.open path) w =
    if path = "disk" then (.ok [10, 11, 12, 13], w)
    else (.error (.notFound "no such partition"), w) := rfl

theorem oneFile_fits : TextsFit oneFile := by
  refine ⟨@fun path w r h => ?_, fun h => (by cases h), fun h => (by cases h), fun h => ?_⟩
  · rw [oneFile_open] at h
    split_ifs at h
    cases h
    exact ⟨by decide +kernel, by decide +kernel⟩
  · cases h
    exact ⟨by decide +kernel, by decide +kernel⟩

theorem oneFile_alive (ops : List Op) : Alive oneFile ⟨none, (), false⟩ ops := by
  intro pre op post hops
  clear hops
  induction pre using List.reverseRecOn with
  | nil => rfl
  | append_singleton pre o ih =>
    rw [directs_snoc]
    refine Bool.eq_false_iff.mpr fun h => ?_
    rcases ended_of_direct h with h | ⟨v, hv⟩
    · rw [ih] at h
      cases h
    · cases hv

/-- A read before anything is open, then one of a file. -/
theorem session_agrees_oneFile : ∃ rs l,
    Makes oneFile (fresh ()) (startCall ::
      [Op.readAt 2 1, .open "disk", .readAt 2 1].map Op.call) rs l ∧
    rs = [.ok (.version VERSION), .error (remoteError "READ before OPEN"), .ok .opened,
      .ok (.data [11, 12])] := by
  obtain ⟨rs, l, h⟩ := exists_makes (fun op _ => oneFile_fits.fitting op) ()
    (oneFile_alive [.readAt 2 1, .open "disk", .readAt 2 1])
  refine ⟨rs, l, h, ?_⟩
  rw [((session_agrees oneFile_fits ()).2 _ rs l (oneFile_alive _) h).1]
  decide +kernel

end BtrfsPeek.Helper

import BtrfsPeek.Helper.Protocol
import BtrfsPeek.Lib.Service

/-!
# The helper's server

`serve` as a service: what it reads is a `Request`, what it makes of one is its
`plan`, and `serve_eq` says that its body is that of the service `helper`. What
follows for every run, whatever a client sends and whatever the calls answer, is
`serve_safe`.
-/

namespace BtrfsPeek.Helper

open Process

/-- What a client can send. -/
inductive Request
  | hello (proto : UInt8)
  | openPath (path : Bytes)
  /-- The length of a path that is too long. The path itself is not read. -/
  | openLong (len : Nat)
  | read (off len : Nat)
  | update
  | unknown (op : UInt8)
  deriving DecidableEq

def Request.bytes : Request → Bytes
  | hello proto => [proto]
  | openPath path => OPEN :: (Bytes.toLE 4 path.length ++ path)
  | openLong len => OPEN :: Bytes.toLE 4 len
  | read off len => READ :: (Bytes.toLE 8 off ++ Bytes.toLE 4 len)
  | update => [UPDATE]
  | unknown op => [op]

theorem Request.bytes_ne_nil (r : Request) : r.bytes ≠ [] := by
  cases r <;> simp [bytes]

variable {F : Type}

/-- The requests there are in a phase. -/
def Valid : Phase F → Request → Prop
  | .greeting, .hello _ => True
  | .serving _, .openPath path => path.length ≤ MAX_PATH
  | .serving _, .openLong len => MAX_PATH < len ∧ len < 2 ^ 32
  | .serving _, .read off len => off < 2 ^ 64 ∧ len < 2 ^ 32
  | .serving _, .update => True
  | .serving _, .unknown op => op ≠ OPEN ∧ op ≠ READ ∧ op ≠ UPDATE
  | _, _ => False

/-- The rest of a request, after its first byte. -/
def readRequest : Phase F → UInt8 → Server F Request
  | .greeting, proto => ret (.hello proto)
  | .serving _, op =>
    if op = OPEN then do
      let len ← readU32
      if len > MAX_PATH then ret (.openLong len)
      else do
        let path ← readExact shortRead len
        ret (.openPath path)
    else if op = READ then do
      let off ← readU64
      let len ← readU32
      ret (.read off len)
    else if op = UPDATE then ret .update
    else ret (.unknown op)

abbrev Next (F : Type) := Bytes × (Phase F ⊕ Ended)

def afterOpen (file : Option F) : Except Refusal F → Next F
  | .ok f => (message OK [], .inl (.serving (some f)))
  | .error r => (message r.status (utf8 r.message), .inl (.serving file))

def afterRead (file : Option F) {len : Nat} : Except IoError { b : Bytes // b.length ≤ len } → Next F
  | .ok data => (message OK data.1, .inl (.serving file))
  | .error e => (message ERROR (utf8 e.text), .inl (.serving file))

def afterUpdate (file : Option F) : Except IoError Update → Next F
  | .ok (.installed v) => (message OK (utf8 (Update.installed v).text), .inr .updated)
  | .ok (.upToDate v) => (message OK (utf8 (Update.upToDate v).text), .inl (.serving file))
  | .error e => (message ERROR (utf8 e.text), .inl (.serving file))

/-- What is made of a request. The last case is no request of the phase. -/
def plan : Phase F → Request → Plan (Ask F) Answer (Next F)
  | .greeting, .hello proto =>
    if proto ≠ PROTOCOL then
      .now (message ERROR (utf8 s!"this helper speaks protocol {PROTOCOL}, the client {proto}: install the helper again with the same btrfs-peek"),
        .inr .closed)
    else .now (message OK (utf8 VERSION), .inl (.serving none))
  | .serving file, .openPath path =>
    if file.isSome then
      .now (message ERROR (utf8 "a device is already open on this connection"), .inl (.serving file))
    else
      match fromUtf8 path with
      | none => .now (message ERROR (utf8 "the path is not UTF-8"), .inl (.serving file))
      | some path => .ask (.open path) (afterOpen file)
  | .serving _, .openLong _ =>
    .now (message ERROR (utf8 s!"path longer than {MAX_PATH} bytes"), .inr .closed)
  | .serving file, .read off len =>
    if len > MAX_READ then
      .now (message ERROR (utf8 s!"reads are at most {MAX_READ} bytes"), .inl (.serving file))
    else
      match file with
      | none => .now (message ERROR (utf8 "READ before OPEN"), .inl (.serving none))
      | some f => .ask (.readAt f off len) (afterRead (some f))
  | .serving file, .update => .ask .update (afterUpdate file)
  | .serving _, .unknown op => .now (message ERROR (utf8 s!"unknown operation {op}"), .inr .closed)
  | _, _ => .now ([], .inr .closed)

/-! ## Requests are read back -/

section read

variable {κ : Type} {A : κ → Type}

theorem reads_readU32 : Reads (readU32 : Process κ A IoError Nat)
    fun bs n => bs = Bytes.toLE 4 n ∧ n < 2 ^ 32 := by
  apply (reads_readExact shortRead 4).bind
  rintro bs a ⟨rfl, hl⟩
  refine ⟨?_, ?_⟩
  · rw [List.append_nil, ← hl, Bytes.toLE_ofLE]
  · have := Bytes.ofLE_lt a
    rw [hl] at this
    exact this

theorem reads_readU64 : Reads (readU64 : Process κ A IoError Nat)
    fun bs n => bs = Bytes.toLE 8 n ∧ n < 2 ^ 64 := by
  apply (reads_readExact shortRead 8).bind
  rintro bs a ⟨rfl, hl⟩
  refine ⟨?_, ?_⟩
  · rw [List.append_nil, ← hl, Bytes.toLE_ofLE]
  · have := Bytes.ofLE_lt a
    rw [hl] at this
    exact this

theorem takes_readU32 {n : Nat} (h : n < 2 ^ 32) :
    Takes (readU32 : Process κ A IoError Nat) (Bytes.toLE 4 n) (ret n) := by
  have ht : Takes (readExact shortRead (Bytes.toLE 4 n).length : Process κ A IoError Bytes) _ _ :=
    takes_readExact shortRead (Bytes.toLE 4 n)
  rw [Bytes.length_toLE] at ht
  have := ht.bind fun b => pure (Bytes.ofLE b)
  rw [ret_bind, Bytes.ofLE_toLE_of_lt h] at this
  exact this

theorem takes_readU64 {n : Nat} (h : n < 2 ^ 64) :
    Takes (readU64 : Process κ A IoError Nat) (Bytes.toLE 8 n) (ret n) := by
  have ht : Takes (readExact shortRead (Bytes.toLE 8 n).length : Process κ A IoError Bytes) _ _ :=
    takes_readExact shortRead (Bytes.toLE 8 n)
  rw [Bytes.length_toLE] at ht
  have := ht.bind fun b => pure (Bytes.ofLE b)
  rw [ret_bind, Bytes.ofLE_toLE_of_lt h] at this
  exact this

end read

/-- A reader of a request takes a request's bytes. -/
theorem reads_readRequest (s : Phase F) (b : UInt8) :
    Reads (readRequest s b) fun bs r => Valid s r ∧ b :: bs = r.bytes := by
  cases s with
  | greeting => exact ⟨trivial, rfl⟩
  | serving file =>
    apply Reads.ite
    · rintro rfl
      apply reads_readU32.bind
      rintro bs len ⟨rfl, hlen⟩
      apply Reads.ite
      · intro hl
        exact ⟨⟨hl, hlen⟩, by simp [Request.bytes]⟩
      · intro hl
        apply (reads_readExact shortRead len).bind
        rintro bs path ⟨rfl, rfl⟩
        exact ⟨Nat.le_of_not_gt hl, by simp [Request.bytes]⟩
    · intro hopen
      apply Reads.ite
      · rintro rfl
        apply reads_readU64.bind
        rintro bs off ⟨rfl, hoff⟩
        apply reads_readU32.bind
        rintro bs len ⟨rfl, hlen⟩
        exact ⟨⟨hoff, hlen⟩, by simp [Request.bytes]⟩
      · intro hread
        apply Reads.ite
        · rintro rfl
          exact ⟨trivial, rfl⟩
        · intro hupdate
          exact ⟨⟨hopen, hread, hupdate⟩, rfl⟩

/-- Of each request the reader takes all bytes and no more. -/
theorem takes_readRequest {s : Phase F} {r : Request} (h : Valid s r) :
    ∃ b bs, r.bytes = b :: bs ∧ Takes (readRequest s b) bs (ret r) := by
  cases s with
  | greeting =>
    cases r with
    | hello proto => exact ⟨proto, [], rfl, .nil⟩
    | _ => exact h.elim
  | serving file =>
    cases r with
    | hello proto => exact h.elim
    | openPath path =>
      have hp : path.length < 2 ^ 32 := Nat.lt_of_le_of_lt h (by decide)
      refine ⟨OPEN, _, rfl, ?_⟩
      rw [readRequest, if_pos rfl]
      refine ((takes_readU32 hp).bind _).trans ?_
      rw [ret_bind, if_neg (Nat.not_lt.mpr h)]
      exact (takes_readExact shortRead path).bind _
    | openLong len =>
      refine ⟨OPEN, _, rfl, ?_⟩
      rw [readRequest, if_pos rfl]
      have := (takes_readU32 h.2 : Takes (readU32 : Server F Nat) _ _).bind fun len =>
        if len > MAX_PATH then ret (Request.openLong len)
        else readExact shortRead len >>= fun path => ret (.openPath path)
      rw [ret_bind, if_pos h.1] at this
      exact this
    | read off len =>
      refine ⟨READ, _, rfl, ?_⟩
      rw [readRequest, if_neg (by decide), if_pos rfl]
      refine ((takes_readU64 h.1).bind _).trans ?_
      exact (takes_readU32 h.2).bind _
    | update => exact ⟨UPDATE, [], rfl, .nil⟩
    | unknown op =>
      refine ⟨op, [], rfl, ?_⟩
      rw [readRequest, if_neg h.1, if_neg h.2.1, if_neg h.2.2]
      exact .nil

/-- The helper's service. -/
def helper (F : Type) : Service (Ask F) Answer IoError (Phase F) Ended Request where
  first := readRequest
  closed := .closed
  bytes := Request.bytes
  Valid := Valid
  plan := plan
  reads := reads_readRequest
  complete := takes_readRequest

theorem answer_now {s : Phase F} {r : Request} {a : Next F} (h : plan s r = .now a) :
    (helper F).answer s r = Service.deliver a.1 a.2 := by
  show ((plan s r).run >>= fun a => Service.deliver a.1 a.2) = _
  rw [h]
  rfl

theorem answer_ask {s : Phase F} {r : Request} {q : Ask F} {k : Answer q → Next F}
    (h : plan s r = .ask q k) :
    (helper F).answer s r = ask q >>= fun a => Service.deliver (k a).1 (k a).2 := by
  show ((plan s r).run >>= fun a => Service.deliver a.1 a.2) = _
  rw [h]
  rfl

/-- The two writes of a READ's reply are one message. -/
theorem deliver_data (data : Bytes) (next : Phase F ⊕ Ended) :
    (do
      writeAll (OK :: Bytes.toLE 4 data.length)
      writeAll data
      pure next : Server F (Phase F ⊕ Ended)) = Service.deliver (message OK data) next := by
  rw [Service.deliver, message, ← List.cons_append, writeAll_append, Process.bind_assoc]
  rfl

theorem plan_openTwice {file : Option F} (path : Bytes) (h : file.isSome = true) :
    plan (.serving file) (.openPath path) =
      .now (message ERROR (utf8 "a device is already open on this connection"), .inl (.serving file)) :=
  if_pos h

theorem plan_open {file : Option F} (path : Bytes) (h : ¬ file.isSome = true) :
    plan (.serving file) (.openPath path) = match fromUtf8 path with
      | none => .now (message ERROR (utf8 "the path is not UTF-8"), .inl (.serving file))
      | some path => .ask (.open path) (afterOpen file) :=
  if_neg h

theorem plan_readLong (file : Option F) (off : Nat) {len : Nat} (h : len > MAX_READ) :
    plan (.serving file) (.read off len) =
      .now (message ERROR (utf8 s!"reads are at most {MAX_READ} bytes"), .inl (.serving file)) :=
  if_pos h

theorem plan_readNone (off : Nat) {len : Nat} (h : ¬ len > MAX_READ) :
    plan (.serving (none : Option F)) (.read off len) =
      .now (message ERROR (utf8 "READ before OPEN"), .inl (.serving none)) :=
  if_neg h

theorem plan_read (f : F) (off : Nat) {len : Nat} (h : ¬ len > MAX_READ) :
    plan (.serving (some f)) (.read off len) = .ask (.readAt f off len) (afterRead (some f)) :=
  if_neg h

theorem gives_hello : (plan (F := F) .greeting (.hello PROTOCOL)).Gives []
    (message OK (utf8 VERSION), .inl (.serving none)) := .now _

theorem gives_open (path : String) (a : Except Refusal F) :
    (plan (.serving none) (.openPath (utf8 path))).Gives [⟨.open path, a⟩] (afterOpen none a) := by
  rw [plan_open _ (by simp), fromUtf8_utf8]
  exact Plan.Gives.ask (A := Answer) (q := Ask.open path) a

theorem gives_read (f : F) (off len : Nat) (h : ¬ len > MAX_READ)
    (a : Except IoError { b : Bytes // b.length ≤ len }) :
    (plan (.serving (some f)) (.read off len)).Gives [⟨.readAt f off len, a⟩]
      (afterRead (some f) a) := by
  rw [plan_read f off h]
  exact Plan.Gives.ask (A := Answer) (q := Ask.readAt f off len) a

theorem gives_update (file : Option F) (a : Except IoError Update) :
    (plan (.serving file) .update).Gives [⟨.update, a⟩] (afterUpdate file a) :=
  Plan.Gives.ask (A := Answer) (q := (Ask.update : Ask F)) a

/-- The body of `serve_client` is the service's: each operation reads one
request and sends the one reply that is planned for it. -/
theorem serve_eq : (serve : Phase F → Server F (Phase F ⊕ Ended)) = (helper F).body := by
  funext s
  cases s with
  | greeting =>
    show recv _ = recv _
    congr 1
    funext r
    rcases r with e | _ | proto
    · rfl
    · rfl
    show _ = (helper F).answer .greeting (.hello proto)
    by_cases h : proto ≠ PROTOCOL
    · have hp : plan (F := F) .greeting (.hello proto) = _ := if_pos h
      rw [answer_now hp]
      exact if_pos h
    · have hp : plan (F := F) .greeting (.hello proto) = _ := if_neg h
      rw [answer_now hp]
      exact if_neg h
  | serving file =>
    show recv _ = recv _
    congr 1
    funext r
    rcases r with e | _ | op
    · rfl
    · rfl
    show _ = readRequest (.serving file) op >>= (helper F).answer (.serving file)
    by_cases hopen : op = OPEN
    · refine (if_pos hopen).trans ?_
      rw [readRequest, if_pos hopen, Process.bind_assoc]
      congr 1
      funext len
      by_cases hlen : len > MAX_PATH
      · rw [if_pos hlen, if_pos hlen, ret_bind, answer_now rfl]
        rfl
      rw [if_neg hlen, if_neg hlen, Process.bind_assoc]
      congr 1
      funext path
      show _ = (helper F).answer (.serving file) (.openPath path)
      by_cases hfile : file.isSome = true
      · rw [if_pos hfile, answer_now (plan_openTwice path hfile)]
        rfl
      have hp := plan_open path hfile
      rw [if_neg hfile]
      cases hpath : fromUtf8 path with
      | none =>
        rw [hpath] at hp
        rw [answer_now hp]
        rfl
      | some path' =>
        rw [hpath] at hp
        rw [answer_ask hp]
        show (ask (Ask.open path') >>= _) = _
        congr 1
        funext a
        rcases a with r | f
        · rfl
        · rfl
    refine (if_neg hopen).trans ?_
    rw [readRequest, if_neg hopen]
    by_cases hread : op = READ
    · rw [if_pos hread, if_pos hread, Process.bind_assoc]
      congr 1
      funext off
      rw [Process.bind_assoc]
      congr 1
      funext len
      show _ = (helper F).answer (.serving file) (.read off len)
      by_cases hlen : len > MAX_READ
      · rw [if_pos hlen, answer_now (plan_readLong file off hlen)]
        rfl
      rw [if_neg hlen]
      cases file with
      | none =>
        rw [answer_now (plan_readNone off hlen)]
        rfl
      | some f =>
        rw [answer_ask (plan_read f off hlen)]
        show (ask (Ask.readAt f off len) >>= _) = _
        congr 1
        funext a
        rcases a with e | data
        · rfl
        · exact deliver_data data.1 _
    rw [if_neg hread, if_neg hread]
    by_cases hupdate : op = UPDATE
    · rw [if_pos hupdate, if_pos hupdate]
      show _ = (helper F).answer (.serving file) .update
      rw [answer_ask rfl]
      congr 1
      funext a
      rcases a with e | v | v
      · rfl
      · rfl
      · rfl
    · rw [if_neg hupdate, if_neg hupdate]
      show _ = (helper F).answer (.serving file) (.unknown op)
      rw [answer_now rfl]
      rfl

/-! ## What a session does -/

/-- A call of `open`. -/
def IsOpen (c : Answered (Ask F) Answer) : Prop := ∃ path, c.1 = .open path

/-- A call of `open` that gave the file `f`. -/
def Opens (f : F) (c : Answered (Ask F) Answer) : Prop := ∃ path, c = ⟨.open path, Except.ok f⟩

/-- The calls opened the file `file`, once, and none was made to open another. -/
def OpenedOnce (cs : List (Answered (Ask F) Answer)) : Option F → Prop
  | none => ∀ c ∈ cs, ∀ f, ¬ Opens f c
  | some f => ∃ pre c post, cs = pre ++ c :: post ∧ Opens f c ∧
      (∀ c ∈ pre, ∀ f, ¬ Opens f c) ∧ ∀ c ∈ post, ¬ IsOpen c

namespace OpenedOnce

variable {cs cs' : List (Answered (Ask F) Answer)} {file : Option F} {f : F}

theorem of_opens {c : Answered (Ask F) Answer} (h : OpenedOnce cs none) (hc : Opens f c) :
    OpenedOnce (cs ++ [c]) (some f) :=
  ⟨cs, c, [], rfl, hc, h, by simp⟩

/-- Calls that open nothing may be made, and after a success none of `open`. -/
theorem append (h : OpenedOnce cs file) (hn : ∀ c ∈ cs', ∀ f, ¬ Opens f c)
    (ho : file.isSome = true → ∀ c ∈ cs', ¬ IsOpen c) : OpenedOnce (cs ++ cs') file := by
  cases file with
  | none =>
    intro c hc
    rcases List.mem_append.mp hc with hc | hc
    · exact h c hc
    · exact hn c hc
  | some f =>
    obtain ⟨pre, c, post, rfl, hc, hpre, hpost⟩ := h
    refine ⟨pre, c, post ++ cs', by simp, hc, hpre, fun d hd => ?_⟩
    rcases List.mem_append.mp hd with hd | hd
    · exact hpost d hd
    · exact ho rfl d hd

theorem isOpen_of_opens {c : Answered (Ask F) Answer} (h : Opens f c) : IsOpen c := by
  obtain ⟨path, rfl⟩ := h
  exact ⟨path, rfl⟩

/-- After a call that opened a file none is made to open another. -/
theorem none_after (h : OpenedOnce cs file) {pre post : List (Answered (Ask F) Answer)}
    {c : Answered (Ask F) Answer} (hcs : cs = pre ++ c :: post) (hc : Opens f c) :
    ∀ d ∈ post, ¬ IsOpen d := by
  subst hcs
  cases file with
  | none => exact (h c (by simp) f hc).elim
  | some f' =>
    obtain ⟨pre', c', post', he, -, hpre', hpost'⟩ := h
    rcases List.append_eq_append_iff.mp he with ⟨ds, rfl, hd⟩ | ⟨ds, rfl, hd⟩
    · cases ds with
      | nil =>
        obtain ⟨rfl, rfl⟩ := List.cons.inj hd
        exact hpost'
      | cons d ds =>
        obtain ⟨rfl, rfl⟩ := List.cons.inj hd
        exact (hpre' c (by simp) f hc).elim
    · cases ds with
      | nil =>
        obtain ⟨rfl, rfl⟩ := List.cons.inj hd
        exact hpost'
      | cons d ds =>
        obtain ⟨rfl, rfl⟩ := List.cons.inj hd
        exact (hpost' c (by simp) (isOpen_of_opens hc)).elim

end OpenedOnce

/-- An UPDATE that installed a version. -/
def Installs (x : Exchange (Ask F) Answer Request) : Prop :=
  x.request = .update ∧ ∃ v, x.calls = [⟨.update, Except.ok (.installed v)⟩]

/-- What one exchange does, by its request. -/
structure Does (file : Option F) (x : Exchange (Ask F) Answer Request) (next : Phase F ⊕ Ended) :
    Prop where
  /-- It has one reply. -/
  framed : ∃ status payload, x.reply = message status payload
  /-- It opens a file only if none is open, and that is the file afterwards. -/
  opening : (∃ c f, x.calls = [c] ∧ file = none ∧ Opens f c ∧ next = .inl (.serving (some f))) ∨
    (∀ c ∈ x.calls, ∀ f, ¬ Opens f c) ∧ (file.isSome = true → ∀ c ∈ x.calls, ¬ IsOpen c) ∧
      ∀ s, next = .inl s → s = .serving file
  /-- What it read is from the file that is open. -/
  reading : ∀ off len, x.request = .read off len → x.reply.head? = some OK →
    ∃ f data, file = some f ∧ x.calls = [⟨.readAt f off len, Except.ok data⟩] ∧
      x.reply = message OK data.1 ∧ data.1.length ≤ len ∧ len ≤ MAX_READ
  /-- It ends the session for an update if it installed one. -/
  updating : next = .inr .updated ↔ Installs x

theorem message_error_head (payload : Bytes) : (message ERROR payload).head? ≠ some OK := by
  simp [message, ERROR, OK]

/-- The calls other than `open`. -/
theorem no_open {q : Ask F} (a : Answer q) (h : ∀ path, q ≠ .open path) :
    (∀ c ∈ [(⟨q, a⟩ : Answered (Ask F) Answer)], ∀ f, ¬ Opens f c) ∧
      ∀ c ∈ [(⟨q, a⟩ : Answered (Ask F) Answer)], ¬ IsOpen c := by
  refine ⟨fun c hc f ho => ?_, fun c hc ho => ?_⟩
  · rw [List.mem_singleton] at hc
    subst hc
    obtain ⟨path, hp⟩ := ho
    exact h path (congrArg Sigma.fst hp)
  · rw [List.mem_singleton] at hc
    subst hc
    obtain ⟨path, hp⟩ := ho
    exact h path hp

/-- An exchange without a call does what its request and reply say. -/
theorem Does.of_now {file : Option F} {r : Request} {status : UInt8} {payload : Bytes}
    {next : Phase F ⊕ Ended} (hnext : next = .inl (.serving file) ∨ next = .inr .closed)
    (hs : (∀ off len, r ≠ .read off len) ∨ status = ERROR) :
    Does file ⟨r, [], message status payload⟩ next := by
  refine ⟨⟨status, payload, rfl⟩, .inr ⟨by simp, by simp, fun s h => ?_⟩, fun off len hr ho => ?_, ?_⟩
  · rcases hnext with rfl | rfl
    · cases h; rfl
    · cases h
  · rcases hs with hs | rfl
    · exact (hs off len hr).elim
    · exact (message_error_head payload ho).elim
  · constructor
    · rcases hnext with rfl | rfl <;> simp
    · rintro ⟨-, v, hv⟩
      cases hv

/-- Every exchange of the loop does what its request says. -/
theorem does_of_serving {file : Option F} {r : Request} {cs : List (Answered (Ask F) Answer)}
    {reply : Bytes} {next : Phase F ⊕ Ended} (hv : Valid (.serving file) r)
    (h : (plan (.serving file) r).Gives cs (reply, next)) : Does file ⟨r, cs, reply⟩ next := by
  cases r with
  | hello proto => exact hv.elim
  | openLong len =>
    cases h
    exact .of_now (.inr rfl) (.inr rfl)
  | unknown op =>
    cases h
    exact .of_now (.inr rfl) (.inr rfl)
  | openPath path =>
    by_cases hf : file.isSome = true
    · rw [plan_openTwice path hf] at h
      cases h
      exact .of_now (.inl rfl) (.inr rfl)
    rw [plan_open path hf] at h
    have hnone : file = none := by simpa using hf
    cases hp : fromUtf8 path with
    | none =>
      rw [hp] at h
      cases h
      exact .of_now (.inl rfl) (.inr rfl)
    | some t =>
      rw [hp] at h
      obtain ⟨a, rfl, ha⟩ := h.of_ask
      subst hnone
      rcases a with e | f
      · cases ha
        refine ⟨⟨_, _, rfl⟩, .inr ⟨fun c hc f ho => ?_, fun h => (by cases h), fun s h => ?_⟩,
          fun off len hr => (by cases hr), ?_⟩
        · rw [List.mem_singleton] at hc
          subst hc
          obtain ⟨path, hp⟩ := ho
          cases hp
        · cases h; rfl
        · exact ⟨fun h => (by cases h), fun h => (by cases h.1)⟩
      · cases ha
        exact ⟨⟨_, _, rfl⟩, .inl ⟨_, f, rfl, rfl, ⟨t, rfl⟩, rfl⟩, fun off len hr => (by cases hr),
          fun h => (by cases h), fun h => (by cases h.1)⟩
  | read off len =>
    by_cases hl : len > MAX_READ
    · rw [plan_readLong file off hl] at h
      cases h
      exact .of_now (.inl rfl) (.inr rfl)
    cases file with
    | none =>
      rw [plan_readNone off hl] at h
      cases h
      exact .of_now (.inl rfl) (.inr rfl)
    | some f =>
      rw [plan_read f off hl] at h
      obtain ⟨a, rfl, ha⟩ := h.of_ask
      have hno := no_open (q := Ask.readAt f off len) a (fun path h => (by cases h))
      rcases a with e | data
      · cases ha
        exact ⟨⟨_, _, rfl⟩, .inr ⟨hno.1, fun _ => hno.2, fun s h => (by cases h; rfl)⟩,
          fun off len _ ho => (message_error_head _ ho).elim, fun h => (by cases h),
          fun h => (by cases h.1)⟩
      · cases ha
        refine ⟨⟨_, _, rfl⟩, .inr ⟨hno.1, fun _ => hno.2, fun s h => (by cases h; rfl)⟩,
          fun off' len' hr _ => ?_, fun h => (by cases h), fun h => (by cases h.1)⟩
        cases hr
        exact ⟨f, data, rfl, rfl, rfl, data.2, Nat.le_of_not_gt hl⟩
  | update =>
    obtain ⟨a, rfl, ha⟩ := h.of_ask
    have hno := no_open (q := (Ask.update : Ask F)) a (fun path h => (by cases h))
    rcases a with e | v | v
    · cases ha
      refine ⟨⟨_, _, rfl⟩, .inr ⟨hno.1, fun _ => hno.2, fun s h => (by cases h; rfl)⟩,
        fun off len hr => (by cases hr), fun h => (by cases h), ?_⟩
      rintro ⟨-, w, hw⟩
      cases hw
    · cases ha
      refine ⟨⟨_, _, rfl⟩, .inr ⟨hno.1, fun _ => hno.2, fun s h => (by cases h; rfl)⟩,
        fun off len hr => (by cases hr), fun h => (by cases h), ?_⟩
      rintro ⟨-, w, hw⟩
      cases hw
    · cases ha
      exact ⟨⟨_, _, rfl⟩, .inr ⟨hno.1, fun _ => hno.2, fun s h => (by cases h)⟩,
        fun off len hr => (by cases hr), fun _ => ⟨rfl, v, rfl⟩, fun _ => rfl⟩

/-- The file that is open. -/
def Phase.file : Phase F → Option F
  | greeting => none
  | serving file => file

/-- Every exchange does what its request says. -/
theorem does_of_plan {s : Phase F} {r : Request} {cs : List (Answered (Ask F) Answer)}
    {reply : Bytes} {next : Phase F ⊕ Ended} (hv : Valid s r)
    (h : (plan s r).Gives cs (reply, next)) : Does s.file ⟨r, cs, reply⟩ next := by
  cases s with
  | serving file => exact does_of_serving hv h
  | greeting =>
    cases r with
    | hello proto =>
      have hn : ∀ off len, Request.hello proto ≠ .read off len := fun off len h => (by cases h)
      by_cases hp : proto ≠ PROTOCOL
      · have he : plan (F := F) .greeting (.hello proto) = _ := if_pos hp
        rw [he] at h
        cases h
        exact .of_now (.inr rfl) (.inl hn)
      · have he : plan (F := F) .greeting (.hello proto) = _ := if_neg hp
        rw [he] at h
        cases h
        exact .of_now (.inl rfl) (.inl hn)
    | _ => exact hv.elim

/-- The phase after some exchanges is known from the calls made for them. -/
theorem history_opened {xs : List (Exchange (Ask F) Answer Request)} {next : Phase F ⊕ Ended}
    (h : (helper F).History .greeting xs next) :
    ∃ file, OpenedOnce (Service.made xs) file ∧ ∀ s, next = .inl s → s.file = file := by
  induction h with
  | nil => exact ⟨none, by simp [OpenedOnce, Service.made], fun s h => (by cases h; rfl)⟩
  | @snoc xs s r cs reply next _ hv hg ih =>
    obtain ⟨file, ho, hs⟩ := ih
    obtain rfl := hs s rfl
    have hd := does_of_plan hv hg
    rw [Service.made_snoc]
    rcases hd.opening with ⟨c, f, rfl, hnone, hc, rfl⟩ | ⟨hn, hi, hnext⟩
    · rw [hnone] at ho
      exact ⟨some f, ho.of_opens hc, fun s h => (by cases h; rfl)⟩
    · exact ⟨s.file, ho.append hn hi, fun s' h => (by rw [hnext s' h]; rfl)⟩

/-- The requests there are after some exchanges: the first is a handshake, and
no other is. -/
def InPlace (pre : List (Exchange (Ask F) Answer Request)) (r : Request) : Prop :=
  Valid (if pre = [] then Phase.greeting else .serving (none : Option F)) r

theorem valid_iff_inPlace {pre : List (Exchange (Ask F) Answer Request)} {s : Phase F}
    (h : (helper F).History .greeting pre (.inl s)) (r : Request) : Valid s r ↔ InPlace pre r := by
  unfold InPlace
  generalize hn : (Sum.inl s : Phase F ⊕ Ended) = next at h
  cases h with
  | nil => cases hn; simp
  | @snoc xs s' r' cs reply _ _ hv hg =>
    subst hn
    rw [if_neg (by simp)]
    have : ∃ file, s = .serving file := by
      rcases (does_of_plan hv hg).opening with ⟨c, f, -, -, -, hs⟩ | ⟨-, -, hs⟩
      · cases hs
        exact ⟨_, rfl⟩
      · exact ⟨_, hs s rfl⟩
    obtain ⟨file, rfl⟩ := this
    cases r <;> rfl

/-- What a session amounts to whose events are `tr` and that has come to `p`:
the exchanges `xs`, the bytes `part` of a further request, and all but `unsent`
of the replies. -/
structure Safe (tr : List (Event (Ask F) Answer IoError)) (p : Server F (Phase F ⊕ Ended))
    (xs : List (Exchange (Ask F) Answer Request)) (part unsent : Bytes) : Prop where
  /-- What was received are the requests, one after another. -/
  received : received tr = xs.flatMap (fun x => x.request.bytes) ++ part
  /-- What was sent are their replies, in order. -/
  sent : sent tr ++ unsent = xs.flatMap Exchange.reply
  /-- The calls made are those made for them. -/
  called : Process.calls tr = xs.flatMap Exchange.calls
  inPlace : ∀ pre x post, xs = pre ++ x :: post → InPlace pre x.request
  framed : ∀ x ∈ xs, ∃ status payload, x.reply = message status payload
  /-- A further request that is complete is waiting for its call, and for nothing
  else, unless the session ended before it. -/
  whole : ∀ r, InPlace xs r → r.bytes <+: part → ∃ q k, p = call q k
  /-- Only the last reply may be unfinished, -/
  last : unsent = [] ∨ ∃ ys x, xs = ys ++ [x] ∧ unsent <:+ x.reply
  /-- and it is finished before anything else is done, unless a write failed. -/
  prompt : WritesOk tr → unsent = [] ∨ ∃ b k, p = send b k
  /-- `open` succeeds once at most, and is not called again. -/
  opened : ∀ pre c post f, Process.calls tr = pre ++ c :: post → Opens f c →
    (∀ d ∈ pre, ∀ f, ¬ Opens f d) ∧ ∀ d ∈ post, ¬ IsOpen d
  /-- The payload of a READ's reply is what the file that was opened gave for
  it. -/
  reading : ∀ pre x post off len, xs = pre ++ x :: post → x.request = .read off len →
    x.reply.head? = some OK →
    ∃ f data, (∃ y ∈ pre, ∃ c ∈ y.calls, Opens f c) ∧
      x.calls = [⟨.readAt f off len, Except.ok data⟩] ∧ x.reply = message OK data.1 ∧
      data.1.length ≤ len ∧ data.1.length ≤ MAX_READ
  /-- The session ends as updated when the last reply was sent and is that of an
  UPDATE that installed a version. -/
  updated : p = ret (.inr .updated) ↔ unsent = [] ∧ ∃ ys x, xs = ys ++ [x] ∧ Installs x
  /-- Nothing is received after the session has ended. -/
  closed : ∀ e, p = ret (.inr e) → part = [] ∧ unsent = []

/-- Whatever a client sends and however the calls are answered, the server is
safe. -/
theorem serve_safe {tr : List (Event (Ask F) Answer IoError)} {p : Server F (Phase F ⊕ Ended)}
    (h : Run (fun e => e.kind = .interrupted) serve (serve .greeting) tr p) :
    ∃ xs part unsent, Safe tr p xs part unsent := by
  rw [serve_eq] at h
  obtain ⟨xs, part, unsent, next, hx⟩ := (Service.run_stage h).explained
  obtain ⟨file, hfile, hnext⟩ := history_opened hx.history
  have hcalls : calls tr = Service.made xs := hx.books.calls
  refine ⟨xs, part, unsent, hx.books.received, hx.books.sent, hcalls, ?_, ?_, ?_, hx.last, hx.prompt,
    ?_, ?_, ?_, ?_⟩
  · intro pre x post hxs
    obtain ⟨s, next', hpre, hv, -, -⟩ := hx.history.split hxs
    exact (valid_iff_inPlace hpre x.request).mp hv
  · intro x hmem
    obtain ⟨pre, post, hxs⟩ := List.append_of_mem hmem
    obtain ⟨s, next', -, hv, hg, -⟩ := hx.history.split hxs
    exact (does_of_plan hv hg).framed
  · intro r hr hp
    cases next with
    | inl s => exact hx.whole s r rfl ((valid_iff_inPlace hx.history r).mpr hr) hp
    | inr e =>
      rw [(hx.closed e rfl).1] at hp
      exact (r.bytes_ne_nil (List.prefix_nil.mp hp)).elim
  · intro pre c post f hcs hc
    rw [← hcalls] at hfile
    refine ⟨fun d hd f' ho => ?_, hfile.none_after hcs hc⟩
    obtain ⟨pre', post', rfl⟩ := List.append_of_mem hd
    have hcs' : calls tr = pre' ++ d :: (post' ++ c :: post) := by simpa using hcs
    exact hfile.none_after hcs' ho c (by simp) (OpenedOnce.isOpen_of_opens hc)
  · intro pre x post off len hxs hr ho
    obtain ⟨s, next', hpre, hv, hg, -⟩ := hx.history.split hxs
    obtain ⟨file', hfile', hs⟩ := history_opened hpre
    obtain ⟨f, data, hf, hcs, hreply, hlen, hmax⟩ := (does_of_plan hv hg).reading off len hr ho
    rw [hs s rfl] at hf
    subst hf
    obtain ⟨cs, c, cs', hmade, hc, -, -⟩ := hfile'
    have hmem : c ∈ Service.made pre := by rw [hmade]; simp
    obtain ⟨y, hy, hcy⟩ := List.mem_flatMap.mp hmem
    exact ⟨f, data, ⟨y, hy, c, hcy, hc⟩, hcs, hreply, hlen, hlen.trans hmax⟩
  · constructor
    · rintro rfl
      obtain ⟨-, hu, hn⟩ := hx.ended _ rfl
      rcases hn with rfl | ⟨hn, -⟩
      · rcases List.eq_nil_or_concat xs with rfl | ⟨ys, x, rfl⟩
        · cases hx.history.of_nil
        · rw [List.concat_eq_append] at hx
          obtain ⟨s, next', -, hv, hg, hn⟩ := hx.history.split (show ys ++ [x] = ys ++ x :: [] from rfl)
          rw [hn rfl] at hg
          exact ⟨hu, ys, x, by simp, (does_of_plan hv hg).updating.mp rfl⟩
      · cases hn
    · rintro ⟨hu, ys, x, rfl, hi⟩
      obtain ⟨s, next', -, hv, hg, hn⟩ := hx.history.split (show ys ++ [x] = ys ++ x :: [] from rfl)
      rw [hn rfl] at hg
      have := (does_of_plan hv hg).updating.mpr hi
      exact (hx.closed _ this).2 hu
  · intro e he
    obtain ⟨h1, h2, -⟩ := hx.ended e he
    exact ⟨h1, h2⟩

/-- 0.3.3. -/
def newer : Version := ⟨⟨0, by decide⟩, ⟨3, by decide⟩, ⟨3, by decide⟩⟩

/-- A session that opens a device, reads two bytes of it, and has a version
installed. -/
def visit : List (Exchange (Ask Unit) Answer Request) := [
  ⟨.hello PROTOCOL, [], message OK (utf8 VERSION)⟩,
  ⟨.openPath (utf8 "disk"), [⟨.open "disk", Except.ok ()⟩], message OK []⟩,
  ⟨.read 1 3, [⟨.readAt () 1 3, Except.ok ⟨[7, 8], by decide⟩⟩], message OK [7, 8]⟩,
  ⟨.update, [⟨.update, Except.ok (.installed newer)⟩],
    message OK (utf8 (Update.installed newer).text)⟩]

theorem history_visit : (helper Unit).History .greeting visit (.inr .updated) := by
  have h : (helper Unit).History .greeting [] _ := .nil
  have h := h.snoc (r := Request.hello PROTOCOL) trivial gives_hello
  have h := h.snoc (r := Request.openPath (utf8 "disk"))
    (by decide : (utf8 "disk").length ≤ MAX_PATH) (gives_open "disk" (.ok ()))
  have h := h.snoc (r := Request.read 1 3) ⟨by decide, by decide⟩
    (gives_read () 1 3 (by decide) (.ok ⟨[7, 8], by decide⟩))
  exact h.snoc (r := Request.update) trivial (gives_update _ (.ok (.installed newer)))

/-- The run of that session. -/
theorem serve_safe_visit : ∃ tr xs part unsent,
    Safe tr (ret (.inr .updated)) xs part unsent ∧
      Process.received tr = visit.flatMap (fun x => x.request.bytes) ∧
      Process.sent tr = visit.flatMap Exchange.reply ∧
      Process.calls tr = visit.flatMap Exchange.calls := by
  obtain ⟨tr, hrun, hbooks⟩ := history_visit.run fun e : IoError => e.kind = .interrupted
  have hreceived := hbooks.received
  have hsent := hbooks.sent
  rw [List.append_nil] at hreceived hsent
  rw [← serve_eq] at hrun
  obtain ⟨xs, part, unsent, hsafe⟩ := serve_safe hrun
  exact ⟨tr, xs, part, unsent, hsafe, hreceived, hsent, hbooks.calls⟩

end BtrfsPeek.Helper

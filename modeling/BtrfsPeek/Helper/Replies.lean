import BtrfsPeek.Fs.Image
import BtrfsPeek.Helper.Callbacks
import BtrfsPeek.Helper.Client

/-!
# Whether a client takes the replies

A client takes a text of at most `MAX_MESSAGE` bytes, and for a READ at most what it asked
for; the server bounds neither. `accepted_iff` says of one exchange, and
`replies_accepted_iff` of every run of the server with its deployed calls, that this goes
well as long as the texts are short that its errors repeat from outside.
-/

namespace BtrfsPeek.Helper

open Process

variable (X : Crates) (M : Minisign) {F : Type}

/-- What is outside the program and answers a call. -/
def Outside (F : Type) : Ask F → Type
  | .open _ => Opening F
  | .readAt _ _ len => Except OsError { b : Bytes // b.length ≤ len }
  | .update => Checking

/-- What the deployed server's calls come to. -/
def deployed : (q : Ask F) → Outside F q → Answer q
  | .open path, o => openPartition X path o
  | .readAt _ _ _, o => Except.mapError (OsError.at · .device) o
  | .update, o => checkForUpdate X M o

/-- A call, with what answered it. -/
abbrev Called (F : Type) := (q : Ask F) × Outside F q

def Called.answered (c : Called F) : Answered (Ask F) Answer := ⟨c.1, deployed X M c.1 c.2⟩

/-- The texts from outside are short that the call's error repeats. -/
def Called.Short : Called F → Prop
  | ⟨.open path, o⟩ => Opening.Short path o
  | ⟨.readAt _ _ _, o⟩ => ∀ e, o = .error e → size e.text ≤ MAX_MESSAGE
  | ⟨.update, o⟩ => Checking.Short X M o

/-- The most bytes that a client takes as the payload of a reply. -/
def Request.limit : Request → UInt8 → Nat
  | .read _ len, status => if status = OK then len else MAX_MESSAGE
  | _, _ => MAX_MESSAGE

/-- How a client reads the reply. -/
def reader : Request → Client Bytes
  | .read _ len => readReply len
  | _ => Session.reply

/-- The reply is within the client's limit, and the client reads all of it. -/
structure Accepted (x : Exchange (Ask F) Answer Request) : Prop where
  sized : ∃ status payload, x.reply = message status payload ∧ payload.length ≤ x.request.limit status
  taken : ∃ fin, Takes (reader x.request) x.reply fin ∧ Over fin

theorem message_inj {status status' : UInt8} {payload payload' : Bytes}
    (h : message status payload = message status' payload') : status = status' ∧ payload = payload' := by
  obtain ⟨hs, h⟩ := List.cons.inj h
  have hlen : (Bytes.toLE 4 payload.length).length = (Bytes.toLE 4 payload'.length).length := by
    simp [Bytes.length_toLE]
  exact ⟨hs, (List.append_inj h hlen).2⟩

/-- A text is taken if it is not too long. -/
theorem accepted_text_iff {r : Request} {status : UInt8} {t : String}
    {cs : List (Answered (Ask F) Answer)} (h : (∀ off len, r ≠ .read off len) ∨ status = ERROR) :
    Accepted ⟨r, cs, message status (utf8 t)⟩ ↔ size t ≤ MAX_MESSAGE := by
  have hlimit : r.limit status = MAX_MESSAGE := by
    rcases h with h | rfl
    · cases r with
      | read off len => exact absurd rfl (h off len)
      | _ => rfl
    · cases r <;> rfl
  constructor
  · rintro ⟨⟨status', payload, hm, hle⟩, -⟩
    obtain ⟨rfl, rfl⟩ := message_inj hm
    rw [← hlimit]
    exact hle
  · intro hle
    refine ⟨⟨status, utf8 t, rfl, by rw [hlimit]; exact hle⟩, ?_⟩
    have hreply : ∃ fin, Takes Session.reply (message status (utf8 t)) fin ∧ Over fin := by
      refine ⟨_, takes_reply status hle, ?_⟩
      split_ifs
      · exact .inr ⟨_, rfl⟩
      · exact .inl ⟨_, rfl⟩
    cases r with
    | read off len =>
      rcases h with h | rfl
      · exact absurd rfl (h off len)
      · exact ⟨_, takes_readReply_error len hle, .inr ⟨_, rfl⟩⟩
    | _ => exact hreply

/-- What was read is taken. -/
theorem accepted_data {off len : Nat} {b : Bytes} {cs : List (Answered (Ask F) Answer)}
    (h : b.length ≤ len) (hl : len ≤ MAX_READ) :
    Accepted ⟨.read off len, cs, message OK b⟩ :=
  ⟨⟨OK, b, rfl, h⟩, _, takes_readReply_ok h hl, .inl ⟨_, rfl⟩⟩

/-- A call's reply is the only one of its exchange. -/
theorem called_of_ask {cs : List (Called F)} {q : Ask F} {a : Answer q}
    (h : [(⟨q, a⟩ : Answered (Ask F) Answer)] = cs.map (Called.answered X M)) :
    ∃ o, cs = [⟨q, o⟩] ∧ a = deployed X M q o := by
  obtain ⟨c, rfl, hc⟩ := List.map_eq_singleton_iff.mp h.symm
  obtain ⟨q', o⟩ := c
  cases hc
  exact ⟨o, rfl, rfl⟩

variable {X M}

/-- A reply that is made without a call is short. -/
theorem accepted_now {r : Request} {status : UInt8} {t : String} {cs : List (Called F)}
    (hs : (∀ off len, r ≠ .read off len) ∨ status = ERROR) (ht : size t ≤ MAX_MESSAGE)
    (hcs : [] = cs.map (Called.answered X M)) :
    Accepted (F := F) ⟨r, [], message status (utf8 t)⟩ ↔ ∀ c ∈ cs, c.Short X M := by
  obtain rfl := List.map_eq_nil_iff.mp hcs.symm
  exact iff_of_true ((accepted_text_iff hs).mpr ht) (by simp)

theorem accepted_empty {r : Request} {status : UInt8} {cs : List (Answered (Ask F) Answer)}
    (h : (∀ off len, r ≠ .read off len) ∨ status = ERROR) : Accepted ⟨r, cs, message status []⟩ :=
  (accepted_text_iff (t := "") h).mpr (by decide)

theorem utf8_of_fromUtf8 {b : Bytes} {t : String} (h : fromUtf8 b = some t) : utf8 t = b := by
  unfold fromUtf8 Utf8.fromUtf8 at h
  split_ifs at h with hb
  · obtain rfl : String.ofList _ = t := by simpa using h
    rw [utf8, String.toList_ofList]
    exact hb
  · simp at h

theorem size_number_le {n : Nat} (h : n < 10 ^ 3) : size (toString n) ≤ 12 :=
  size_toString_nat (by decide) h

theorem size_toString_byte (b : UInt8) : size (toString b) ≤ 12 := by
  have hb := b.toNat_lt
  exact size_number_le (by omega)

theorem size_hello_le (proto : UInt8) : size s!"this helper speaks protocol {PROTOCOL}, the client {proto}: install the helper again with the same btrfs-peek" ≤
    MAX_MESSAGE := by
  have hproto := size_toString_byte proto
  have h1 : size "this helper speaks protocol " = 28 := by decide
  have h2 : size (toString PROTOCOL) = 1 := by decide
  have h3 : size ", the client " = 13 := by decide
  have h4 : size ": install the helper again with the same btrfs-peek" = 51 := by decide
  have hmax : MAX_MESSAGE = 65536 := by decide
  show size ("this helper speaks protocol " ++ toString PROTOCOL ++ ", the client " ++ toString proto ++
    ": install the helper again with the same btrfs-peek") ≤ _
  simp only [size_append, h1, h2, h3, h4]
  omega

theorem size_unknown_le (op : UInt8) : size s!"unknown operation {op}" ≤ MAX_MESSAGE := by
  have hop := size_toString_byte op
  have h1 : size "unknown operation " = 18 := by decide
  have hmax : MAX_MESSAGE = 65536 := by decide
  show size ("unknown operation " ++ toString op) ≤ _
  rw [size_append, h1]
  omega

section asked

variable {cs : List (Answered (Ask F) Answer)} {reply : Bytes} {next : Phase F ⊕ Ended}
  {file : Option F}

theorem accepted_open {path : Bytes} {t : String} {o : Opening F} (hsize : size t ≤ MAX_PATH)
    (ha : afterOpen file (openPartition X t o) = (reply, next)) :
    Accepted ⟨.openPath path, cs, reply⟩ ↔ o.Short t := by
  have hne : ∀ off len, Request.openPath path ≠ .read off len := fun _ _ => nofun
  rw [← openPartition_short_iff X hsize]
  cases hres : openPartition X t o with
  | error r =>
    rw [hres] at ha
    cases ha
    rw [accepted_text_iff (.inl hne)]
    simp
  | ok f =>
    rw [hres] at ha
    cases ha
    exact iff_of_true (accepted_empty (.inl hne)) (by simp)

theorem accepted_read {f : F} {off len : Nat} {o : Except OsError { b : Bytes // b.length ≤ len }}
    (hl : len ≤ MAX_READ) (ha : afterRead (some f) (o.mapError (OsError.at · .device)) = (reply, next)) :
    Accepted ⟨.read off len, cs, reply⟩ ↔ ∀ e, o = .error e → size e.text ≤ MAX_MESSAGE := by
  cases o with
  | error e =>
    cases ha
    rw [accepted_text_iff (.inr rfl)]
    simp [OsError.at]
  | ok data =>
    cases ha
    exact iff_of_true (accepted_data data.2 hl) (by simp)

theorem accepted_update {o : Checking} (ha : afterUpdate file (checkForUpdate X M o) = (reply, next)) :
    Accepted ⟨.update, cs, reply⟩ ↔ o.Short X M := by
  have hne : ∀ off len, Request.update ≠ .read off len := fun _ _ => nofun
  rw [← carried_checkForUpdate_iff]
  cases hres : checkForUpdate X M o with
  | error e =>
    rw [hres] at ha
    cases ha
    rw [accepted_text_iff (.inl hne), carried_error]
  | ok u =>
    rw [hres] at ha
    have hu : Accepted ⟨.update, cs, message OK (utf8 u.text)⟩ :=
      (accepted_text_iff (.inl hne)).mpr (size_update_le u)
    cases u with
    | upToDate v =>
      cases ha
      exact iff_of_true hu (carried_ok _)
    | installed v =>
      cases ha
      exact iff_of_true hu (carried_ok _)

end asked

/-- The reply of an exchange is accepted as long as what answered its call is short. -/
theorem accepted_iff {s : Phase F} {r : Request} {cs : List (Called F)} {reply : Bytes}
    {next : Phase F ⊕ Ended} (hv : Valid s r)
    (h : (plan s r).Gives (cs.map (Called.answered X M)) (reply, next)) :
    Accepted ⟨r, cs.map (Called.answered X M), reply⟩ ↔ ∀ c ∈ cs, c.Short X M := by
  generalize hcs : cs.map (Called.answered X M) = as at h
  cases s with
  | greeting =>
    cases r with
    | hello proto =>
      have hne : ∀ off len, Request.hello proto ≠ .read off len := fun _ _ => nofun
      by_cases hp : proto ≠ PROTOCOL
      · have he : plan (F := F) .greeting (.hello proto) = _ := if_pos hp
        rw [he] at h
        cases h
        refine accepted_now (.inl hne) ?_ hcs.symm
        exact size_hello_le proto
      · have he : plan (F := F) .greeting (.hello proto) = _ := if_neg hp
        rw [he] at h
        cases h
        exact accepted_now (.inl hne) (by decide +kernel) hcs.symm
    | _ => exact hv.elim
  | serving file =>
    cases r with
    | hello proto => exact hv.elim
    | openLong len =>
      cases h
      exact accepted_now (.inr rfl) (by decide +kernel) hcs.symm
    | unknown op =>
      cases h
      refine accepted_now (.inr rfl) ?_ hcs.symm
      exact size_unknown_le op
    | openPath path =>
      have hne : ∀ off len, Request.openPath path ≠ .read off len := fun _ _ => nofun
      by_cases hf : file.isSome = true
      · rw [plan_openTwice path hf] at h
        cases h
        exact accepted_now (.inr rfl) (by decide +kernel) hcs.symm
      rw [plan_open path hf] at h
      cases hp : fromUtf8 path with
      | none =>
        rw [hp] at h
        cases h
        exact accepted_now (.inr rfl) (by decide +kernel) hcs.symm
      | some t =>
        rw [hp] at h
        obtain ⟨a, rfl, ha⟩ := h.of_ask
        obtain ⟨o, rfl, rfl⟩ := called_of_ask X M hcs.symm
        have hsize : size t ≤ MAX_PATH := by
          rw [size, utf8_of_fromUtf8 hp]
          exact hv
        rw [List.forall_mem_singleton]
        exact accepted_open hsize ha
    | read off len =>
      by_cases hl : len > MAX_READ
      · rw [plan_readLong file off hl] at h
        cases h
        exact accepted_now (.inr rfl) (by decide +kernel) hcs.symm
      cases file with
      | none =>
        rw [plan_readNone off hl] at h
        cases h
        exact accepted_now (.inr rfl) (by decide +kernel) hcs.symm
      | some f =>
        rw [plan_read f off hl] at h
        obtain ⟨a, rfl, ha⟩ := h.of_ask
        obtain ⟨o, rfl, rfl⟩ := called_of_ask X M hcs.symm
        rw [List.forall_mem_singleton]
        exact accepted_read (Nat.le_of_not_gt hl) ha
    | update =>
      obtain ⟨a, rfl, ha⟩ := h.of_ask
      obtain ⟨o, rfl, rfl⟩ := called_of_ask X M hcs.symm
      rw [List.forall_mem_singleton]
      exact accepted_update ha

/-- The replies of some exchanges are accepted as long as what answered their calls is
short. -/
theorem history_accepted_iff {s₀ : Phase F} {xs : List (Exchange (Ask F) Answer Request)}
    {next : Phase F ⊕ Ended} (h : (helper F).History s₀ xs next) {cs : List (Called F)}
    (hcs : Service.made xs = cs.map (Called.answered X M)) :
    (∀ x ∈ xs, Accepted x) ↔ ∀ c ∈ cs, c.Short X M := by
  induction h generalizing cs with
  | nil =>
    obtain rfl := List.map_eq_nil_iff.mp hcs.symm
    simp
  | @snoc xs s r as reply next _ hv hg ih =>
    rw [Service.made_snoc] at hcs
    obtain ⟨cs₁, cs₂, rfl, h₁, h₂⟩ := List.map_eq_append_iff.mp hcs.symm
    subst h₂
    have hx := accepted_iff hv hg
    simp only [List.mem_append, List.mem_singleton, or_imp, forall_and, forall_eq, ih h₁.symm, hx]

/-- In every run of the server whose calls are the deployed ones, the replies are accepted
if, and only if, what is outside answers each call with short texts. -/
theorem replies_accepted_iff {tr : List (Event (Ask F) Answer IoError)}
    {p : Server F (Phase F ⊕ Ended)} {cs : List (Called F)}
    (h : Run (fun e => e.kind = .interrupted) serve (serve .greeting) tr p)
    (hcs : calls tr = cs.map (Called.answered X M)) :
    ∃ xs part unsent next, (helper F).Explained .greeting tr p xs part unsent next ∧
      ((∀ x ∈ xs, Accepted x) ↔ ∀ c ∈ cs, c.Short X M) := by
  rw [serve_eq] at h
  obtain ⟨xs, part, unsent, next, hx⟩ := (Service.run_stage h).explained
  refine ⟨xs, part, unsent, next, hx, history_accepted_iff hx.history ?_⟩
  rw [← hx.books.calls]
  exact hcs

/-! ## A reply that is too long -/

/-- A client that is told of a text that is too long reads none of it. -/
theorem takes_tooLong {status : UInt8} {n : Nat} (h : MAX_MESSAGE < n) (hn : n < 2 ^ 32) :
    Takes Session.reply (status :: Bytes.toLE 4 n)
      (fail ⟨.invalidData, s!"the helper sent a {n}-byte message", .device⟩) := by
  have h1 := (takes_header hn : Takes _ (status :: _) _).bind fun x =>
    Session.message x.2 >>= fun msg =>
      if x.1 ≠ OK then fail (statusError x.1 msg) else pure (utf8 msg)
  rw [ret_bind, Session.message, if_pos h, fail_bind] at h1
  exact h1

/-- What curl writes on its error output, of this many letters. -/
def grumble (n : Nat) : String := String.ofList (List.replicate n 'x')

theorem size_grumble (n : Nat) : size (grumble n) = n := by
  have hx : (Utf8.encode 120).length = 1 := by decide
  show ((grumble n).toList.flatMap fun c => Utf8.encode c.toNat).length = n
  simp [grumble, hx]

theorem trim_replicate (n : Nat) :
    Words.trim isWhitespace (List.replicate n 'x') = List.replicate n 'x' := by
  have hx : isWhitespace 'x' = false := by decide
  unfold Words.trim
  rw [List.dropWhile_replicate]
  simp only [hx, Bool.false_eq_true, if_false]
  rw [List.rdropWhile_eq_self_iff]
  intro hne
  simp [hx]

/-- curl was run, failed, and wrote that on its error output. -/
def failing (n : Nat) : Fetching := ⟨.ok "C:\\Windows\\system32", fun _ => .ok ⟨22, [], utf8 (grumble n)⟩⟩

theorem complaint_grumble (n : Nat) (code : UInt32) (stdout : Bytes) :
    complaint ⟨code, stdout, utf8 (grumble n)⟩ = grumble n := by
  show String.ofList (Words.trim isWhitespace (lossy (utf8 (grumble n))).toList) = grumble n
  rw [lossy_utf8, grumble, String.toList_ofList, trim_replicate]

/-- A check whose fetches fail so. -/
def failingCheck (n : Nat) : Checking := ⟨none, failing n, failing n, .ok ()⟩

/-- The text of the error that is. -/
def fetchFailed (n : Nat) : String :=
  let url := RELEASES ++ ASSET ++ ".minisig"
  s!"fetching {url} failed ({exitStatus 22}): {grumble n}"

theorem size_fetchFailed (n : Nat) : size (fetchFailed n) = n + 136 := by
  have h1 : size "fetching " = 9 := by decide
  have h2 : size (RELEASES ++ ASSET ++ ".minisig") = 102 := by decide
  have h3 : size " failed (" = 9 := by decide
  have h4 : size (exitStatus 22) = 13 := by decide
  have h5 : size "): " = 3 := by decide
  show size ("fetching " ++ (RELEASES ++ ASSET ++ ".minisig") ++ " failed (" ++ exitStatus 22 ++ "): " ++
    grumble n) = _
  rw [size_append, size_append, size_append, size_append, size_append, h1, h2, h3, h4, h5, size_grumble]
  omega

theorem check_failing (X : Crates) (M : Minisign) (n : Nat) :
   checkForUpdate X M (failingCheck n) = .error ⟨.other, fetchFailed n, .device⟩ := by
  have hfetch : fetch (RELEASES ++ ASSET ++ ".minisig") 120 MAX_SIG (failing n) =
      .error ⟨.other, fetchFailed n, .device⟩ := by
    rw [fetchFailed, ← complaint_grumble n 22 []]
    rfl
  unfold checkForUpdate failingCheck
  dsimp only
  rw [hfetch]
  rfl

/-- The update of a service whose curl fails with that. -/
theorem gives_failing (X : Crates) (M : Minisign) (file : Option Unit) (n : Nat) :
    (plan (.serving file) .update).Gives [Called.answered X M ⟨.update, failingCheck n⟩]
      (message ERROR (utf8 (fetchFailed n)), .inl (.serving file)) := by
  have h := gives_update file (checkForUpdate X M (failingCheck n))
  have hnext : afterUpdate file (checkForUpdate X M (failingCheck n)) =
      (message ERROR (utf8 (fetchFailed n)), .inl (.serving file)) := by
    rw [check_failing]
    rfl
  rw [hnext] at h
  exact h

/-- The service sends the whole text. -/
theorem run_failing (X : Crates) (M : Minisign) (n : Nat) :
    ∃ tr p, Run (fun e => e.kind = .interrupted) serve (serve (.greeting : Phase Unit)) tr p ∧
      calls tr = [Called.answered X M ⟨.update, failingCheck n⟩] ∧
      sent tr = message OK (utf8 VERSION) ++ message ERROR (utf8 (fetchFailed n)) := by
  have h : (helper Unit).History .greeting [] _ := .nil
  have h := h.snoc (r := Request.hello PROTOCOL) trivial gives_hello
  have h := h.snoc (r := Request.update) trivial (gives_failing X M none n)
  obtain ⟨tr, hrun, hbooks⟩ := h.run fun e : IoError => e.kind = .interrupted
  rw [← serve_eq] at hrun
  have hsent := hbooks.sent
  rw [List.append_nil] at hsent
  exact ⟨tr, _, hrun, hbooks.calls, by simp [hsent, Service.replies]⟩

/-- Crates that do nothing of what they are for. -/
def idle : Crates :=
  ⟨fun _ _ => 0, fun b => ⟨b, none⟩, fun b => .ok ⟨b, none⟩, fun b _ => .plain b,
    fun _ => .error "invalid glob", fun t => "\"" ++ String.ofList t ++ "\""⟩

def noKey : Minisign :=
  ⟨Unit, Unit, fun _ => .error "Invalid encoding", fun _ => "", fun _ => .error "Invalid encoding",
    fun _ _ _ => .error "Invalid signature"⟩

/-- curl writes 64 KiB: the client gives up after the reply's header, and leaves the rest. -/
theorem reply_half_read :
    ∃ tr p text, Run (fun e => e.kind = .interrupted) serve (serve (.greeting : Phase Unit)) tr p ∧
      calls tr = [Called.answered idle noKey ⟨.update, failingCheck MAX_MESSAGE⟩] ∧
      sent tr = message OK (utf8 VERSION) ++ message ERROR (utf8 text) ∧ MAX_MESSAGE < size text ∧
      ∃ head rest, message ERROR (utf8 text) = head ++ rest ∧ rest ≠ [] ∧
        Takes Session.reply head
          (fail ⟨.invalidData, s!"the helper sent a {size text}-byte message", .device⟩) := by
  obtain ⟨tr, p, hrun, hcalls, hsent⟩ := run_failing idle noKey MAX_MESSAGE
  have hsize := size_fetchFailed MAX_MESSAGE
  have hlong : MAX_MESSAGE < size (fetchFailed MAX_MESSAGE) := by omega
  have hword : size (fetchFailed MAX_MESSAGE) < 2 ^ 32 := by
    rw [hsize]
    decide
  refine ⟨tr, p, _, hrun, hcalls, hsent, hlong, ERROR :: Bytes.toLE 4 (size (fetchFailed MAX_MESSAGE)),
    utf8 (fetchFailed MAX_MESSAGE), rfl, ?_, takes_tooLong hlong hword⟩
  intro hnil
  rw [size, hnil] at hlong
  exact absurd hlong (by decide)

def firstPartition : String := "\\\\.\\Harddisk0Partition1"

/-- What opens there: a partition with a superblock. -/
def formatted : Opening Unit :=
  ⟨.ok (), [.ok (Image.superblock ++ Image.zeros (SUPER_SIZE - Image.superblock.length))]⟩

theorem openPartition_formatted :
    openPartition idle firstPartition formatted = .ok () := by
  decide +kernel

/-- What is outside a session that opens that partition, reads two bytes of it, cannot
read the next, and asks for an update, for which curl writes nine letters. -/
def outside : List (Called Unit) := [
  ⟨.open firstPartition, formatted⟩,
  ⟨.readAt () 0 2, Except.ok ⟨[7, 8], by decide⟩⟩,
  ⟨.readAt () 2 2, Except.error ⟨.other, "The device is not ready. (os error 21)"⟩⟩,
  ⟨.update, failingCheck 9⟩]

theorem short_outside : ∀ c ∈ outside, c.Short idle noKey := by
  have hopen : formatted.Short firstPartition := by
    rw [← openPartition_short_iff idle (by decide +kernel), openPartition_formatted]
    simp
  have hupdate : (failingCheck 9).Short idle noKey := by
    rw [← carried_checkForUpdate_iff, check_failing, carried_error]
    show size (fetchFailed 9) ≤ MAX_MESSAGE
    rw [size_fetchFailed]
    decide
  simp only [outside, List.forall_mem_cons]
  refine ⟨hopen, fun e h => (by cases h), fun e h => ?_, hupdate, by simp⟩
  cases h
  decide +kernel

/-- The run of that session. -/
theorem run_outside :
    ∃ tr p, Run (fun e => e.kind = .interrupted) serve (serve (.greeting : Phase Unit)) tr p ∧
      calls tr = outside.map (Called.answered idle noKey) := by
  have h : (helper Unit).History .greeting [] _ := .nil
  have h := h.snoc (r := Request.hello PROTOCOL) trivial gives_hello
  have h := h.snoc (r := Request.openPath (utf8 firstPartition))
    (by decide +kernel : (utf8 firstPartition).length ≤ MAX_PATH)
    (gives_open firstPartition (.ok ()))
  have h := h.snoc (r := Request.read 0 2) ⟨by decide, by decide⟩
    (gives_read () 0 2 (by decide) (.ok ⟨[7, 8], by decide⟩))
  have h := h.snoc (r := Request.read 2 2) ⟨by decide, by decide⟩
    (gives_read () 2 2 (by decide)
      (.error ⟨.other, "The device is not ready. (os error 21)", .device⟩))
  have h := h.snoc (r := Request.update) trivial (gives_failing idle noKey _ 9)
  obtain ⟨tr, hrun, hbooks⟩ := h.run fun e : IoError => e.kind = .interrupted
  rw [← serve_eq] at hrun
  refine ⟨tr, _, hrun, hbooks.calls.trans ?_⟩
  simp only [outside, List.map_cons, Called.answered, deployed, openPartition_formatted]
  rfl

/-- Everything in that session is short, so the client takes all of its replies. -/
theorem replies_accepted_outside :
    ∃ tr p xs part unsent next, (helper Unit).Explained .greeting tr p xs part unsent next ∧
      Process.calls tr = outside.map (Called.answered idle noKey) ∧ ∀ x ∈ xs, Accepted x := by
  obtain ⟨tr, p, hrun, hcalls⟩ := run_outside
  obtain ⟨xs, part, unsent, next, hx, hiff⟩ := replies_accepted_iff hrun hcalls
  exact ⟨tr, p, xs, part, unsent, next, hx, hcalls, hiff.mpr short_outside⟩

end BtrfsPeek.Helper

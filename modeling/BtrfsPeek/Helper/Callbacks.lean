import BtrfsPeek.Disk
import BtrfsPeek.Helper.Partition
import BtrfsPeek.Helper.Protocol
import BtrfsPeek.Lib.Words

/-!
# What the service calls

The calls of the deployed server: `open_partition`, from `helper.rs`, and
`check_for_update`, from `helper/windows/updater.rs` and `helper/update.rs`. Each is a
function of what is outside the program and answers it: the operating system, curl and
the signature library. `check_and_record` returns what `check_for_update` does; what it
writes down is in `Helper.Status`.

Their errors repeat texts from outside. `openPartition_short_iff` and
`carried_checkForUpdate_iff` say how long these may be for a reply to carry the error.
-/

namespace BtrfsPeek.Helper

/-- The bytes of a text. -/
def size (t : String) : Nat := (utf8 t).length

@[simp] theorem size_append (s t : String) : size (s ++ t) = size s + size t := by
  simp [size, utf8, Utf8.toUtf8]

theorem size_le (t : String) : size t ≤ 4 * t.toList.length := by
  have hc : ∀ c : Char, (Utf8.encode c.toNat).length ≤ 4 := by
    intro c
    unfold Utf8.encode
    split_ifs <;> simp
  show (t.toList.flatMap fun c => Utf8.encode c.toNat).length ≤ _
  induction t.toList with
  | nil => simp
  | cons c l ih =>
    have := hc c
    simp only [List.flatMap_cons, List.length_append, List.length_cons]
    omega

theorem size_toString_nat {n k : Nat} (hk : 0 < k) (h : n < 10 ^ k) : size (toString n) ≤ 4 * k := by
  have hl : (Nat.toDigits 10 n).length ≤ k :=
    (Nat.length_toDigits_le_iff (by decide) hk).mpr h
  have hs : (toString n).toList = Nat.toDigits 10 n := by simp
  have := size_le (toString n)
  rw [hs] at this
  omega

/-! ## Opening a partition -/

/-- What the system answers a call of `open_partition`: the opening of the file, and the
reads of its superblock, one after another. After them the file is at its end. -/
structure Opening (F : Type) where
  file : Except OsError F
  reads : List (Except OsError Bytes)

/-- The superblock, or what there is of it. -/
def readSuper : List (Except OsError Bytes) → Bytes → Except OsError Bytes
  | [], done => .ok done
  | r :: rs, done =>
    if done.length < SUPER_SIZE then
      match r with
      | .ok [] => .ok done
      | .ok b => readSuper rs (done ++ b.take (SUPER_SIZE - done.length))
      | .error e => if e.kind = .interrupted then readSuper rs done else .error e
    else .ok done

variable (X : Crates) {F : Type}

/-- What the service opens: a btrfs partition, for reading, and nothing else. -/
def openPartition (path : String) (o : Opening F) : Except Refusal F :=
  if ¬ partitionPathOk path then
    .error (.refused s!"{path}: the helper opens only partitions named \\\\.\\HarddiskNPartitionM (M >= 1)")
  else
    match o.file with
    | .error e =>
      if e.kind = .notFound then .error (.notFound s!"{path}: no such partition")
      else .error (.failed s!"{path}: {e.text}")
    | .ok file =>
      match readSuper o.reads [] with
      | .error e => .error (.failed s!"{path}: {e.text}")
      | .ok sb =>
        if sb.length < SUPER_SIZE || !(Superblock.parse X sb).isOk then
          .error (.refused s!"{path}: not a btrfs partition")
        else .ok file

/-! ## Checking for an update -/

def RELEASES : String := "https://github.com/noahsabaj/btrfs-peek/releases/latest/download/"
def ASSET : String := "btrfs-peek-windows-x86_64.exe"
def MAX_SIG : Nat := 16 * 2 ^ 10
def MAX_EXE : Nat := 64 * 2 ^ 20

/-- The release key: the last line of the key file that is not empty. -/
def releaseKey : String := "RWQ5rvRzRSb/Zgq2f/7NOM1j81uGcUPUoNSNxl1HUnqWFafv1xuhkRV5"

/-- The `minisign_verify` crate. An error is its text. -/
structure Minisign where
  Signature : Type
  PublicKey : Type
  decode : String → Except String Signature
  trustedComment : Signature → String
  fromBase64 : String → Except String PublicKey
  verify : PublicKey → Bytes → Signature → Except String Unit

/-- What a program run to its end leaves. -/
structure Output where
  code : UInt32
  stdout : Bytes
  stderr : Bytes

/-- The text of an `ExitStatus`: a code with the high bit set is shown in hexadecimal. -/
def exitStatus (code : UInt32) : String :=
  if code.toNat ≥ 2 ^ 31 then "exit code: 0x" ++ String.ofList (Nat.toDigits 16 code.toNat)
  else s!"exit code: {code}"

/-- The code points of `char::is_whitespace`. -/
def isWhitespace (c : Char) : Bool :=
  let n := c.toNat
  (9 ≤ n && n ≤ 13) || n == 0x20 || n == 0x85 || n == 0xA0 || n == 0x1680 ||
    (0x2000 ≤ n && n ≤ 0x200A) || n == 0x2028 || n == 0x2029 || n == 0x202F || n == 0x205F ||
    n == 0x3000

/-- What is shown of what a program wrote on its error output. -/
def complaint (out : Output) : String :=
  String.ofList (Words.trim isWhitespace (lossy out.stderr).toList)

/-- What answers a fetch: the system, where its directory is, and curl, run there with
some arguments. -/
structure Fetching where
  systemDirectory : Except OsError String
  run : List String → Except OsError Output

/-- What curl is given, for a body at `url` of at most `maxSize` bytes. -/
def curlArgs (url : String) (maxTime maxSize : Nat) : List String :=
  ["-q", "-fsSL", "--proto", "=https", "--proto-redir", "=https", "--tlsv1.2", "--max-time",
    toString maxTime, "--max-filesize", toString maxSize, url]

/-- The body at `url`, at most `maxSize` bytes. -/
def fetch (url : String) (maxTime maxSize : Nat) (o : Fetching) : Except IoError Bytes :=
  match o.systemDirectory with
  | .error e => .error (e.at .device)
  | .ok dir =>
    match o.run (curlArgs url maxTime maxSize) with
    | .error e => .error ⟨e.kind, s!"running {dir}\\curl.exe: {e.text}", .device⟩
    | .ok out =>
      if out.code ≠ 0 then
        .error ⟨.other, s!"fetching {url} failed ({exitStatus out.code}): {complaint out}", .device⟩
      -- --max-filesize cannot stop a body whose size is not announced.
      else if out.stdout.length > maxSize then
        .error ⟨.other, s!"{url} is larger than {maxSize} bytes", .device⟩
      else .ok out.stdout

def invalid (msg : String) : IoError := ⟨.invalidData, msg, .device⟩

variable (M : Minisign)

def decode (sig : String) : Except IoError M.Signature :=
  (M.decode sig).mapError fun e => invalid s!"the update's signature is malformed: {e}"

/-- The version that a signature's trusted comment names, or that it names none. -/
def signedVersion (sig : M.Signature) : Except IoError Version :=
  match commentVersion (M.trustedComment sig) with
  | some v => .ok v
  | none => .error (invalid s!"the update is signed as {X.debugStr (M.trustedComment sig).toList}, not as `btrfs-peek X.Y.Z {TARGET}`")

/-- The version a signature announces, before the exe is fetched. -/
def announced (sig : String) : Except IoError Version := do
  let sig ← decode M sig
  signedVersion X M sig

/-- Checks that `exe` is a signed release, newer than `running`; its version. -/
def verifyUpdate (key : String) (exe : Bytes) (sig : String) (running : Version) :
    Except IoError Version := do
  let key ← (M.fromBase64 key).mapError fun e => invalid s!"the release key is malformed: {e}"
  let sig ← decode M sig
  let _ ← (M.verify key exe sig).mapError fun e =>
    invalid s!"the update's signature does not verify: {e}"
  let v ← signedVersion X M sig
  if compare v running ≠ .gt then
    .error (invalid s!"the signed release {v} is not newer than the running {running}")
  else .ok v

/-- This build's version. -/
def Version.running : Version := (Version.parse VERSION).get (by decide)

/-- What answers a check: the service, which version it has in place already; the two
fetches; and the system, to the installation. -/
structure Checking where
  installed : Option Version
  signature : Fetching
  exe : Fetching
  install : Except OsError Unit

/-- `String::from_utf8` of a signature. -/
def signatureText (sig : Bytes) : Except IoError String :=
  match fromUtf8 sig with
  | some sig => .ok sig
  | none => .error (invalid "the signature is not UTF-8")

/-- Fetches the signature, and if it announces a newer release, the exe; verifies exactly
those bytes, and swaps them in. -/
def checkForUpdate (o : Checking) : Except IoError Update :=
  match o.installed with
  | some v => .ok (.installed v)
  | none => do
    let sig ← fetch (RELEASES ++ ASSET ++ ".minisig") 120 MAX_SIG o.signature
    let sig ← signatureText sig
    let v ← announced X M sig
    if compare v .running ≠ .gt then .ok (.upToDate .running)
    else do
      let exe ← fetch (RELEASES ++ ASSET) 900 MAX_EXE o.exe
      let v ← verifyUpdate X M releaseKey exe sig .running
      let _ ← o.install.mapError (OsError.at · .device)
      .ok (.installed v)

/-! ## How long their errors are -/

/-- An error, if it is one, that a reply can carry. -/
def Carried {α : Type} (x : Except IoError α) : Prop :=
  ∀ e, x = .error e → size e.text ≤ MAX_MESSAGE

section carried

variable {α β : Type}

theorem carried_ok (a : α) : Carried (.ok a) := fun _ h => by cases h

@[simp] theorem carried_error {e : IoError} :
    Carried (.error e : Except IoError α) ↔ size e.text ≤ MAX_MESSAGE := by
  constructor
  · intro h
    exact h e rfl
  · rintro h _ ⟨⟩
    exact h

theorem carried_bind {x : Except IoError α} {f : α → Except IoError β} :
    Carried (x >>= f) ↔ Carried x ∧ ∀ a, x = .ok a → Carried (f a) := by
  cases x with
  | error e =>
    show Carried (.error e) ↔ _
    simp
  | ok a =>
    show Carried (f a) ↔ _
    simp [carried_ok]

end carried

/-- The text from outside that an error of `open_partition` repeats: the system's, after
the path. -/
def Opening.Short (path : String) (o : Opening F) : Prop :=
  partitionPathOk path = true →
    match o.file with
    | .error e => e.kind ≠ .notFound → size path + size e.text + 2 ≤ MAX_MESSAGE
    | .ok _ => ∀ e, readSuper o.reads [] = .error e → size path + size e.text + 2 ≤ MAX_MESSAGE

theorem openPartition_short_iff {path : String} {o : Opening F} (hp : size path ≤ MAX_PATH) :
    (∀ r, openPartition X path o = .error r → size r.message ≤ MAX_MESSAGE) ↔ o.Short path := by
  have hmax : MAX_PATH + 100 ≤ MAX_MESSAGE := by decide
  have hfixed : ∀ t : String, size t ≤ 100 → size (path ++ t) ≤ MAX_MESSAGE := by
    intro t ht
    rw [size_append]
    omega
  have htext : ∀ t : String, size (path ++ ": " ++ t) = size path + size t + 2 := by
    intro t
    have h1 : size ": " = 2 := by decide
    simp only [size_append, h1]
    omega
  have hnot := hfixed ": not a btrfs partition" (by decide)
  have hnone := hfixed ": no such partition" (by decide)
  have honly := hfixed ": the helper opens only partitions named \\\\.\\HarddiskNPartitionM (M >= 1)" (by decide)
  unfold openPartition Opening.Short
  by_cases hok : partitionPathOk path = true
  · rw [if_neg (by simp [hok])]
    simp only [hok, forall_const]
    cases o.file with
    | error e =>
      dsimp only
      split_ifs with hkind
      · simp only [Except.error.injEq, forall_eq']
        exact iff_of_true hnone fun h => absurd hkind h
      · simp only [Except.error.injEq, forall_eq', hkind, ne_eq, not_false_eq_true, forall_const]
        rw [← htext]
        rfl
    | ok file =>
      dsimp only
      cases readSuper o.reads [] with
      | error e =>
        simp only [Except.error.injEq, forall_eq']
        rw [← htext]
        rfl
      | ok sb =>
        dsimp only
        split_ifs
        · simp only [Except.error.injEq, forall_eq']
          exact iff_of_true hnot (by simp)
        · simp
  · rw [if_pos hok]
    simp only [Except.error.injEq, forall_eq']
    exact iff_of_true honly fun h => absurd h hok

/-- Of the texts from outside that a fetch's error repeats, the one that it does. -/
def Fetching.Short (url : String) (maxTime maxSize : Nat) (o : Fetching) : Prop :=
  match o.systemDirectory with
  | .error e => size e.text ≤ MAX_MESSAGE
  | .ok dir =>
    match o.run (curlArgs url maxTime maxSize) with
    | .error e => size dir + size e.text + 19 ≤ MAX_MESSAGE
    | .ok out =>
      out.code ≠ 0 → size (complaint out) + size (exitStatus out.code) + size url + 21 ≤ MAX_MESSAGE

/-- The texts from outside that a check's error repeats. -/
def Checking.Short (o : Checking) : Prop :=
  o.installed = none →
    o.signature.Short (RELEASES ++ ASSET ++ ".minisig") 120 MAX_SIG ∧
    ∀ b, fetch (RELEASES ++ ASSET ++ ".minisig") 120 MAX_SIG o.signature = .ok b →
      ∀ t, fromUtf8 b = some t →
      match M.decode t with
      | .error e => size e + 37 ≤ MAX_MESSAGE
      | .ok sig =>
        match commentVersion (M.trustedComment sig) with
        | none => size (X.debugStr (M.trustedComment sig).toList) + 66 ≤ MAX_MESSAGE
        | some v =>
          compare v .running = .gt → o.exe.Short (RELEASES ++ ASSET) 900 MAX_EXE ∧
            ∀ exe, fetch (RELEASES ++ ASSET) 900 MAX_EXE o.exe = .ok exe →
              match M.fromBase64 releaseKey with
              | .error e => size e + 30 ≤ MAX_MESSAGE
              | .ok key =>
                match M.verify key exe sig with
                | .error e => size e + 40 ≤ MAX_MESSAGE
                | .ok _ => ∀ e, o.install = .error e → size e.text ≤ MAX_MESSAGE

theorem fetch_carried_iff {url : String} {maxTime maxSize : Nat} {o : Fetching}
    (hurl : size s!"{url} is larger than {maxSize} bytes" ≤ MAX_MESSAGE) :
    Carried (fetch url maxTime maxSize o) ↔ o.Short url maxTime maxSize := by
  unfold fetch Fetching.Short
  split
  · exact carried_error
  · next dir _ =>
    split
    · next e _ =>
      rw [carried_error]
      show size ("running " ++ dir ++ "\\curl.exe: " ++ e.text) ≤ MAX_MESSAGE ↔ _
      have h1 : size "running " = 8 := by decide
      have h2 : size "\\curl.exe: " = 11 := by decide
      rw [size_append, size_append, size_append, h1, h2]
      omega
    · next out _ =>
      split_ifs with hcode hlen
      · rw [carried_error]
        show size ("fetching " ++ url ++ " failed (" ++ exitStatus out.code ++ "): " ++ complaint out)
          ≤ MAX_MESSAGE ↔ _
        have h1 : size "fetching " = 9 := by decide
        have h2 : size " failed (" = 9 := by decide
        have h3 : size "): " = 3 := by decide
        simp only [size_append, h1, h2, h3, hcode, not_false_eq_true, forall_const, ne_eq]
        omega
      · exact iff_of_true (carried_error.mpr hurl) fun h => absurd h hcode
      · simp [carried_ok, hcode]

variable {X M}

theorem carried_unsigned {sig : M.Signature} (h : commentVersion (M.trustedComment sig) = none) :
    Carried (signedVersion X M sig) ↔
      size (X.debugStr (M.trustedComment sig).toList) + 66 ≤ MAX_MESSAGE := by
  have h1 : size "the update is signed as " = 24 := by decide
  have h2 : size ", not as `btrfs-peek X.Y.Z " = 27 := by decide
  have h3 : size TARGET = 14 := by decide
  have h4 : size "`" = 1 := by decide
  rw [signedVersion, h]
  show Carried (.error _) ↔ _
  rw [carried_error]
  show size ("the update is signed as " ++ X.debugStr (M.trustedComment sig).toList ++
    ", not as `btrfs-peek X.Y.Z " ++ TARGET ++ "`") ≤ MAX_MESSAGE ↔ _
  simp only [size_append, h1, h2, h3, h4]
  omega

/-- A version has three numbers of at most 19 digits. -/
theorem size_version_le (v : Version) : size (toString v) ≤ 230 := by
  have hn : ∀ n : Part, size (toString n.1) ≤ 76 := fun n => size_toString_nat (by decide) n.2
  have hmajor := hn v.major
  have hminor := hn v.minor
  have hpatch := hn v.patch
  have hdot : size "." = 1 := by decide
  show size (toString v.major.1 ++ "." ++ toString v.minor.1 ++ "." ++ toString v.patch.1) ≤ 230
  simp only [size_append, hdot]
  omega

theorem size_update_le (u : Update) : size u.text ≤ MAX_MESSAGE := by
  have hmax : MAX_MESSAGE = 65536 := by decide
  cases u with
  | upToDate v =>
    have hv := size_version_le v
    have h1 : size "up to date (" = 12 := by decide
    have h2 : size ")" = 1 := by decide
    show size ("up to date (" ++ toString v ++ ")") ≤ _
    simp only [size_append, h1, h2]
    omega
  | installed v =>
    have hv := size_version_le v
    have h1 : size UPDATED_TO = 11 := by decide
    have h2 : size "; restarting when idle" = 22 := by decide
    show size (UPDATED_TO ++ toString v ++ "; restarting when idle") ≤ _
    simp only [size_append, h1, h2]
    omega

theorem size_announce (a b : String) (n : Nat) (h : size a = n) : size (a ++ b) = size b + n := by
  rw [size_append, h, Nat.add_comm]

/-- A signature that announces a newer release, with the exe: what comes of them is that
the crate accepts neither the key nor the exe, or the installation. -/
theorem carried_install_iff {exe : Bytes} {t : String} {sig : M.Signature} {v : Version}
    {install : Except OsError Unit} (hsig : decode M t = .ok sig) (hv : signedVersion X M sig = .ok v)
    (hnew : compare v Version.running = .gt) :
    Carried (do
      let v ← verifyUpdate X M releaseKey exe t .running
      let _ ← install.mapError (OsError.at · .device)
      .ok (Update.installed v)) ↔
      match M.fromBase64 releaseKey with
      | .error e => size e + 30 ≤ MAX_MESSAGE
      | .ok key =>
        match M.verify key exe sig with
        | .error e => size e + 40 ≤ MAX_MESSAGE
        | .ok _ => ∀ e, install = .error e → size e.text ≤ MAX_MESSAGE := by
  unfold verifyUpdate
  cases M.fromBase64 releaseKey with
  | error e =>
    show Carried (.error (invalid ("the release key is malformed: " ++ e))) ↔ _
    rw [carried_error]
    show size ("the release key is malformed: " ++ e) ≤ MAX_MESSAGE ↔ _
    rw [size_announce _ _ 30 (by decide)]
  | ok key =>
    rw [hsig]
    dsimp only
    show Carried (((M.verify key exe sig).mapError _ >>= fun _ => signedVersion X M sig >>= _) >>= _) ↔ _
    cases M.verify key exe sig with
    | error e =>
      show Carried (.error (invalid ("the update's signature does not verify: " ++ e))) ↔ _
      rw [carried_error]
      show size ("the update's signature does not verify: " ++ e) ≤ MAX_MESSAGE ↔ _
      rw [size_announce _ _ 40 (by decide)]
    | ok _ =>
      rw [hv]
      show Carried ((if compare v Version.running ≠ .gt then _ else .ok v) >>= _) ↔ _
      rw [if_neg (by simp [hnew])]
      show Carried (install.mapError _ >>= _) ↔ _
      cases install with
      | error e =>
        show Carried (.error (e.at .device)) ↔ _
        rw [carried_error]
        simp [OsError.at]
      | ok _ =>
        show Carried (.ok _) ↔ _
        simp [carried_ok]

theorem carried_checkForUpdate_iff {o : Checking} :
    Carried (checkForUpdate X M o) ↔ o.Short X M := by
  unfold checkForUpdate Checking.Short
  cases o.installed with
  | some v => simp [carried_ok]
  | none =>
    simp only [forall_const]
    rw [carried_bind, fetch_carried_iff (by decide +kernel)]
    apply and_congr_right
    intro _
    apply forall_congr'
    intro b
    apply imp_congr_right
    intro _
    cases hb : fromUtf8 b with
    | none =>
      have : size "the signature is not UTF-8" ≤ MAX_MESSAGE := by decide +kernel
      simp [signatureText, hb, invalid, carried_bind, this]
    | some t =>
      have htext : signatureText b = .ok t := by rw [signatureText, hb]
      rw [htext]
      show Carried (announced X M t >>= _) ↔ _
      simp only [Option.some.injEq, forall_eq']
      cases hdecode : M.decode t with
      | error e =>
        have hann : announced X M t =
            .error (invalid ("the update's signature is malformed: " ++ e)) := by
          rw [announced, decode, hdecode]
          rfl
        rw [hann]
        show Carried (.error _) ↔ _
        rw [carried_error]
        show size ("the update's signature is malformed: " ++ e) ≤ MAX_MESSAGE ↔ _
        rw [size_announce _ _ 37 (by decide)]
      | ok sig =>
        have hsig : decode M t = .ok sig := by
          rw [decode, hdecode]
          rfl
        have hann : announced X M t = signedVersion X M sig := by
          rw [announced, hsig]
          rfl
        rw [hann]
        dsimp only
        cases hcomment : commentVersion (M.trustedComment sig) with
        | none =>
          dsimp only
          rw [carried_bind, carried_unsigned hcomment]
          apply and_iff_left
          intro v hv
          simp [signedVersion, hcomment] at hv
        | some v =>
          have hv : signedVersion X M sig = .ok v := by rw [signedVersion, hcomment]
          rw [hv]
          dsimp only
          show Carried (if compare v Version.running ≠ .gt then _ else _) ↔ _
          split_ifs with hnew
          · simp [hnew, carried_ok]
          · rw [not_not] at hnew
            simp only [hnew, forall_const]
            rw [carried_bind, fetch_carried_iff (by decide +kernel)]
            apply and_congr_right
            intro _
            apply forall_congr'
            intro exe
            apply imp_congr_right
            intro _
            exact carried_install_iff hsig hv hnew

end BtrfsPeek.Helper

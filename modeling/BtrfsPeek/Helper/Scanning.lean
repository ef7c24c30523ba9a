import BtrfsPeek.Helper.Remote
import BtrfsPeek.Scan

/-!
# Scanning through the helper

On Windows the candidates of a scan are the disks and their partitions, and the helper opens
partitions only. So a scan by a user to whom disks are denied lists what it would list
elevated, but for filesystems on whole disks, and it reports nothing as denied
(`Machine.scan_helper`).
-/

namespace Effect

theorem Coincide.attempt {ε σ α : Type} {P : σ → Prop} {x y : EStateM ε σ α} {Q : α → σ → Prop}
    {E E' : ε → σ → Prop} (h : Coincide P x y Q E) : Coincide P (attempt x) (attempt y)
      (fun r s => match r with | .ok a => Q a s | .error e => E e s) E' :=
  ⟨h.1.attempt, fun s hs => by rw [attempt_run, attempt_run, h.2 s hs]⟩

end Effect

namespace BtrfsPeek

open Effect

/-! ## Devices that settle -/

section settled

variable {β : Type} {opener : Opener β} {X : Crates}

/-- A path that opens the same way every time, and if it opens, onto a fixed content. -/
structure SteadyAt (opener : Opener β) (path : String) : Prop where
  same : ∀ s t, (opener path s).1 = (opener path t).1
  holds : ∀ s B, (opener path s).1 = .ok B → ∃ c, B.Holds c

theorem scanFrom_only (devices : List String) : ∀ (paths : List String) (out : ScanResult), (∀ path ∈ paths, path ∈ devices) →
    scanFrom X opener paths out = scanFrom X (opener.only devices) paths out
  | [], _, _ => rfl
  | path :: paths, out, h => by
    have hopen : Device.open opener path = Device.open (opener.only devices) path := by
      funext s
      unfold Device.open Opener.only
      rw [if_pos (h path (.head _))]
    have hdevice : scanDevice X opener path out = scanDevice X (opener.only devices) path out := by
      unfold scanDevice
      rw [hopen]
    simp only [scanFrom, hdevice, fun out => scanFrom_only devices paths out fun path hp => h path (.tail _ hp)]

theorem SteadyAt.only {devices : List String} (h : ∀ path ∈ devices, SteadyAt opener path) :
    SteadyOpener (opener.only devices) where
  same path s t := by
    unfold Opener.only
    split_ifs with hp
    · exact (h path hp).same s t
    · rfl
  holds path s B hB := by
    unfold Opener.only at hB
    split_ifs at hB with hp
    exact (h path hp).holds s B hB

/-- A scan of paths that are steady. -/
theorem scan_steady (p : Platform) {paths : List String} (h : ∀ path ∈ paths, SteadyAt opener path) (s : β)
    (t : FsState β) : ∃ s', scan X opener paths s =
      .ok ⟨paths.filterMap fun path => Found.ofOpened path (Fs.opened p X opener path t),
        paths.filter fun path => isDenied (Fs.opened p X opener path t)⟩ s' := by
  have hopened : ∀ path ∈ paths, Fs.opened p X (opener.only paths) path t = Fs.opened p X opener path t := by
    intro path hp
    have hcongr : ∀ q ∈ [path], opener.only paths q = opener q := by
      intro q hq
      rw [List.mem_singleton.mp hq]
      funext s
      rw [Opener.only, if_pos hp]
    unfold Fs.opened
    rw [Fs.openDevices_congr _ hcongr]
  obtain ⟨s', hscan⟩ := scan_same (X := X) (SteadyAt.only h) p paths s t
  refine ⟨s', ?_⟩
  unfold scan at hscan ⊢
  rw [scanFrom_only paths paths _ fun _ hp => hp, hscan,
    List.filterMap_congr fun path hp => by rw [hopened path hp],
    List.filter_congr fun path hp => by rw [hopened path hp]]

/-- A read of a device of fixed content gives what is there, or fails where that is not all. -/
theorem Device.read_settled {d : Device β} {c : Content} (h : d.backing.Holds c) {off len : Nat} (ho : off < 2 ^ 64)
    (hlen : 0 < len) : ∃ r, (∀ s, ∃ s', d.read off len s = done r s') ∧
      ((c.size < off + len ∧ ∃ e, r = .error e) ∨ (off + len ≤ c.size ∧ r = .ok (c.read off len))) := by
  refine ⟨d.outcome c off len, Device.read_of_holds h len ho, ?_⟩
  by_cases hle : off + len ≤ c.size
  · exact .inr ⟨hle, Device.outcome_of_le d hle⟩
  · refine .inl ⟨Nat.lt_of_not_le hle, ?_⟩
    cases hr : d.outcome c off len with
    | ok b => exact absurd (Device.le_of_outcome_ok hr hlen) hle
    | error e => exact ⟨e, rfl⟩

/-- What is listed of a device of content `c`. -/
def Found.ofContent (X : Crates) (path : String) (c : Content) : Option Found :=
  if SUPER_OFFSET + SUPER_SIZE ≤ c.size then
    match Superblock.parse X (c.read SUPER_OFFSET SUPER_SIZE) with
    | .ok sb => some (Found.of path sb)
    | .error _ => none
  else none

theorem opened_file {p : Platform} {path : String} {t : FsState β} {B : Backing β} {c : Content}
    (h : (opener path t.dev).1 = .ok B) (hB : B.Holds c) :
    isDenied (Fs.opened p X opener path t) = false ∧
      Found.ofOpened path (Fs.opened p X opener path t) = Found.ofContent X path c := by
  obtain ⟨r, hr, hcases⟩ := Device.read_settled (d := ⟨path, B⟩) hB (show SUPER_OFFSET < 2 ^ 64 by decide)
    (show 0 < SUPER_SIZE by decide)
  obtain ⟨t', hread⟩ := hr (opener path t.dev).2
  rw [opened_of_read h hread, Found.ofContent]
  refine ⟨isDenied_openedBy B r, ?_⟩
  rcases hcases with ⟨hlt, e, rfl⟩ | ⟨hle, rfl⟩
  · rw [if_neg (Nat.not_le.mpr hlt)]
    rfl
  · rw [if_pos hle]
    cases hraw : Superblock.parse X (c.read SUPER_OFFSET SUPER_SIZE) with
    | error e =>
      rw [Fs.openedBy_of_error hraw]
      rfl
    | ok sb =>
      rw [Fs.openedBy_of_ok hraw]
      rfl

theorem opened_error {p : Platform} {path : String} {t : FsState β} {e : OsError} (h : (opener path t.dev).1 = .error e)
    (hkind : e.kind ≠ .permissionDenied) :
    isDenied (Fs.opened p X opener path t) = false ∧ Found.ofOpened path (Fs.opened p X opener path t) = none := by
  rw [opened_of_error h, isDenied_openError]
  exact ⟨decide_eq_false hkind, rfl⟩

theorem Found.device_ofContent {path : String} {c : Content} {f : Found} (h : Found.ofContent X path c = some f) :
    f.device = path := by
  unfold ofContent at h
  split_ifs at h
  split at h
  · rw [← Option.some.inj h]
    rfl
  · cases h

theorem Found.device_ofOpened {path : String} {r : Except Error (Opened β)} {f : Found}
    (h : Found.ofOpened path r = some f) : f.device = path := by
  cases r with
  | error e => cases h
  | ok o =>
    obtain ⟨sb, -, rfl⟩ := Option.map_eq_some_iff.mp h
    rfl

theorem Found.filter_ofContent {path : String} {c : Content} (q : String → Bool) (h : q path = true) :
    ((Found.ofContent X path c).filter fun f => q f.device) = Found.ofContent X path c := by
  cases hf : Found.ofContent X path c with
  | none => rfl
  | some f => rw [Option.filter_some, Found.device_ofContent hf, if_pos h]

theorem Found.filter_ofContent_none {path : String} {c : Content} (q : String → Bool) (h : q path = false) :
    ((Found.ofContent X path c).filter fun f => q f.device) = none := by
  cases hf : Found.ofContent X path c with
  | none => rfl
  | some f => rw [Option.filter_some, Found.device_ofContent hf, if_neg (Bool.eq_false_iff.mp h)]

end settled

/-! ## What reading keeps -/

section keeps

variable {β : Type} {B : Backing β} {I : β → Prop}

theorem Backing.fill_keeps (h : ∀ off len s, I s → I (B.readAt off len s).2) (start total : Nat) :
    ∀ (fuel : Nat) (done : Bytes), Keeps I (B.fill start total fuel done)
  | 0, done => .pure done
  | fuel + 1, done => by
    intro s hs
    rw [Backing.fill]
    dsimp only
    by_cases hlt : done.length < total
    · have hkept := h ((start + done.length) % 2 ^ 64) (min (total - done.length) MAX_IO) s hs
      rw [if_pos hlt]
      rcases hr : B.readAt ((start + done.length) % 2 ^ 64) (min (total - done.length) MAX_IO) s with ⟨e | _ | ⟨x, xs⟩, s'⟩
      · rw [hr] at hkept
        dsimp only
        split_ifs
        · exact Backing.fill_keeps h start total fuel done s' hkept
        · exact hkept
      · rw [hr] at hkept
        exact hkept
      · rw [hr] at hkept
        exact Backing.fill_keeps h start total fuel _ s' hkept
    · rw [if_neg hlt]
      exact hs

theorem Device.read_keeps {d : Device β} (h : ∀ off len s, I s → I (d.backing.readAt off len s).2) (off len : Nat) :
    Keeps I (d.read off len) := by
  have hrun (total fuel : Nat) : Keeps I (do
      let done ← d.backing.fill (bufStart off) total fuel []
      lift (d.trim off len done)) := (Backing.fill_keeps h _ _ _ _).bind fun _ => .lift _
  intro s hs
  rw [Device.read_run]
  exact hrun (bufLen off len) _ s hs

end keeps

namespace Helper

/-! ## The candidates of Windows -/

theorem toLower_digit {n : Nat} {c : Char} (h : c ∈ Nat.toDigits 10 n) : c.toLower = c := by
  have hrange := Decimal.digit_range (Decimal.isDigit_of_mem h)
  unfold Char.toLower
  rw [dif_neg]
  rintro ⟨hlow, -⟩
  have hA : 65 ≤ c.toNat := hlow
  omega

theorem spells_harddisk (d k : Nat) : Spells (harddisk d k) d k := by
  have hlower (n : Nat) : (Nat.toDigits 10 n).map Char.toLower = Nat.toDigits 10 n :=
    (List.map_congr_left fun c hc => toLower_digit hc).trans (List.map_id _)
  have hdigits (n : Nat) : (toString n).toList = Nat.toDigits 10 n := by simp
  have htext : (harddisk d k).toList =
      "\\\\.\\Harddisk".toList ++ (Nat.toDigits 10 d ++ ("Partition".toList ++ Nat.toDigits 10 k)) := by
    show ("\\\\.\\Harddisk" ++ toString d ++ "Partition" ++ toString k).toList = _
    simp only [String.toList_append, hdigits, List.append_assoc]
  rw [Spells, htext, List.map_append, List.map_append, List.map_append, hlower, hlower]
  rfl

/-- The helper opens the partitions, and no whole disk. -/
theorem partitionPathOk_harddisk {d k : Nat} (hd : d < 1000) (hk : k < 1000) :
    partitionPathOk (harddisk d k) = decide (0 < k) := by
  by_cases hpos : 0 < k
  · rw [decide_eq_true hpos]
    exact (partitionPathOk_eq _).mpr ⟨d, k, hd, hpos, hk, spells_harddisk d k⟩
  · rw [decide_eq_false hpos, Bool.eq_false_iff]
    intro hok
    obtain ⟨d', k', -, hpos', -, hspells⟩ := (partitionPathOk_eq _).mp hok
    obtain ⟨-, rfl⟩ := hspells.unique (spells_harddisk d k)
    exact hpos hpos'

theorem harddisk_short {d k : Nat} (hd : d < 100) (hk : k < 100) : (utf8 (harddisk d k)).length ≤ MAX_PATH := by
  have hsize : size (harddisk d k) = 12 + size (toString d) + 9 + size (toString k) := by
    show size ("\\\\.\\Harddisk" ++ toString d ++ "Partition" ++ toString k) = _
    rw [size_append, size_append, size_append]
    rfl
  have := size_toString_nat (k := 2) (by decide) hd
  have := size_toString_nat (k := 2) (by decide) hk
  show size (harddisk d k) ≤ 1024
  omega

/-! ## What is there -/

namespace Machine

variable {F ω : Type} (m : Machine F ω)

/-- `Device::open` of a process to which `denied` are denied. -/
def openAs (denied : String → Bool) : Opener (Seat ω) := fun path s => m.open path { s with denied := denied }

/-- What is at `path`: nothing, or a file of some content, whose superblock the service reads in
some pieces. -/
inductive Probes (X : Crates) (path : String) : Prop
  | absent (e : OsError) : e.kind = .notFound → (∀ w, (m.openFile path w).1 = .error e) →
    (∀ w, (m.answer (.open path) w).1 = openPartition X path (⟨.error e, []⟩ : Opening F)) → Probes X path
  | present (f : F) (c : Content) (reads : List (Except OsError Bytes)) : (∀ w, (m.openFile path w).1 = .ok f) →
    (Local.backing (m.calm f)).Holds c →
    readSuper reads [] = .ok (c.read SUPER_OFFSET (min SUPER_SIZE (c.size - SUPER_OFFSET))) →
    (∀ w, (m.answer (.open path) w).1 = openPartition X path (⟨.ok f, reads⟩ : Opening F)) → Probes X path

/-- What a path opens as: the file, if it may be opened, or what the service answers. -/
theorem openAs_eq (hhelper : m.helper = true) {path : String} (hshort : (utf8 path).length ≤ MAX_PATH)
    (denied : String → Bool) (s : Seat ω) : (m.openAs denied path s).1 =
      if denied path then
        match (m.answer (.open path) s.world).1 with
        | .ok f => .ok (m.backing path f)
        | .error r => .error ⟨(refusalError r).kind, (refusalError r).text⟩
      else
        match (m.openFile path s.world).1 with
        | .ok f => .ok (m.backing path f)
        | .error e => .error e := by
  have hlong : ¬ (utf8 path).length > MAX_PATH := Nat.not_lt.mpr hshort
  unfold openAs Machine.open
  dsimp only
  rw [if_neg (show ¬ m.helper = false by rw [hhelper]; decide), if_neg hlong]
  split_ifs
  · rcases m.answer (.open path) s.world with ⟨r | f, w⟩ <;> rfl
  · rcases m.openFile path s.world with ⟨e | f, w⟩ <;> rfl

section probed

variable {m} {X : Crates} {path : String}

theorem openPartition_absent (path : String) {e : OsError} (he : e.kind = .notFound) :
    ∃ r, openPartition X path (⟨.error e, []⟩ : Opening F) = .error r ∧ (refusalError r).kind ≠ .permissionDenied := by
  unfold openPartition
  dsimp only
  rw [if_pos he]
  split_ifs
  · exact ⟨_, rfl, by simp [refusalError]⟩
  · exact ⟨_, rfl, by simp [refusalError]⟩

/-- The service opens what a scan would list, if it is a partition, and refuses the rest. -/
theorem openPartition_present (path : String) {f : F} {c : Content} {reads : List (Except OsError Bytes)}
    (hreads : readSuper reads [] = .ok (c.read SUPER_OFFSET (min SUPER_SIZE (c.size - SUPER_OFFSET)))) :
    (partitionPathOk path = true ∧ Found.ofContent X path c ≠ none ∧
        openPartition X path (⟨.ok f, reads⟩ : Opening F) = .ok f) ∨
      ((partitionPathOk path = false ∨ Found.ofContent X path c = none) ∧
        ∃ text, openPartition X path (⟨.ok f, reads⟩ : Opening F) = .error (.refused text)) := by
  unfold openPartition
  dsimp only
  by_cases hpath : partitionPathOk path = true
  · rw [if_neg (not_not.mpr hpath), hreads]
    dsimp only
    rw [Content.length_read]
    unfold Found.ofContent
    by_cases hle : SUPER_OFFSET + SUPER_SIZE ≤ c.size
    · have hmin : min SUPER_SIZE (c.size - SUPER_OFFSET) = SUPER_SIZE := by omega
      rw [hmin, if_pos hle]
      cases Superblock.parse X (c.read SUPER_OFFSET SUPER_SIZE) with
      | ok sb => exact .inl ⟨hpath, by simp, by simp [Except.isOk, Except.toBool]⟩
      | error e => exact .inr ⟨.inr rfl, _, by simp [Except.isOk, Except.toBool]; rfl⟩
    · have hmin : min SUPER_SIZE (c.size - SUPER_OFFSET) < SUPER_SIZE := by
        have hsize : 0 < SUPER_SIZE := by decide
        omega
      rw [if_neg hle]
      exact .inr ⟨.inr rfl, _, by simp [hmin]; rfl⟩
  · rw [if_pos hpath]
    exact .inr ⟨.inl (Bool.not_eq_true _ ▸ hpath), _, rfl⟩

variable (hhelper : m.helper = true) (hshort : (utf8 path).length ≤ MAX_PATH)

include hhelper hshort

theorem Probes.steadyAt (denied : String → Bool) (h : m.Probes X path) : SteadyAt (m.openAs denied) path where
  same s t := by
    rw [m.openAs_eq hhelper hshort, m.openAs_eq hhelper hshort]
    cases h with
    | absent e he hfile hservice => rw [hfile, hfile, hservice, hservice]
    | present f c reads hfile hc hreads hservice => rw [hfile, hfile, hservice, hservice]
  holds s B hB := by
    rw [m.openAs_eq hhelper hshort] at hB
    cases h with
    | absent e he hfile hservice =>
      obtain ⟨r, hr, -⟩ := openPartition_absent (F := F) (X := X) path he
      rw [hfile, hservice, hr] at hB
      split_ifs at hB
    | present f c reads hfile hc hreads hservice =>
      refine ⟨c, ?_⟩
      rw [hfile, hservice] at hB
      rcases openPartition_present (X := X) path (f := f) hreads with ⟨-, -, ho⟩ | ⟨-, text, ho⟩ <;>
        rw [ho] at hB <;> split_ifs at hB <;> cases hB <;> exact backing_holds hc

/-- What a scan finds at one path, elevated and not. -/
theorem Probes.opened (denied : String → Bool) (h : m.Probes X path) (p : Platform) (s t : FsState (Seat ω)) :
    isDenied (Fs.opened p X (m.openAs fun _ => false) path s) = false ∧
      isDenied (Fs.opened p X (m.openAs denied) path t) = false ∧
      Found.ofOpened path (Fs.opened p X (m.openAs denied) path t) =
        (Found.ofOpened path (Fs.opened p X (m.openAs fun _ => false) path s)).filter fun f =>
          !denied f.device || partitionPathOk f.device := by
  have hfull := m.openAs_eq hhelper hshort (fun _ => false) s.dev
  have hthrough := m.openAs_eq hhelper hshort denied t.dev
  cases h with
  | absent e he hfile hservice =>
    obtain ⟨r, hr, hkind⟩ := openPartition_absent (F := F) (X := X) path he
    have hnot : e.kind ≠ .permissionDenied := by rw [he]; decide
    rw [hfile, if_neg (by decide)] at hfull
    rw [hfile, hservice, hr] at hthrough
    obtain ⟨hd, hf⟩ := opened_error (p := p) (X := X) hfull hnot
    split_ifs at hthrough
    · obtain ⟨hd', hf'⟩ := opened_error (p := p) (X := X) hthrough hkind
      exact ⟨hd, hd', by rw [hf, hf']; rfl⟩
    · obtain ⟨hd', hf'⟩ := opened_error (p := p) (X := X) hthrough hnot
      exact ⟨hd, hd', by rw [hf, hf']; rfl⟩
  | present f c reads hfile hc hreads hservice =>
    rw [hfile, if_neg (by decide)] at hfull
    obtain ⟨hd, hf⟩ := opened_file (p := p) (X := X) hfull (backing_holds hc)
    refine ⟨hd, ?_⟩
    rw [hf]
    let keeps (q : String) : Bool := !denied q || partitionPathOk q
    by_cases hdenied : denied path = true
    · rw [hservice, if_pos hdenied] at hthrough
      rcases openPartition_present (X := X) path (f := f) hreads with ⟨hok, -, ho⟩ | ⟨hno, text, ho⟩
      · rw [ho] at hthrough
        obtain ⟨hd', hf'⟩ := opened_file (p := p) (X := X) hthrough (backing_holds hc)
        refine ⟨hd', hf'.trans (Found.filter_ofContent keeps ?_).symm⟩
        show (!denied path || partitionPathOk path) = true
        rw [hok, Bool.or_true]
      · rw [ho] at hthrough
        obtain ⟨hd', hf'⟩ := opened_error (p := p) (X := X) hthrough (by simp [refusalError])
        refine ⟨hd', hf'.trans ?_⟩
        rcases hno with hno | hno
        · refine (Found.filter_ofContent_none keeps ?_).symm
          show (!denied path || partitionPathOk path) = false
          rw [hdenied, hno]
          rfl
        · rw [hno]
          rfl
    · rw [hfile, if_neg hdenied] at hthrough
      obtain ⟨hd', hf'⟩ := opened_file (p := p) (X := X) hthrough (backing_holds hc)
      refine ⟨hd', hf'.trans (Found.filter_ofContent keeps ?_).symm⟩
      show (!denied path || partitionPathOk path) = true
      rw [Bool.eq_false_iff.mpr hdenied]
      rfl

end probed

/-! ## The scan -/

/-- The candidates of a scan on Windows which are whole disks. -/
def wholeDisks : List String := (List.range 32).map fun d => harddisk d 0

theorem mem_candidates_windows {p : Platform} (hp : p.windows = true) {partitions : Option Text} {path : String}
    (h : path ∈ candidates p partitions) : ∃ d < 32, ∃ k < 65, path = harddisk d k := by
  unfold candidates at h
  rw [if_pos hp, List.mem_flatMap] at h
  obtain ⟨d, hd, hpath⟩ := h
  obtain ⟨k, hk, rfl⟩ := List.mem_map.mp hpath
  exact ⟨d, List.mem_range.mp hd, k, List.mem_range.mp hk, rfl⟩

theorem mem_wholeDisks {d k : Nat} (hd : d < 32) : harddisk d k ∈ wholeDisks ↔ k = 0 := by
  unfold wholeDisks
  rw [List.mem_map]
  constructor
  · rintro ⟨d', -, he⟩
    have hspells : Spells (harddisk d k) d' 0 := he ▸ spells_harddisk d' 0
    exact ((spells_harddisk d k).unique hspells).2
  · rintro rfl
    exact ⟨d, List.mem_range.mpr hd, rfl⟩

/-- A partition is what the service lets through; a whole disk it does not. -/
theorem partitionPathOk_candidate {p : Platform} (hp : p.windows = true) {partitions : Option Text} {path : String}
    (h : path ∈ candidates p partitions) : partitionPathOk path = decide (path ∉ wholeDisks) := by
  obtain ⟨d, hd, k, hk, rfl⟩ := mem_candidates_windows hp h
  rw [partitionPathOk_harddisk (by omega) (by omega), decide_eq_decide, mem_wholeDisks hd]
  exact Nat.pos_iff_ne_zero

/-- A process opens what is denied to it as such a process does, and reading leaves it one. -/
theorem open_coincide (m : Machine F ω) (denied : String → Bool) (path : String) :
    Coincide (fun s : Seat ω => s.denied = denied) (Device.open (m.openAs denied) path) (Device.open m.open path)
      (fun d s => s.denied = denied ∧ ∃ f, d.backing = m.backing path f) (fun _ s => s.denied = denied) := by
  refine ⟨fun s hs => ?_, fun s hs => ?_⟩
  · have hkeep : (m.openAs denied path s).2.denied = denied ∧
        ∀ B, (m.openAs denied path s).1 = .ok B → ∃ f, B = m.backing path f := by
      unfold openAs Machine.open
      dsimp only
      split_ifs
      · exact ⟨rfl, fun B hB => by cases hB⟩
      · exact ⟨rfl, fun B hB => by cases hB⟩
      · rcases m.answer (.open path) s.world with ⟨r | f, w⟩
        · exact ⟨rfl, fun B hB => by cases hB⟩
        · exact ⟨rfl, fun B hB => ⟨f, (Except.ok.inj hB).symm⟩⟩
      · rcases m.openFile path s.world with ⟨e | f, w⟩
        · exact ⟨rfl, fun B hB => by cases hB⟩
        · exact ⟨rfl, fun B hB => ⟨f, (Except.ok.inj hB).symm⟩⟩
    unfold Device.open
    rcases hr : m.openAs denied path s with ⟨e | B, s'⟩
    · rw [hr] at hkeep
      exact hkeep.1
    · rw [hr] at hkeep
      exact ⟨hkeep.1, hkeep.2 B rfl⟩
  · unfold Device.open openAs
    rw [← hs]

theorem scanDevice_coincide (m : Machine F ω) (X : Crates) (denied : String → Bool) (path : String)
    (out : ScanResult) : Coincide (fun s : Seat ω => s.denied = denied) (scanDevice X (m.openAs denied) path out)
      (scanDevice X m.open path out) (fun _ s => s.denied = denied) (fun _ s => s.denied = denied) := by
  refine (open_coincide m denied path).attempt.bind fun r => ?_
  cases r with
  | error e => exact .refl (Keeps.ite (fun _ => .pure _) fun _ => .pure _)
  | ok dev =>
    refine .assume (fun s hs => hs.2) fun ⟨f, hf⟩ => .refl ?_
    have hread : Keeps (fun s : Seat ω => s.denied = denied) (dev.read SUPER_OFFSET SUPER_SIZE) := by
      refine Device.read_keeps (fun off len s hs => ?_) _ _
      rw [hf]
      exact hs
    refine Ensures.mono (Keeps.bind hread.attempt fun r => ?_) (fun s hs => hs.1) (fun _ _ h => h) fun _ _ h => h
    cases r with
    | error e => exact .pure _
    | ok raw =>
      dsimp only
      cases Superblock.parse X raw with
      | error e => exact .pure _
      | ok sb => exact .pure _

theorem scanFrom_coincide (m : Machine F ω) (X : Crates) (denied : String → Bool) : ∀ (paths : List String)
    (out : ScanResult), Coincide (fun s : Seat ω => s.denied = denied) (scanFrom X (m.openAs denied) paths out)
      (scanFrom X m.open paths out) (fun _ s => s.denied = denied) (fun _ s => s.denied = denied)
  | [], out => .refl (Keeps.pure out)
  | path :: paths, out => (scanDevice_coincide m X denied path out).bind fun out =>
    scanFrom_coincide m X denied paths out

/-- On Windows, where the service runs, a scan lists what it would list elevated, but for the
whole disks denied to its user; and it has nothing to report as denied. -/
theorem scan_helper {m : Machine F ω} {X : Crates} {p : Platform} (hhelper : m.helper = true)
    (hp : p.windows = true) (partitions : Option Text) (h : ∀ path ∈ candidates p partitions, m.Probes X path)
    (denied : String → Bool) (w w' : ω) :
    ∃ full s s', scan X m.open (candidates p partitions) ⟨fun _ => false, w⟩ = .ok full s ∧
      full.accessDenied = [] ∧
      scan X m.open (candidates p partitions) ⟨denied, w'⟩ =
        .ok ⟨full.filesystems.filter fun f => !denied f.device || decide (f.device ∉ wholeDisks), []⟩ s' := by
  have hshort : ∀ path ∈ candidates p partitions, (utf8 path).length ≤ MAX_PATH := by
    intro path hpath
    obtain ⟨d, hd, k, hk, rfl⟩ := mem_candidates_windows hp hpath
    exact harddisk_short (by omega) (by omega)
  let seat : Seat ω := ⟨fun _ => false, w⟩
  let seat' : Seat ω := ⟨denied, w'⟩
  obtain ⟨s, hfull⟩ := scan_steady (X := X) p (fun path hpath =>
    (h path hpath).steadyAt hhelper (hshort path hpath) fun _ => false) seat (.empty seat)
  obtain ⟨s', hthrough⟩ := scan_steady (X := X) p (fun path hpath =>
    (h path hpath).steadyAt hhelper (hshort path hpath) denied) seat' (.empty seat')
  have hopened := fun path hpath =>
    (h path hpath).opened hhelper (hshort path hpath) denied p (.empty seat) (.empty seat')
  refine ⟨_, s, s', ((scanFrom_coincide m X _ _ _).2 seat rfl).trans hfull,
    List.filter_eq_nil_iff.mpr fun path hpath => ?_, ((scanFrom_coincide m X _ _ _).2 seat' rfl).trans ?_⟩
  · rw [(hopened path hpath).1]
    decide
  · refine hthrough.trans ?_
    rw [List.filter_filterMap, List.filter_eq_nil_iff.mpr fun path hpath => ?_,
      List.filterMap_congr fun path hpath => ?_]
    · rw [(hopened path hpath).2.2]
      cases hf : Found.ofOpened path (Fs.opened p X (m.openAs fun _ => false) path (.empty seat)) with
      | none => rfl
      | some f =>
        rw [Option.filter_some, Option.filter_some, Found.device_ofOpened hf,
          partitionPathOk_candidate hp hpath]
    · rw [(hopened path hpath).2.1]
      decide

theorem readSuper_once {b : Bytes} (h : b.length ≤ SUPER_SIZE) : readSuper [.ok b] [] = .ok b := by
  unfold readSuper
  rw [if_pos (by decide)]
  cases b with
  | nil => rfl
  | cons x xs =>
    show Except.ok ([] ++ (x :: xs).take SUPER_SIZE) = _
    rw [List.nil_append, List.take_of_length_le h]

theorem files_probes (c : Content) (paths : List String) (path : String) : (files c paths).Probes Image.crates path := by
  by_cases h : path ∈ paths
  · have hopening : opening c paths path = ⟨.ok (), [.ok (c.read SUPER_OFFSET (min SUPER_SIZE (c.size - SUPER_OFFSET)))]⟩ :=
      if_pos h
    refine .present () c _ (fun w => ?_) c.holds_backing
      (readSuper_once (by rw [Content.length_read]; exact Nat.min_le_left _ _)) fun w => ?_
    · show (opening c paths path).file = _
      rw [hopening]
    · show openPartition Image.crates path (opening c paths path) = _
      rw [hopening]
  · have hopening : opening c paths path =
        ⟨.error ⟨.notFound, "The system cannot find the file specified. (os error 2)"⟩, []⟩ := if_neg h
    refine .absent ⟨.notFound, "The system cannot find the file specified. (os error 2)"⟩ rfl (fun w => ?_) fun w => ?_
    · show (opening c paths path).file = _
      rw [hopening]
    · show openPartition Image.crates path (opening c paths path) = _
      rw [hopening]

/-- The disk is listed to whom nothing is denied, and only its partition to whom both are. -/
theorem scan_helper_onePartition :
    ∃ full s s', scan Image.crates (files Image.fileDisk [harddisk 0 0, harddisk 0 1]).open (candidates ⟨true⟩ none) ⟨fun _ => false, ()⟩ =
        .ok full s ∧
      full.accessDenied = [] ∧
      scan Image.crates (files Image.fileDisk [harddisk 0 0, harddisk 0 1]).open (candidates ⟨true⟩ none) ⟨fun _ => true, ()⟩ =
        .ok ⟨full.filesystems.filter fun f => !true || decide (f.device ∉ wholeDisks), []⟩ s' :=
  scan_helper (m := files Image.fileDisk [harddisk 0 0, harddisk 0 1]) rfl rfl none (fun path _ => files_probes Image.fileDisk _ path)
    (fun _ => true) () ()

end Machine

end Helper

end BtrfsPeek

import BtrfsPeek.Helper.Callbacks
import BtrfsPeek.Helper.Client
import BtrfsPeek.Steady

/-!
# Devices read through the helper

`Remote` of `windows.rs`, and the devices of `dev.rs` that are read through one. The reads of a
device go over a connection one after another, in any interleaving with the server
(`Remote.Reads`); what they come to is what reading the file itself comes to, or an error
of its text (`Remote.reads_agree`). So a command that reads through the helper does what it
does where the devices may be opened (`Machine.main_transparent`).
-/

namespace BtrfsPeek

namespace Backing

variable {β : Type} {B : Backing β} {start total fuel : Nat} {done b : Bytes} {s s' : β}

theorem fill_full (h : total ≤ done.length) : B.fill start total fuel done s = .ok done s := by
  cases fuel with
  | zero => rfl
  | succ fuel =>
    rw [fill]
    simp only [if_neg (Nat.not_lt.mpr h)]

theorem fill_ends (hlt : done.length < total) (h : B.readAt ((start + done.length) % 2 ^ 64)
    (min (total - done.length) MAX_IO) s = (.ok [], s')) :
    B.fill start total (fuel + 1) done s = .ok done s' := by
  rw [fill]
  simp only [if_pos hlt, h]

theorem fill_more (hlt : done.length < total) (h : B.readAt ((start + done.length) % 2 ^ 64)
    (min (total - done.length) MAX_IO) s = (.ok b, s')) (hb : b ≠ []) :
    B.fill start total (fuel + 1) done s = B.fill start total fuel (done ++ b) s' := by
  obtain ⟨x, xs, rfl⟩ := List.exists_cons_of_ne_nil hb
  rw [fill]
  simp only [if_pos hlt, h]

theorem fill_stops {e : OsError} (hlt : done.length < total) (h : B.readAt ((start + done.length) % 2 ^ 64)
    (min (total - done.length) MAX_IO) s = (.error e, s')) (he : e.kind ≠ .interrupted) :
    B.fill start total (fuel + 1) done s = .error (e.at .device) s' := by
  rw [fill]
  simp only [if_pos hlt, h, if_neg he]

end Backing

namespace Helper

open Process

variable {F ω : Type} {answer : (q : Ask F) → ω → Answer q × ω}

/-- No read of `f` is interrupted. -/
def Calm (answer : (q : Ask F) → ω → Answer q × ω) (f : F) : Prop :=
  ∀ off len w (e : IoError) w', answer (.readAt f off len) w = (Except.error e, w') → e.kind ≠ .interrupted

/-! ## What a device is read through -/

namespace Local

/-- `read_at` of a file that is open. -/
def readAt (answer : (q : Ask F) → ω → Answer q × ω) (f : F) (off len : Nat) (w : ω) :
    Except OsError Bytes × ω :=
  match answer (.readAt f off len) w with
  | (.ok data, w) => (.ok data.1, w)
  | (.error e, w) => (.error ⟨e.kind, e.text⟩, w)

theorem readAt_cases (answer : (q : Ask F) → ω → Answer q × ω) (f : F) (off len : Nat) (w : ω) :
    (∃ data w', answer (.readAt f off len) w = (Except.ok data, w') ∧
      readAt answer f off len w = (.ok data.1, w')) ∨
    ∃ e w', answer (.readAt f off len) w = (Except.error e, w') ∧
      readAt answer f off len w = (.error ⟨e.kind, e.text⟩, w') := by
  unfold readAt
  rcases h : answer (.readAt f off len) w with ⟨e | data, w'⟩
  · exact .inr ⟨e, w', rfl, rfl⟩
  · exact .inl ⟨data, w', rfl, rfl⟩

/-- `Backing::File`. -/
def backing {f : F} (calm : Calm answer f) : Backing ω where
  readAt := readAt answer f
  fits {off len w w' b} h := by
    rcases readAt_cases answer f off len w with ⟨data, u, -, hr⟩ | ⟨e, u, -, hr⟩
    · rw [hr] at h
      cases h
      exact data.2
    · rw [hr] at h
      cases h
  patience _ := 0
  steady _ _ _ := Nat.le_refl 0
  interrupted {off len w w' e} h hkind := by
    rcases readAt_cases answer f off len w with ⟨data, u, -, hr⟩ | ⟨e', u, ha, hr⟩
    · rw [hr] at h
      cases h
    · rw [hr] at h
      cases h
      exact absurd hkind (calm off len w e' _ ha)

end Local

namespace Remote

/-- `Remote::read_at`, of a session that has `f` open. -/
def readAt (answer : (q : Ask F) → ω → Answer q × ω) (f : F) (off len : Nat) (w : ω) :
    Except OsError Bytes × ω :=
  match answer (.readAt f off (min len MAX_READ)) w with
  | (.ok data, w) => (.ok data.1, w)
  | (.error e, w) => (.error ⟨.other, e.text⟩, w)

theorem readAt_cases (answer : (q : Ask F) → ω → Answer q × ω) (f : F) (off len : Nat) (w : ω) :
    (∃ data w', answer (.readAt f off (min len MAX_READ)) w = (Except.ok data, w') ∧
      readAt answer f off len w = (.ok data.1, w')) ∨
    ∃ e w', answer (.readAt f off (min len MAX_READ)) w = (Except.error e, w') ∧
      readAt answer f off len w = (.error ⟨.other, e.text⟩, w') := by
  unfold readAt
  rcases h : answer (.readAt f off (min len MAX_READ)) w with ⟨e | data, w'⟩
  · exact .inr ⟨e, w', rfl, rfl⟩
  · exact .inl ⟨data, w', rfl, rfl⟩

/-- `Backing::Helper`. -/
def backing (answer : (q : Ask F) → ω → Answer q × ω) (f : F) : Backing ω where
  readAt := readAt answer f
  fits {off len w w' b} h := by
    rcases readAt_cases answer f off len w with ⟨data, u, -, hr⟩ | ⟨e, u, -, hr⟩
    · rw [hr] at h
      cases h
      exact data.2.trans (Nat.min_le_left _ _)
    · rw [hr] at h
      cases h
  patience _ := 0
  steady _ _ _ := Nat.le_refl 0
  interrupted {off len w w' e} h hkind := by
    rcases readAt_cases answer f off len w with ⟨data, u, -, hr⟩ | ⟨e', u, -, hr⟩
    · rw [hr] at h
      cases h
    · rw [hr] at h
      cases h
      cases hkind

end Remote

/-! ## Reading over a connection -/

/-- A call comes to `r`, in some interleaving with the server. -/
def Line.Calls (answer : (q : Ask F) → ω → Answer q × ω) (l : Line F ω) (op : Op)
    (r : Except IoError Value) (l' : Line F ω) : Prop :=
  ∃ n, Net.Moves serve answer (l.during op.call) n ∧ n.client = finish r ∧ l' = lineOf n

namespace Remote

/-- The loop of `Device::read` over the connection: what it fills the buffer with from `done`
on. -/
inductive Fills (answer : (q : Ask F) → ω → Answer q × ω) (start total : Nat) :
    Line F ω → Bytes → Except IoError Bytes → Line F ω → Prop
  | full {l done} : total ≤ done.length → Fills answer start total l done (.ok done) l
  | ends {l l' done} : done.length < total →
    l.Calls answer (.readAt (min (total - done.length) MAX_IO) (.ofNat (start + done.length)))
      (.ok (.data [])) l' → Fills answer start total l done (.ok done) l'
  | more {l l' l'' done b r} : done.length < total →
    l.Calls answer (.readAt (min (total - done.length) MAX_IO) (.ofNat (start + done.length)))
      (.ok (.data b)) l' → b ≠ [] → Fills answer start total l' (done ++ b) r l'' →
    Fills answer start total l done r l''
  | again {l l' l'' done e r} : done.length < total →
    l.Calls answer (.readAt (min (total - done.length) MAX_IO) (.ofNat (start + done.length)))
      (.error e) l' → e.kind = .interrupted → Fills answer start total l' done r l'' →
    Fills answer start total l done r l''
  | fails {l l' done e} : done.length < total →
    l.Calls answer (.readAt (min (total - done.length) MAX_IO) (.ofNat (start + done.length)))
      (.error e) l' → e.kind ≠ .interrupted → Fills answer start total l done (.error e) l'

/-- `Device::read` over the connection. -/
def Reads (answer : (q : Ask F) → ω → Answer q × ω) (d : Device ω) (l : Line F ω) (off len : Nat)
    (r : Except IoError Bytes) (l' : Line F ω) : Prop :=
  ∃ filled, Fills answer (Device.bufStart off) (Device.bufLen off len) l [] filled l' ∧
    r = filled >>= d.trim off len

variable {f : F} {w : ω} {l l' : Line F ω} {start total : Nat} {done : Bytes}

/-- A call of a session that has `f` open comes to what reading through it is. -/
theorem calls_readAt (fits : ReadsFit answer) (hg : Good ⟨some f, w, false⟩ l) {size off : Nat}
    {r : Except IoError Value} (h : l.Calls answer (.readAt size (.ofNat off)) r l') :
    ∃ w', Good ⟨some f, w', false⟩ l' ∧ ((∃ b, r = .ok (.data b) ∧
        readAt answer f (off % 2 ^ 64) size w = (.ok b, w')) ∨
      ∃ text, r = .error (remoteError text) ∧
        readAt answer f (off % 2 ^ 64) size w = (.error ⟨.other, text⟩, w')) := by
  obtain ⟨n, hm, hr, rfl⟩ := h
  obtain ⟨hc, hgood⟩ := (call_agrees (.readAt size (.ofNat off)) fits hg rfl).1 n hm (hr ▸ over_finish r)
  obtain rfl := finish_injective (hr.symm.trans hc)
  have hdirect : direct answer (.readAt size (.ofNat off)) ⟨some f, w, false⟩ =
      didRead ⟨some f, w, false⟩ (answer (.readAt f (off % 2 ^ 64) (min size MAX_READ)) w) := by
    have hoff : (UInt64.ofNat off).toNat = off % 2 ^ 64 := UInt64.toNat_ofNat'
    rw [← hoff]
    rfl
  rw [hdirect] at hgood ⊢
  rcases readAt_cases answer f (off % 2 ^ 64) size w with ⟨data, w', ha, hr'⟩ | ⟨e, w', ha, hr'⟩
  · rw [ha] at hgood ⊢
    exact ⟨w', hgood, .inl ⟨data.1, rfl, hr'⟩⟩
  · rw [ha] at hgood ⊢
    exact ⟨w', hgood, .inr ⟨e.text, rfl, hr'⟩⟩

/-- Filling a buffer over the connection is filling it through what stands for it. -/
theorem Fills.agrees (fits : ReadsFit answer) {r : Except IoError Bytes}
    (h : Fills answer start total l done r l') : ∀ {w : ω} {fuel : Nat}, Good ⟨some f, w, false⟩ l →
    total ≤ fuel + done.length →
    ∃ w', (backing answer f).fill start total fuel done w = Effect.done r w' ∧ Good ⟨some f, w', false⟩ l' := by
  induction h with
  | @full l done hle =>
    intro w fuel hg hfuel
    exact ⟨w, Backing.fill_full hle, hg⟩
  | @ends l l' done hlt hcall =>
    intro w fuel hg hfuel
    obtain ⟨fuel, rfl⟩ : ∃ k, fuel = k + 1 := ⟨fuel - 1, by omega⟩
    obtain ⟨w', hg', ⟨b, hb, hread⟩ | ⟨text, hb, -⟩⟩ := calls_readAt fits hg hcall
    · cases hb
      exact ⟨w', Backing.fill_ends hlt hread, hg'⟩
    · cases hb
  | @more l l' l'' done b r hlt hcall hb _ ih =>
    intro w fuel hg hfuel
    obtain ⟨fuel, rfl⟩ : ∃ k, fuel = k + 1 := ⟨fuel - 1, by omega⟩
    obtain ⟨w', hg', ⟨b', hb', hread⟩ | ⟨text, hb', -⟩⟩ := calls_readAt fits hg hcall
    · cases hb'
      have hpos := List.length_pos_iff.mpr hb
      have hfuel' : total ≤ fuel + (done ++ b).length := by
        rw [List.length_append]
        omega
      obtain ⟨w'', hfill, hg''⟩ := ih hg' hfuel'
      exact ⟨w'', (Backing.fill_more hlt hread hb).trans hfill, hg''⟩
    · cases hb'
  | @again l l' l'' done e r hlt hcall hkind _ ih =>
    -- What the server was interrupted in is no interruption here.
    intro w fuel hg hfuel
    obtain ⟨w', hg', ⟨b, hb, -⟩ | ⟨text, hb, -⟩⟩ := calls_readAt fits hg hcall
    · cases hb
    · cases hb
      cases hkind
  | @fails l l' done e hlt hcall hkind =>
    intro w fuel hg hfuel
    obtain ⟨fuel, rfl⟩ : ∃ k, fuel = k + 1 := ⟨fuel - 1, by omega⟩
    obtain ⟨w', hg', ⟨b, hb, -⟩ | ⟨text, hb, hread⟩⟩ := calls_readAt fits hg hcall
    · cases hb
    · cases hb
      have he : (⟨.other, text⟩ : OsError).kind ≠ .interrupted := by simp
      exact ⟨w', Backing.fill_stops hlt hread he, hg'⟩

/-- The server answers, so the loop goes on until the buffer is filled or nothing more comes. -/
theorem exists_fills (fits : ReadsFit answer) (hg : Good ⟨some f, w, false⟩ l) (start total : Nat) :
    ∀ done, ∃ r l', Fills answer start total l done r l' := by
  intro done
  induction hk : total - done.length using Nat.strongRecOn generalizing done l w with
  | ind k ih =>
    by_cases hle : total ≤ done.length
    · exact ⟨_, _, .full hle⟩
    · have hlt := Nat.lt_of_not_le hle
      let op : Op := .readAt (min (total - done.length) MAX_IO) (.ofNat (start + done.length))
      obtain ⟨n, hm, ho⟩ := (call_agrees op fits hg rfl).2.exists_moves
      obtain ⟨r, hr⟩ := exists_finish ho
      have hcall : l.Calls answer op r (lineOf n) := ⟨n, hm, hr, rfl⟩
      obtain ⟨w', hg', ⟨b, rfl, -⟩ | ⟨text, rfl, -⟩⟩ := calls_readAt fits hg hcall
      · by_cases hb : b = []
        · subst hb
          exact ⟨_, _, .ends hlt hcall⟩
        · have hpos := List.length_pos_iff.mpr hb
          obtain ⟨r', l', hfills⟩ := ih (total - (done ++ b).length)
            (by rw [List.length_append]; omega) hg' (done ++ b) rfl
          exact ⟨r', l', .more hlt hcall hb hfills⟩
      · exact ⟨_, _, .fails hlt hcall (by simp [remoteError])⟩

end Remote

/-! ## Reading the file itself -/

/-- The same, or errors of the same text. -/
def SameText {α : Type} : Except IoError α → Except IoError α → Prop
  | .ok a, .ok b => a = b
  | .error e, .error e' => e.text = e'.text
  | _, _ => False

theorem SameText.refl {α : Type} (r : Except IoError α) : SameText r r := by
  cases r <;> rfl

theorem SameText.toOption {α : Type} {r r' : Except IoError α} (h : SameText r r') :
    r.toOption = r'.toOption := by
  cases r <;> cases r' <;> first | exact h.elim | rfl | exact congrArg some h

section files

variable {f : F} (calm : Calm answer f)

include calm in
/-- No request is for more than the helper sends. -/
theorem readAt_same (off : Nat) {len : Nat} (hlen : len ≤ MAX_READ) (w : ω) :
    (∃ b w', Remote.readAt answer f off len w = (.ok b, w') ∧ Local.readAt answer f off len w = (.ok b, w')) ∨
    ∃ e w', Remote.readAt answer f off len w = (.error ⟨.other, e.text⟩, w') ∧
      Local.readAt answer f off len w = (.error e, w') ∧ e.kind ≠ .interrupted := by
  have hlocal : Local.readAt answer f off len w = Local.readAt answer f off (min len MAX_READ) w := by
    rw [Nat.min_eq_left hlen]
  rcases h : answer (.readAt f off (min len MAX_READ)) w with ⟨e | data, w'⟩
  · refine .inr ⟨⟨e.kind, e.text⟩, w', ?_, ?_, calm _ _ _ _ _ h⟩
    · rw [Remote.readAt, h]
    · rw [hlocal, Local.readAt, h]
  · refine .inl ⟨data.1, w', ?_, ?_⟩
    · rw [Remote.readAt, h]
    · rw [hlocal, Local.readAt, h]

/-- A buffer is filled alike. -/
theorem fill_same (start total : Nat) : ∀ (fuel : Nat) (done : Bytes) (w : ω),
    SameText (Effect.Result.value ((Remote.backing answer f).fill start total fuel done w))
        (Effect.Result.value ((Local.backing calm).fill start total fuel done w)) ∧
      Effect.Result.state ((Remote.backing answer f).fill start total fuel done w) =
        Effect.Result.state ((Local.backing calm).fill start total fuel done w)
  | 0, done, w => ⟨rfl, rfl⟩
  | fuel + 1, done, w => by
    by_cases hle : total ≤ done.length
    · rw [Backing.fill_full hle, Backing.fill_full hle]
      exact ⟨rfl, rfl⟩
    · have hlt := Nat.lt_of_not_le hle
      have hlen : min (total - done.length) MAX_IO ≤ MAX_READ := Nat.min_le_right _ _
      rcases readAt_same calm ((start + done.length) % 2 ^ 64) hlen w with
        ⟨b, w', hr, hl⟩ | ⟨e, w', hr, hl, hkind⟩
      · by_cases hb : b = []
        · subst hb
          rw [Backing.fill_ends hlt hr, Backing.fill_ends hlt hl]
          exact ⟨rfl, rfl⟩
        · rw [Backing.fill_more hlt hr hb, Backing.fill_more hlt hl hb]
          exact fill_same start total fuel _ w'
      · rw [Backing.fill_stops hlt hr (by simp), Backing.fill_stops hlt hl hkind]
        exact ⟨rfl, rfl⟩

/-- A read of a device. -/
theorem read_same (path : String) (off len : Nat) (w : ω) :
    SameText (Effect.Result.value ((⟨path, Remote.backing answer f⟩ : Device ω).read off len w))
        (Effect.Result.value ((⟨path, Local.backing calm⟩ : Device ω).read off len w)) ∧
      Effect.Result.state ((⟨path, Remote.backing answer f⟩ : Device ω).read off len w) =
        Effect.Result.state ((⟨path, Local.backing calm⟩ : Device ω).read off len w) := by
  obtain ⟨hv, hs⟩ := fill_same calm (Device.bufStart off) (Device.bufLen off len)
    (Device.bufLen off len + (Remote.backing answer f).patience w) [] w
  have hpatience : (Remote.backing answer f).patience w = (Local.backing calm).patience w := rfl
  cases hr : (Remote.backing answer f).fill (Device.bufStart off) (Device.bufLen off len)
      (Device.bufLen off len + (Remote.backing answer f).patience w) [] w with
  | ok b u =>
    have hremote : (⟨path, Remote.backing answer f⟩ : Device ω).read off len w = _ := Effect.bind_of_ok hr
    rw [hr, hpatience] at hv hs
    cases hl : (Local.backing calm).fill (Device.bufStart off) (Device.bufLen off len)
        (Device.bufLen off len + (Local.backing calm).patience w) [] w with
    | ok b' u' =>
      have hlocal : (⟨path, Local.backing calm⟩ : Device ω).read off len w = _ := Effect.bind_of_ok hl
      rw [hl] at hv hs
      obtain rfl : b = b' := hv
      obtain rfl : u = u' := hs
      rw [hremote, hlocal, Effect.lift_run, Effect.lift_run]
      exact ⟨.refl _, by rw [Effect.state_done, Effect.state_done]⟩
    | error e u' =>
      rw [hl] at hv
      exact hv.elim
  | error e u =>
    have hremote : (⟨path, Remote.backing answer f⟩ : Device ω).read off len w = _ := Effect.bind_of_error hr
    rw [hr, hpatience] at hv hs
    cases hl : (Local.backing calm).fill (Device.bufStart off) (Device.bufLen off len)
        (Device.bufLen off len + (Local.backing calm).patience w) [] w with
    | ok b' u' =>
      rw [hl] at hv
      exact hv.elim
    | error e' u' =>
      have hlocal : (⟨path, Local.backing calm⟩ : Device ω).read off len w = _ := Effect.bind_of_error hl
      rw [hl] at hv hs
      rw [hremote, hlocal]
      exact ⟨hv, hs⟩

end files

/-! ## Sessions -/

namespace Remote

/-- Reads of a device, one after another. -/
inductive ReadsAll (answer : (q : Ask F) → ω → Answer q × ω) (d : Device ω) :
    Line F ω → List (Nat × Nat) → List (Except IoError Bytes) → Line F ω → Prop
  | nil {l} : ReadsAll answer d l [] [] l
  | cons {l l' l'' x xs r rs} : Reads answer d l x.1 x.2 r l' → ReadsAll answer d l' xs rs l'' →
    ReadsAll answer d l (x :: xs) (r :: rs) l''

variable {f : F} {w : ω} {l l' : Line F ω} {path : String} {off len : Nat}

theorem Reads.agrees (fits : ReadsFit answer) {r : Except IoError Bytes} (hg : Good ⟨some f, w, false⟩ l)
    (h : Reads answer ⟨path, backing answer f⟩ l off len r l') :
    ∃ w', (⟨path, backing answer f⟩ : Device ω).read off len w = Effect.done r w' ∧
      Good ⟨some f, w', false⟩ l' := by
  obtain ⟨filled, hfills, rfl⟩ := h
  have hfuel : Device.bufLen off len ≤
      (Device.bufLen off len + (backing answer f).patience w) + ([] : Bytes).length :=
    (Nat.le_add_right _ _).trans (Nat.le_add_right _ _)
  obtain ⟨w', hrun, hgood⟩ := hfills.agrees fits hg hfuel
  refine ⟨w', ?_, hgood⟩
  cases filled with
  | ok b =>
    rw [Effect.done_ok] at hrun
    have hread : (⟨path, backing answer f⟩ : Device ω).read off len w = _ := Effect.bind_of_ok hrun
    rw [hread, Effect.lift_run]
    rfl
  | error e =>
    rw [Effect.done_error] at hrun
    have hread : (⟨path, backing answer f⟩ : Device ω).read off len w = _ := Effect.bind_of_error hrun
    rw [hread]
    rfl

theorem exists_reads (fits : ReadsFit answer) (hg : Good ⟨some f, w, false⟩ l) (path : String) (off len : Nat) :
    ∃ r l', Reads answer ⟨path, backing answer f⟩ l off len r l' := by
  obtain ⟨filled, l', h⟩ := exists_fills fits hg (Device.bufStart off) (Device.bufLen off len) []
  exact ⟨_, l', filled, h, rfl⟩

theorem ReadsAll.agrees (fits : ReadsFit answer) (calm : Calm answer f) {xs : List (Nat × Nat)}
    {rs : List (Except IoError Bytes)} (h : ReadsAll answer ⟨path, backing answer f⟩ l xs rs l') :
    ∀ {w : ω}, Good ⟨some f, w, false⟩ l → ∃ locals w',
      Effect.mapEach (fun x => Effect.attempt ((⟨path, Local.backing calm⟩ : Device ω).read x.1 x.2)) xs w =
          .ok locals w' ∧
        List.Forall₂ SameText rs locals ∧ Good ⟨some f, w', false⟩ l' := by
  induction h with
  | nil => exact fun {w} hg => ⟨[], w, rfl, .nil, hg⟩
  | @cons l l' l'' x xs r rs hread _ ih =>
    intro w hg
    obtain ⟨w', hrun, hg'⟩ := hread.agrees fits hg
    obtain ⟨hv, hs⟩ := read_same calm path x.1 x.2 w
    rw [hrun, Effect.value_done] at hv
    rw [hrun, Effect.state_done] at hs
    subst hs
    obtain ⟨locals, w'', hall, hsame, hg''⟩ := ih hg'
    refine ⟨_ :: locals, w'', ?_, .cons hv hsame, hg''⟩
    rw [Effect.mapEach, Effect.bind_of_ok (Effect.attempt_run _ w), Effect.bind_of_ok hall]
    rfl

theorem exists_readsAll (fits : ReadsFit answer) (path : String) : ∀ (xs : List (Nat × Nat)) {w : ω}
    {l : Line F ω}, Good ⟨some f, w, false⟩ l → ∃ rs l', ReadsAll answer ⟨path, backing answer f⟩ l xs rs l'
  | [], _, l, _ => ⟨[], l, .nil⟩
  | x :: xs, w, l, hg => by
    obtain ⟨r, l₁, hread⟩ := exists_reads fits hg path x.1 x.2
    obtain ⟨w', -, hg'⟩ := hread.agrees fits hg
    obtain ⟨rs, l', hall⟩ := exists_readsAll fits path xs hg'
    exact ⟨r :: rs, l', .cons hread hall⟩

theorem direct_open (hshort : (utf8 path).length ≤ MAX_PATH) {w₁ : ω}
    (hopen : answer (.open path) w = (Except.ok f, w₁)) :
    direct answer (.open path) ⟨none, w, false⟩ = (.ok .opened, ⟨some f, w₁, false⟩) := by
  have hlong : ¬ (utf8 path).length > MAX_PATH := Nat.not_lt.mpr hshort
  unfold direct
  dsimp only
  rw [if_neg hlong, hopen]
  rfl

theorem alive_open (path : String) (w : ω) : Alive answer ⟨none, w, false⟩ [.open path] := by
  intro pre op post hops
  cases pre with
  | nil => rfl
  | cons o pre =>
    have hlen := congrArg List.length hops
    simp at hlen

theorem fitting_open (fits : ReadsFit answer) (path : String) : ∀ op ∈ [Op.open path], op.Fitting answer := by
  intro op hop
  rw [List.mem_singleton.mp hop]
  exact fits

/-- A connection on which `path` is opened. -/
theorem good_open (fits : ReadsFit answer) (hshort : (utf8 path).length ≤ MAX_PATH) {w₁ : ω}
    (hopen : answer (.open path) w = (Except.ok f, w₁)) {said : List (Except IoError Value)} {l : Line F ω}
    (h : Makes answer (fresh w) (startCall :: [Op.open path].map Op.call) said l) :
    said = [.ok (.version VERSION), .ok .opened] ∧ Good ⟨some f, w₁, false⟩ l := by
  obtain ⟨hsaid, hg⟩ := h.agrees (fitting_open fits path) (alive_open path w)
  have hdirects : directs answer [.open path] ⟨none, w, false⟩ = ([.ok .opened], ⟨some f, w₁, false⟩) := by
    simp only [directs, direct_open hshort hopen]
  rw [hdirects] at hsaid hg
  exact ⟨hsaid, hg⟩

/-- A device that the helper opens is read as the file is where it is: in every interleaving of
a session with the server, each read comes to the same bytes, or to an error of the same
text, and leaves nothing on the connection. -/
theorem reads_agree (fits : ReadsFit answer) (calm : Calm answer f)
    (hshort : (utf8 path).length ≤ MAX_PATH) {w₁ : ω} (hopen : answer (.open path) w = (Except.ok f, w₁))
    (xs : List (Nat × Nat)) :
    (∃ said l rs l', Makes answer (fresh w) (startCall :: [Op.open path].map Op.call) said l ∧
      ReadsAll answer ⟨path, backing answer f⟩ l xs rs l') ∧
    ∀ said l rs l', Makes answer (fresh w) (startCall :: [Op.open path].map Op.call) said l →
      ReadsAll answer ⟨path, backing answer f⟩ l xs rs l' →
      said = [.ok (.version VERSION), .ok .opened] ∧ ∃ locals w',
        Effect.mapEach (fun x => Effect.attempt ((⟨path, Local.backing calm⟩ : Device ω).read x.1 x.2)) xs w₁ =
            .ok locals w' ∧
          List.Forall₂ SameText rs locals ∧ Good ⟨some f, w', false⟩ l' := by
  constructor
  · obtain ⟨said, l, h⟩ := exists_makes (fitting_open fits path) w (alive_open path w)
    obtain ⟨rs, l', hall⟩ := exists_readsAll fits path xs (good_open fits hshort hopen h).2
    exact ⟨said, l, rs, l', h, hall⟩
  · intro said l rs l' h hall
    obtain ⟨hsaid, hg⟩ := good_open fits hshort hopen h
    exact ⟨hsaid, hall.agrees fits calm hg⟩

theorem oneFile_calm (f : Bytes) : Calm oneFile f := fun _ _ _ _ _ h => by cases h

/-- Two bytes of the one file, and two beyond its end. -/
theorem reads_agree_oneFile : ∃ said l rs l',
    Makes oneFile (fresh ()) (startCall :: [Op.open "disk"].map Op.call) said l ∧
      ReadsAll oneFile ⟨"disk", backing oneFile [10, 11, 12, 13]⟩ l [(1, 2), (3, 2)] rs l' ∧
      said = [.ok (.version VERSION), .ok .opened] ∧ rs.map Except.toOption = [some [11, 12], none] := by
  obtain ⟨⟨said, l, rs, l', hmade, hreads⟩, hall⟩ := reads_agree oneFile_fits.reads (oneFile_calm [10, 11, 12, 13])
    (by decide +kernel) (show oneFile (.open "disk") () = _ from rfl) [(1, 2), (3, 2)]
  refine ⟨said, l, rs, l', hmade, hreads, ?_⟩
  obtain ⟨hsaid, locals, w', hrun, hsame, -⟩ := hall said l rs l' hmade hreads
  refine ⟨hsaid, ?_⟩
  have hlocals : Effect.Result.passes (fun locals _ => locals.map Except.toOption == [some [11, 12], none])
      (Effect.mapEach (fun x => Effect.attempt
        ((⟨"disk", Local.backing (oneFile_calm [10, 11, 12, 13])⟩ : Device Unit).read x.1 x.2))
        [(1, 2), (3, 2)] ()) = true := by decide +kernel
  rw [hrun] at hlocals
  rw [← eq_of_beq hlocals]
  clear hrun hreads hall hlocals
  induction hsame with
  | nil => rfl
  | cons h _ ih => exact congrArg₂ List.cons h.toOption ih

end Remote

/-! ## Opening -/

/-- What `Device::open` finds on Windows. -/
structure Machine (F ω : Type) where
  /-- What the service's calls come to. -/
  answer : (q : Ask F) → ω → Answer q × ω
  calm : ∀ f, Calm answer f
  /-- `File::open`, where it is not denied. -/
  openFile : String → ω → Except OsError F × ω
  /-- Whether the helper is installed. -/
  helper : Bool

/-- Where a process runs: the paths that `File::open` denies to it. -/
structure Seat (ω : Type) where
  denied : String → Bool
  world : ω

def ACCESS_DENIED : OsError := ⟨.permissionDenied, "Access is denied. (os error 5)"⟩

namespace Machine

variable (m : Machine F ω)

/-- `Backing::read_at`, of a device at `path` whose file is `f`. -/
def readAt (path : String) (f : F) (off len : Nat) (s : Seat ω) : Except OsError Bytes × Seat ω :=
  let r := if s.denied path then Remote.readAt m.answer f off len s.world
    else Local.readAt m.answer f off len s.world
  (r.1, { s with world := r.2 })

def backing (path : String) (f : F) : Backing (Seat ω) where
  readAt := m.readAt path f
  fits {off len s s' b} h := by
    unfold readAt at h
    split_ifs at h
    · have hr : (Remote.readAt m.answer f off len s.world).1 = .ok b := congrArg Prod.fst h
      exact (Remote.backing m.answer f).fits (Prod.ext hr rfl)
    · have hr : (Local.readAt m.answer f off len s.world).1 = .ok b := congrArg Prod.fst h
      exact (Local.backing (m.calm f)).fits (Prod.ext hr rfl)
  patience _ := 0
  steady _ _ _ := Nat.le_refl 0
  interrupted {off len s s' e} h hkind := by
    unfold readAt at h
    split_ifs at h
    · have hr : (Remote.readAt m.answer f off len s.world).1 = .error e := congrArg Prod.fst h
      exact (Remote.backing m.answer f).interrupted (Prod.ext hr rfl) hkind
    · have hr : (Local.readAt m.answer f off len s.world).1 = .error e := congrArg Prod.fst h
      exact (Local.backing (m.calm f)).interrupted (Prod.ext hr rfl) hkind

/-- `Device::open`. -/
def «open» : Opener (Seat ω) := fun path s =>
  if s.denied path then
    if m.helper = false then (.error ACCESS_DENIED, s)
    else if (utf8 path).length > MAX_PATH then
      (.error ⟨.invalidInput, s!"path longer than {MAX_PATH} bytes"⟩, s)
    else
      match m.answer (.open path) s.world with
      | (.ok f, w) => (.ok (m.backing path f), { s with world := w })
      | (.error r, w) => (.error ⟨(refusalError r).kind, (refusalError r).text⟩, { s with world := w })
  else
    match m.openFile path s.world with
    | (.ok f, w) => (.ok (m.backing path f), { s with world := w })
    | (.error e, w) => (.error e, { s with world := w })

/-- At `path` there is a file of content `c`, which the service opens as well. -/
structure Serves (path : String) (f : F) (c : Content) : Prop where
  opened : ∀ w, (m.openFile path w).1 = .ok f
  granted : ∀ w, (m.answer (.open path) w).1 = Except.ok f
  short : (utf8 path).length ≤ MAX_PATH
  holds : (Local.backing (m.calm f)).Holds c

variable {m} {path : String} {f : F} {c : Content}

/-- What a call of the service for a read of the file comes to. -/
theorem answer_holds (h : (Local.backing (m.calm f)).Holds c) (off len : Nat) (w : ω) :
    ∃ data w', m.answer (.readAt f off len) w = (Except.ok data, w') ∧ data.1 = c.read off data.1.length ∧
      (data.1 = [] → len = 0 ∨ c.size ≤ off) ∧ (data.1 ≠ [] → off + data.1.length ≤ c.size) := by
  have hread := h off len w
  rcases Local.readAt_cases m.answer f off len w with ⟨data, w', ha, hl⟩ | ⟨e, w', ha, hl⟩
  · simp only [Local.backing, hl] at hread
    exact ⟨data, w', ha, hread⟩
  · simp only [Local.backing, hl] at hread
    exact absurd hread (m.calm f off len w e w' ha)

/-- It is read as a device of that content, the one way or the other. -/
theorem backing_holds (h : (Local.backing (m.calm f)).Holds c) : (m.backing path f).Holds c := by
  intro off len s
  simp only [Machine.backing, Machine.readAt]
  split_ifs with hdenied
  · -- A shorter answer than the file would give, but not an empty one.
    obtain ⟨data, w', ha, hdata, hempty, hmore⟩ := answer_holds h off (min len MAX_READ) s.world
    simp only [Remote.readAt, ha]
    refine ⟨hdata, fun hnil => (hempty hnil).imp_left fun hmin => ?_, hmore⟩
    have hread : 0 < MAX_READ := by decide
    omega
  · obtain ⟨data, w', ha, hdata⟩ := answer_holds h off len s.world
    simp only [Local.readAt, ha]
    exact hdata

theorem Serves.open_eq (h : m.Serves path f c) (hhelper : m.helper = true) (s : Seat ω) :
    (m.open path s).1 = .ok (m.backing path f) := by
  unfold Machine.open
  split_ifs with hdenied hno hlong
  · rw [hhelper] at hno
    cases hno
  · exact absurd h.short (Nat.not_le.mpr hlong)
  · have hgranted := h.granted s.world
    rcases ha : m.answer (.open path) s.world with ⟨r | f', w⟩ <;> rw [ha] at hgranted <;> cases hgranted
    rfl
  · have hopened := h.opened s.world
    rcases ha : m.openFile path s.world with ⟨e | f', w⟩ <;> rw [ha] at hopened <;> cases hopened
    rfl

theorem steady_only {devices : List String} (hhelper : m.helper = true)
    (h : ∀ path ∈ devices, ∃ f c, m.Serves path f c) : SteadyOpener (m.open.only devices) where
  same path s t := by
    unfold Opener.only
    split_ifs with hlisted
    · obtain ⟨f, c, hserves⟩ := h path hlisted
      rw [hserves.open_eq hhelper s, hserves.open_eq hhelper t]
    · rfl
  holds path s B hB := by
    unfold Opener.only at hB
    split_ifs at hB with hlisted
    obtain ⟨f, c, hserves⟩ := h path hlisted
    rw [hserves.open_eq hhelper s] at hB
    cases hB
    exact ⟨c, backing_holds hserves.holds⟩

/-- Where the helper is installed and opens the devices, a command does the same for those to
whom they are denied as for those to whom they are not, and whatever else is denied. -/
theorem main_transparent {η φ τ : Type} (S : System (Seat ω) η φ τ) (hopener : S.opener = m.open)
    (hhelper : m.helper = true) {devices : List String} (h : ∀ path ∈ devices, ∃ f c, m.Serves path f c)
    (json : Bool) (cmd : Cmd) (host : η) (term : τ) (denied denied' : String → Bool) (w w' : ω) :
    (S.main devices json cmd ⟨.empty ⟨denied, w⟩, host, term⟩).1 =
        (S.main devices json cmd ⟨.empty ⟨denied', w'⟩, host, term⟩).1 ∧
      World.Agrees (S.main devices json cmd ⟨.empty ⟨denied, w⟩, host, term⟩).2
        (S.main devices json cmd ⟨.empty ⟨denied', w'⟩, host, term⟩).2 :=
  System.main_matched json (hopener ▸ steady_only hhelper h) cmd (Image.fresh_empty _ _) rfl rfl

/-- A machine of one disk, which the service opens as well. -/
def oneDisk (c : Content) : Machine Unit Unit where
  answer
    | .open path, w => if path = "disk" then (.ok (), w) else (.error (.notFound "no such partition"), w)
    | .readAt _ off len, w =>
      (.ok ⟨c.read off (min len (c.size - off)), by rw [Content.length_read]; exact Nat.min_le_left _ _⟩, w)
    | .update, w => (.error ⟨.other, "no network", .device⟩, w)
  calm _ _ _ _ _ _ h := by cases h
  openFile path w :=
    (if path = "disk" then .ok () else .error ⟨.notFound, "No such file or directory (os error 2)"⟩, w)
  helper := true

theorem oneDisk_serves (c : Content) : (oneDisk c).Serves "disk" () c where
  opened _ := rfl
  granted _ := rfl
  short := by decide +kernel
  holds := c.holds_backing

/-- What opens at `path`, where a file of content `c` goes by each of `paths`. -/
def opening (c : Content) (paths : List String) (path : String) : Opening Unit :=
  if path ∈ paths then ⟨.ok (), [.ok (c.read SUPER_OFFSET (min SUPER_SIZE (c.size - SUPER_OFFSET)))]⟩
  else ⟨.error ⟨.notFound, "The system cannot find the file specified. (os error 2)"⟩, []⟩

/-- A machine of that file, of which the service opens what it opens of partitions. -/
def files (c : Content) (paths : List String) : Machine Unit Unit where
  answer
    | .open path, w => (openPartition Image.crates path (opening c paths path), w)
    | .readAt _ off len, w =>
      (.ok ⟨c.read off (min len (c.size - off)), by rw [Content.length_read]; exact Nat.min_le_left _ _⟩, w)
    | .update, w => (.error ⟨.other, "no network", .device⟩, w)
  calm _ _ _ _ _ _ h := by cases h
  openFile path w := ((opening c paths path).file, w)
  helper := true

/-- A system of the machine of one disk, whose output can be read. -/
def oneDiskSystem (c : Content) : System (Seat Unit) Unit Unit Bytes :=
  { Image.interruptedSystem c with opener := (oneDisk c).open }

/-- What `ls` comes to there for those to whom the disks are `denied`. -/
def listing (denied : String → Bool) : Nat × World (Seat Unit) Unit Bytes :=
  (oneDiskSystem Image.fileDisk).main ["disk"] false (.ls ['/'] false) ⟨.empty ⟨denied, ()⟩, (), []⟩

/-- The file is listed to a user to whom every disk is denied, as to one to whom none is. -/
theorem main_transparent_oneDisk :
    (listing fun _ => true).1 = (listing fun _ => false).1 ∧
      World.Agrees (listing fun _ => true).2 (listing fun _ => false).2 ∧
      (listing fun _ => true).1 = 0 ∧ (listing fun _ => true).2.term = [0x66, 0x0A] := by
  have hfile : (listing fun _ => true).1 = 0 ∧ (listing fun _ => true).2.term = [0x66, 0x0A] := by
    decide +kernel
  have hserves : ∀ path ∈ ["disk"], ∃ f c, (oneDisk Image.fileDisk).Serves path f c := by
    intro path hp
    rw [List.mem_singleton.mp hp]
    exact ⟨(), Image.fileDisk, oneDisk_serves Image.fileDisk⟩
  have h : (listing fun _ => true).1 = (listing fun _ => false).1 ∧
      World.Agrees (listing fun _ => true).2 (listing fun _ => false).2 :=
    main_transparent _ rfl rfl hserves _ _ _ _ _ _ _ _
  exact ⟨h.1, h.2, hfile⟩

end Machine

end Helper

end BtrfsPeek

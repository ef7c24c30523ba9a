import BtrfsPeek.Fs.Tree
import BtrfsPeek.Fs.Cache
import BtrfsPeek.Fs.Open
import Mathlib.Data.List.Chain

/-!
# What a walk goes into

Whatever the blocks point at, a walk goes down one level with each block, and so
never comes back to a block it is under. `walkNoted` is `Fs::walk` with a journal
of where it was sent and of the blocks it expanded, and with each step that could
panic checked: the subtraction of a level, and the reads of a header.

`Journal.Sound` is what holds of the journal at any time, and `Journal.Whole` what
holds of one whose walk has not failed: it went into every block it was sent to.
-/

namespace BtrfsPeek

open Effect SearchTree

variable {β τ : Type}

/-- A block below the blocks above it, each with what was read of it. -/
abbrev Path := List (Nat × Node)

/-- What a walk did: the paths it was below and the addresses it was sent to there,
and the blocks it expanded. -/
structure Journal where
  sent : List (Path × Nat)
  expanded : List Path

namespace Journal

def empty : Journal := ⟨[], []⟩

def send (above : Path) (logical : Nat) (j : Journal) : Journal := { j with sent := (above, logical) :: j.sent }

def expand (path : Path) (j : Journal) : Journal := { j with expanded := path :: j.expanded }

end Journal

namespace Journal

/-- What holds at any time, where a block that is read is `Q`: each expanded block is one
level under the block it was expanded below. -/
structure Sound (Q : Nat → Node → Prop) (j : Journal) : Prop where
  chain : ∀ p ∈ j.expanded, p.IsChain fun x y => y.2.level = x.2.level + 1
  read : ∀ p ∈ j.expanded, ∀ x ∈ p, Q x.1 x.2
  depth : ∀ p ∈ j.expanded, p.length ≤ 9
  above : ∀ p ∈ j.expanded, p.tail = [] ∨ p.tail ∈ j.expanded
  sent : ∀ c ∈ j.sent, c.1 = [] ∨ c.1 ∈ j.expanded

/-- Every block the walk was sent to was expanded. -/
def Whole (j : Journal) : Prop := ∀ c ∈ j.sent, ∃ n, (c.2, n) :: c.1 ∈ j.expanded

/-- The walk is below an expanded block, if any. -/
structure Below (Q : Nat → Node → Prop) (above : Path) (j : Journal) : Prop where
  sound : j.Sound Q
  whole : j.Whole
  above : above = [] ∨ above ∈ j.expanded

/-- The walk has been sent to `p`, and has not expanded it. -/
structure Pending (Q : Nat → Node → Prop) (above : Path) (p : Nat) (j : Journal) : Prop where
  sound : j.Sound Q
  others : ∀ c ∈ j.sent, c = (above, p) ∨ ∃ n, (c.2, n) :: c.1 ∈ j.expanded
  above : above = [] ∨ above ∈ j.expanded

variable {Q : Nat → Node → Prop} {above : Path} {p : Nat} {n : Node} {j : Journal}

theorem Below.empty : Below Q [] empty where
  sound := ⟨nofun, nofun, nofun, nofun, nofun⟩
  whole := nofun
  above := .inl rfl

theorem Below.send (h : j.Below Q above) (p : Nat) : (j.send above p).Pending Q above p where
  sound := by
    refine ⟨h.sound.chain, h.sound.read, h.sound.depth, h.sound.above, ?_⟩
    intro c hc
    rcases List.mem_cons.mp hc with rfl | hc
    · exact h.above
    · exact h.sound.sent c hc
  others := by
    intro c hc
    rcases List.mem_cons.mp hc with rfl | hc
    · exact .inl rfl
    · exact .inr (h.whole c hc)
  above := h.above

theorem Pending.expand (h : j.Pending Q above p) (hn : Q p n) (hlen : above.length < 9)
    (hlevel : ∀ x ∈ above.head?, x.2.level = n.level + 1) :
    (j.expand ((p, n) :: above)).Below Q ((p, n) :: above) where
  sound := by
    have hup (q : Path) (hq : q = [] ∨ q ∈ j.expanded) : q = [] ∨ q ∈ (j.expand ((p, n) :: above)).expanded :=
      hq.imp id (List.mem_cons_of_mem _)
    have hfacts : above.IsChain (fun x y => y.2.level = x.2.level + 1) ∧ ∀ x ∈ above, Q x.1 x.2 := by
      rcases h.above with rfl | ha
      · exact ⟨.nil, nofun⟩
      · exact ⟨h.sound.chain _ ha, h.sound.read _ ha⟩
    refine ⟨?_, ?_, ?_, ?_, ?_⟩ <;> intro q hq
    · rcases List.mem_cons.mp hq with rfl | hq
      · exact hfacts.1.cons hlevel
      · exact h.sound.chain q hq
    · rcases List.mem_cons.mp hq with rfl | hq
      · intro x hx
        rcases List.mem_cons.mp hx with rfl | hx
        · exact hn
        · exact hfacts.2 x hx
      · exact h.sound.read q hq
    · rcases List.mem_cons.mp hq with rfl | hq
      · exact hlen
      · exact h.sound.depth q hq
    · rcases List.mem_cons.mp hq with rfl | hq
      · exact hup _ h.above
      · exact hup _ (h.sound.above q hq)
    · exact hup _ (h.sound.sent q hq)
  whole := by
    intro c hc
    rcases h.others c hc with rfl | ⟨m, hm⟩
    · exact ⟨n, List.mem_cons_self⟩
    · exact ⟨m, List.mem_cons_of_mem _ hm⟩
  above := .inr List.mem_cons_self

/-- Levels rise along a path. -/
theorem Sound.rising (h : j.Sound Q) {path : Path} (hp : path ∈ j.expanded) :
    path.Pairwise fun x y => x.2.level < y.2.level := by
  have hchain : (path.map fun x => x.2.level).IsChain (· < ·) := by
    rw [List.isChain_map]
    exact (h.chain path hp).imp fun x y hxy => by omega
  exact List.pairwise_map.mp hchain.pairwise

/-- So no block is below itself. -/
theorem Sound.nodup (h : j.Sound Q) {path : Path} (hp : path ∈ j.expanded) : path.Nodup := by
  refine (h.rising hp).imp fun {x y} hxy => ?_
  rintro rfl
  exact Nat.lt_irrefl _ hxy

/-- Nor is an address below itself, where each reads as one block. -/
theorem Sound.nodup_fst {blocks : Nat → Except Error Node} (h : j.Sound fun p n => blocks p = .ok n)
    {path : Path} (hp : path ∈ j.expanded) : (path.map Prod.fst).Nodup := by
  refine List.pairwise_map.mpr ((h.rising hp).imp_of_mem fun {x y} hx hy hxy heq => ?_)
  have hsame : x.2 = y.2 := by
    have := (h.read path hp x hx).symm.trans ((congrArg blocks heq).trans (h.read path hp y hy))
    exact Except.ok.inj this
  rw [hsame] at hxy
  exact Nat.lt_irrefl _ hxy

theorem Below.up {x : Nat × Node} (h : j.Below Q (x :: above)) : j.Below Q above where
  sound := h.sound
  whole := h.whole
  above := h.sound.above _ (h.above.resolve_left (List.cons_ne_nil _ _))

end Journal

namespace Node

variable (n : Node) (min max : Key)

/-- The level and the number of items, where a read outside the block panics. -/
def levelIn (panic : Error) : Except Error Nat := if 100 < n.buf.length then .ok n.level else .error panic

def nritemsIn (panic : Error) : Except Error Nat := if 99 < n.buf.length then .ok n.nritems else .error panic

/-- `visitChildren`, over any state. -/
def sweepChildren {σ : Type} (walkChild : Nat → τ → EStateM Error σ (Bool × τ)) :
    (count i : Nat) → τ → EStateM Error σ (Bool × τ)
  | 0, _, t => pure (true, t)
  | count + 1, i, t => do
    let (key, child) ← lift (n.ptr i)
    if max < key then pure (false, t)
    else do
      let skip ← lift (n.pruned min (i + 1))
      if skip then sweepChildren walkChild count (i + 1) t
      else do
        let (more, t) ← walkChild child t
        if more then sweepChildren walkChild count (i + 1) t else pure (false, t)

theorem sweepChildren_eq (walkChild : Nat → τ → FsM β (Bool × τ)) : ∀ (count i : Nat) (t : τ),
    n.sweepChildren min max walkChild count i t = n.visitChildren min max walkChild count i t
  | 0, _, _ => rfl
  | count + 1, i, t => by
    simp only [sweepChildren, visitChildren, sweepChildren_eq walkChild count]

end Node

/-- The level below, where an underflow panics. -/
def levelBelow (panic : Error) : Nat → Except Error Nat
  | 0 => .error panic
  | level + 1 => .ok level

namespace Fs

variable (fs : Fs β)

/-- `walkNode` below the blocks `above`. -/
def walkNodeNoted (panic : Error) (min max : Key) (visit : Visit τ) :
    (left : Nat) → (above : Path) → (logical : Nat) → (expectLevel : Option Nat) → τ →
      EStateM Error (FsState β × Journal) (Bool × τ)
  | 0, above, logical, _, _ => do
    modify fun s => (s.1, s.2.send above logical)
    throw (.msg "tree deeper than btrfs allows; corrupt or cyclic")
  | left + 1, above, logical, expectLevel, t => do
    modify fun s => (s.1, s.2.send above logical)
    let node ← onFst (fs.readNode logical)
    let n ← lift (node.nritemsIn panic)
    let level ← lift (node.levelIn panic)
    lift (checkLevel logical node expectLevel)
    modify fun s => (s.1, s.2.expand ((logical, node) :: above))
    if level = 0 then lift (node.visitItems min max visit n 0 t)
    else
      node.sweepChildren min max
        (fun child t => do
          let below ← lift (levelBelow panic level)
          walkNodeNoted panic min max visit left ((logical, node) :: above) child (some below) t)
        n 0 t

def walkNoted (panic : Error) (root : Nat) (min max : Key) (visit : Visit τ) (t : τ) :
    EStateM Error (FsState β × Journal) (Bool × τ) :=
  fs.walkNodeNoted panic min max visit 9 [] root none t

/-! ## What is read of a block -/

/-- Every cached block is long enough for its header. -/
def Headed (s : FsState β) : Prop := ∀ x ∈ s.nodes, HEADER_SIZE ≤ x.2.buf.length

variable {fs}

theorem of_attempt_onDev {α : Type} {x : EStateM IoError β α} {s s' : FsState β} {a : α}
    (h : attempt (onDev x) s = .ok (.ok a) s') : ∃ d, x s.dev = .ok a d := by
  rw [attempt_run, EStateM.Result.ok.injEq] at h
  unfold onDev at h
  cases hx : x s.dev with
  | error e d => rw [hx] at h; exact nomatch h.1
  | ok b d =>
    rw [hx] at h
    exact ⟨d, by rw [Except.ok.inj h.1]⟩

theorem length_of_nodeMirrors (logical : Nat) : ∀ {ms : List (Device β × Nat)} {e : Error}
    {s s' : FsState β} {n : Node}, fs.nodeMirrors logical ms e s = .ok n s' →
      n.buf.length = fs.sb.nodesize
  | [], _, _, _, _, h => nomatch h
  | (d, phys) :: ms, _, s, s', n, h => by
    unfold nodeMirrors at h
    obtain ⟨r, s₁, hr, h⟩ := bind_ok_iff.mp h
    cases r with
    | error e => exact length_of_nodeMirrors logical h
    | ok buf =>
      obtain ⟨dev, hd⟩ := of_attempt_onDev hr
      have hbuf : buf.length = fs.sb.nodesize := Device.length_of_read hd
      obtain ⟨addr, s₂, -, h⟩ := bind_ok_iff.mp h
      split_ifs at h
      · exact length_of_nodeMirrors logical h
      obtain ⟨bad, s₃, -, h⟩ := bind_ok_iff.mp h
      dsimp only at h
      split_ifs at h
      · exact length_of_nodeMirrors logical h
      · cases h
      · rw [← (EStateM.Result.ok.inj h).1]
        exact hbuf

theorem readNode_headed (p : Nat) : Ensures Headed (fs.readNode p)
    (fun n s => Headed s ∧ HEADER_SIZE ≤ n.buf.length) (fun _ => Headed) := by
  have hfetch : Ensures Headed (fs.fetchNode p)
      (fun n s => Headed s ∧ HEADER_SIZE ≤ n.buf.length) (fun _ => Headed) := by
    have hk : Keeps Headed (fs.fetchNode p) := fetchNode_keeps (fun _ _ h => h) p
    apply Ensures.of_outcomes
    · intro s n s' hs hrun
      obtain ⟨ms, s₁, -, hrun'⟩ := bind_ok_iff.mp hrun
      refine ⟨hk.ok hs hrun, ?_⟩
      rw [length_of_nodeMirrors p hrun']
      have hsize : 4096 ≤ fs.sb.nodesize := fs.sb.nodesize_ok.2.1
      simp only [HEADER_SIZE]
      omega
    · intro s e s' hs hrun
      exact hk.error hs hrun
  unfold readNode
  intro s hs
  rw [bind_of_ok (get_run s)]
  cases hl : s.nodes.lookup p with
  | some n =>
    obtain ⟨l₁, l₂, hnodes, -⟩ := List.lookup_eq_some_iff.mp hl
    refine ⟨hs, hs (p, n) ?_⟩
    rw [hnodes]
    simp
  | none =>
    refine (hfetch.bind fun n => ?_ : Ensures Headed (fs.fetchNode p >>= fun n => _) _ _) s hs
    refine Ensures.fact fun hn => Ensures.bind (Ensures.modify
      (Q := fun _ s => Headed s) fun s hs => ?_) fun _ => Ensures.pure fun s hs => ⟨hs, hn⟩
    intro x hx
    simp only [cacheNode] at hx
    split_ifs at hx
    · rw [List.mem_singleton.mp hx]
      exact hn
    · rcases List.mem_cons.mp hx with rfl | hx
      · exact hn
      · exact hs x hx

theorem readNode_keeps (p : Nat) : Keeps Headed (fs.readNode p) :=
  (readNode_headed p).mono (fun _ h => h) (fun _ _ h => h.1) fun _ _ h => h

/-- Opening a filesystem leaves only such blocks in the cache. -/
theorem open_headed (p : Platform) (X : Crates) (opener : Opener β) (paths : List String) :
    Keeps Headed (Fs.open p X opener paths) := by
  have hdev (s : FsState β) (dev : β) (h : Headed s) : Headed { s with dev := dev } := h
  have hcontext {α : Type} (text : String) {x : FsM β α} (hx : Keeps Headed x) :
      Keeps Headed (inContext text x) := by
    intro s hs
    have := hx s hs
    unfold inContext
    cases hr : x s <;> rw [hr] at this <;> exact this
  have hopen (path : String) : Keeps Headed (openDevice p opener path) := by
    intro s hs
    unfold openDevice
    cases Device.open opener path s.dev <;> exact hs
  have hdevices : ∀ (paths : List String) (o : Opened β), Keeps Headed (openDevices p X opener paths o) := by
    intro paths
    induction paths with
    | nil => exact fun o => .pure o
    | cons path paths ih =>
      intro o
      refine (hopen path).bind fun d => (hcontext _ (onDev_keeps hdev _)).bind fun raw => ?_
      exact (Keeps.lift _).bind fun sb => (Keeps.lift _).bind fun _ => ih _
  refine (Keeps.lift _).bind fun _ => (hdevices paths _).bind fun o => ?_
  cases o.best with
  | none => exact .throw _
  | some sb =>
    refine (Keeps.lift _).bind fun _ => (Keeps.lift _).bind fun chunks => ?_
    refine (hcontext _ (keeps_of_alike (findChunks_alike fun p => ?_))).bind fun _ => .pure _
    exact alike_of_keeps (readNode_keeps p)

/-! ## The walk and its journal -/

theorem sweepChildren_notes {P : FsState β → Prop} {n : Node} {min max : Key}
    {x : Nat → τ → EStateM Error (FsState β × Journal) (Bool × τ)} {y : Nat → τ → FsM β (Bool × τ)}
    (hxy : ∀ child t, Notes P (x child t) (y child t)) (hy : ∀ child t, Keeps P (y child t)) :
    ∀ (count i : Nat) (t : τ),
      Notes P (n.sweepChildren min max x count i t) (n.sweepChildren min max y count i t)
  | 0, _, _ => .pure _
  | count + 1, i, t => by
    unfold Node.sweepChildren
    refine (Notes.lift _).bind_keeps (Keeps.lift _) fun kp => ?_
    obtain ⟨key, child⟩ := kp
    dsimp only
    by_cases hmax : max < key
    · simp only [hmax, if_true]
      exact .pure _
    simp only [hmax, if_false]
    refine (Notes.lift _).bind_keeps (Keeps.lift _) fun skip => ?_
    by_cases hskip : skip = true
    · simp only [hskip, if_true]
      exact sweepChildren_notes hxy hy count (i + 1) t
    simp only [hskip]
    refine (hxy child t).bind_keeps (hy child t) fun r => ?_
    obtain ⟨more, t'⟩ := r
    cases more with
    | true => exact sweepChildren_notes hxy hy count (i + 1) t'
    | false => exact .pure _

theorem walkNode_headed (min max : Key) (visit : Visit τ) (left p : Nat) (expect : Option Nat) (t : τ) :
    Keeps Headed (fs.walkNode min max visit left p expect t) := by
  apply keeps_of_alike
  apply walkNode_alike
  intro p
  exact alike_of_keeps (readNode_keeps p)

/-- The walk does what the noted walk does: no step of it panics. -/
theorem walkNodeNoted_notes (panic : Error) (min max : Key) (visit : Visit τ) :
    ∀ (left : Nat) (above : Path) (p : Nat) (expect : Option Nat) (t : τ),
      Notes Headed (fs.walkNodeNoted panic min max visit left above p expect t)
        (fs.walkNode min max visit left p expect t)
  | 0, _, _, _, _ => .note _ (.throw _)
  | left + 1, above, p, expect, t => by
    unfold walkNodeNoted walkNode
    refine .note _ ((Notes.onFst _).bind ((readNode_headed p).mono (fun _ h => h) (fun _ _ h => h)
      fun _ _ _ => trivial) fun node => .fact fun hlen => ?_)
    have hsize : HEADER_SIZE = 101 := rfl
    have hitems : node.nritemsIn panic = .ok node.nritems := if_pos (by omega)
    have hlevel : node.levelIn panic = .ok node.level := if_pos (by omega)
    rw [hitems, hlevel, lift_ok_bind, lift_ok_bind]
    refine (Notes.lift _).bind_keeps (Keeps.lift _) fun _ => .note _ ?_
    by_cases h0 : node.level = 0
    · simp only [h0, if_true]
      exact .lift _
    simp only [h0, if_false]
    obtain ⟨level, hl⟩ := Nat.exists_eq_succ_of_ne_zero h0
    rw [← Node.sweepChildren_eq]
    refine sweepChildren_notes (fun child t => ?_) (fun child t => walkNode_headed _ _ _ _ _ _ _) _ _ _
    rw [hl, levelBelow, lift_ok_bind]
    exact walkNodeNoted_notes panic min max visit left _ child _ t

/-! ## What the journal says -/

section journal

variable {I : FsState β → Prop} {Q : Nat → Node → Prop}
  (hQ : ∀ p, Ensures I (fs.readNode p) (fun n s => I s ∧ Q p n) (fun _ => I))

/-- The noted computation keeps to the blocks it is below, unless it fails. -/
abbrev Stays (I : FsState β → Prop) (Q : Nat → Node → Prop) (above : Path) {α : Type}
    (x : EStateM Error (FsState β × Journal) α) : Prop :=
  Ensures (fun s => I s.1 ∧ s.2.Below Q above) x (fun _ s => I s.1 ∧ s.2.Below Q above)
    (fun _ s => I s.1 ∧ s.2.Sound Q)

theorem Stays.lift {above : Path} {α : Type} (r : Except Error α) : Stays I Q above (lift r) :=
  Ensures.lift (fun _ _ _ h => h) fun _ _ _ h => ⟨h.1, h.2.sound⟩

theorem sweepChildren_stays {above : Path} {n : Node} {min max : Key}
    {x : Nat → τ → EStateM Error (FsState β × Journal) (Bool × τ)}
    (hx : ∀ child t, Stays I Q above (x child t)) :
    ∀ (count i : Nat) (t : τ), Stays I Q above (n.sweepChildren min max x count i t)
  | 0, _, _ => Ensures.pure fun _ h => h
  | count + 1, i, t => by
    unfold Node.sweepChildren
    refine (Stays.lift _).bind fun kp => ?_
    obtain ⟨key, child⟩ := kp
    dsimp only
    by_cases hmax : max < key
    · simp only [hmax, if_true]
      exact Ensures.pure fun _ h => h
    simp only [hmax, if_false]
    refine (Stays.lift _).bind fun skip => ?_
    by_cases hskip : skip = true
    · simp only [hskip, if_true]
      exact sweepChildren_stays hx count (i + 1) t
    simp only [hskip]
    refine (hx child t).bind fun r => ?_
    obtain ⟨more, t'⟩ := r
    cases more with
    | true => exact sweepChildren_stays hx count (i + 1) t'
    | false => exact Ensures.pure fun _ h => h

include hQ

theorem walkNodeNoted_stays (panic : Error) (min max : Key) (visit : Visit τ) :
    ∀ (left : Nat) (above : Path) (p : Nat) (expect : Option Nat) (t : τ),
      above.length + left = 9 →
      (∀ x ∈ above.head?, ∃ level, x.2.level = level + 1 ∧ expect = some level) →
      Stays I Q above (fs.walkNodeNoted panic min max visit left above p expect t)
  | 0, above, p, expect, t, _, _ => by
    refine Ensures.bind (Q := fun _ s => I s.1 ∧ s.2.Pending Q above p)
      (Ensures.modify fun s hs => ⟨hs.1, hs.2.send p⟩) fun _ => Ensures.throw fun s hs => ?_
    exact ⟨hs.1, hs.2.sound⟩
  | left + 1, above, p, expect, t, hlen, hexp => by
    unfold walkNodeNoted
    have hlift {α : Type} (r : Except Error α) : Ensures (fun s : FsState β × Journal => I s.1 ∧ s.2.Pending Q above p)
        (Effect.lift r) (fun a s => (I s.1 ∧ s.2.Pending Q above p) ∧ r = .ok a) (fun _ s => I s.1 ∧ s.2.Sound Q) :=
      Ensures.lift (fun a ha _ h => ⟨h, ha⟩) fun _ _ _ h => ⟨h.1, h.2.sound⟩
    refine Ensures.bind (Q := fun _ s => I s.1 ∧ s.2.Pending Q above p)
      (Ensures.modify fun s hs => ⟨hs.1, hs.2.send p⟩) fun _ => ?_
    refine Ensures.bind (Q := fun n s => (I s.1 ∧ s.2.Pending Q above p) ∧ Q p n) ?_ fun node =>
      Ensures.fact fun hnode => ?_
    · refine Ensures.onFst_of fun j s hs => ?_
      have hread := hQ p s hs.1
      cases hr : fs.readNode p s <;> rw [hr] at hread
      · exact ⟨⟨hread.1, hs.2⟩, hread.2⟩
      · exact ⟨hread, hs.2.sound⟩
    refine (hlift _).bind fun count => Ensures.fact fun _ => ?_
    refine (hlift _).bind fun level => Ensures.fact fun hlevel => ?_
    refine (hlift _).bind fun _ => Ensures.fact fun hcheck => ?_
    have hlevel : level = node.level := by
      unfold Node.levelIn at hlevel
      split_ifs at hlevel
      exact (Except.ok.inj hlevel).symm
    have hdown : ∀ x ∈ above.head?, x.2.level = node.level + 1 := by
      intro x hx
      obtain ⟨l, hl, rfl⟩ := hexp x hx
      have hne : ¬ node.level ≠ l := bailIf_ok_iff.mp hcheck
      omega
    refine Ensures.bind (Q := fun _ s => I s.1 ∧ s.2.Below Q ((p, node) :: above))
      (Ensures.modify fun s hs => ⟨hs.1, hs.2.expand hnode (by omega) hdown⟩) fun _ => ?_
    have hbody : Stays I Q ((p, node) :: above)
        (if level = 0 then Effect.lift (node.visitItems min max visit count 0 t)
        else node.sweepChildren min max
          (fun child t => do
            let below ← Effect.lift (levelBelow panic level)
            fs.walkNodeNoted panic min max visit left ((p, node) :: above) child (some below) t)
          count 0 t) := by
      by_cases h0 : level = 0
      · simp only [h0, if_true]
        exact Stays.lift _
      simp only [h0, if_false]
      obtain ⟨l, hl⟩ := Nat.exists_eq_succ_of_ne_zero h0
      refine sweepChildren_stays (fun child t => ?_) _ _ _
      rw [hl, levelBelow, lift_ok_bind]
      refine walkNodeNoted_stays panic min max visit left _ child _ t ?_ ?_
      · simp only [List.length_cons]
        omega
      · intro x hx
        rw [← Option.some.inj hx]
        exact ⟨l, by rw [← hlevel, hl], rfl⟩
    exact hbody.mono (fun _ h => h) (fun _ _ h => ⟨h.1, h.2.up⟩) fun _ _ h => h

end journal

end Fs

/-- What is read of an item or of a pointer is inside the block. -/
theorem Node.reads_inside (n : Node) (i : Nat) :
    (∀ k d, n.item i = .ok (k, d) → HEADER_SIZE + i * 25 + 25 ≤ n.buf.length ∧
      ∃ off, off + d.length ≤ n.buf.length ∧ d = n.buf.slice off d.length) ∧
    ∀ x, n.ptr i = .ok x → HEADER_SIZE + i * 33 + 25 ≤ n.buf.length := by
  constructor
  · intro k d h
    obtain ⟨key, -, h⟩ := except_bind_ok.mp h
    obtain ⟨off, -, h⟩ := except_bind_ok.mp h
    obtain ⟨size, hsize, h⟩ := except_bind_ok.mp h
    obtain ⟨data, hdata, h⟩ := except_bind_ok.mp h
    obtain ⟨-, rfl⟩ := Prod.mk.inj (Except.ok.inj h)
    obtain ⟨hle, -⟩ := uintAt_ok_iff.mp hsize
    obtain ⟨hin, hslice⟩ := bytes_ok_iff.mp hdata
    have hlen : data.length = size := by
      rw [hslice, Bytes.length_slice_of_le hin]
    refine ⟨by omega, HEADER_SIZE + off, by omega, ?_⟩
    rw [hlen]
    exact hslice
  · intro x h
    obtain ⟨key, -, h⟩ := except_bind_ok.mp h
    obtain ⟨p, hp, -⟩ := except_bind_ok.mp h
    have hle := (uintAt_ok_iff.mp hp).1
    simp only [KEY_SIZE] at hle
    omega

/-- A walk expands blocks of falling levels, at most nine of them below each other, and
fails where it is sent to a block that it is below. -/
theorem Fs.walk_descends {fs : Fs β} {s : FsState β} (hs : Headed s) (panic : Error) (root : Nat)
    (min max : Key) (visit : Visit τ) (t : τ) :
    let walk := fs.walk root min max visit t s
    let run := fs.walkNoted panic root min max visit t (s, .empty)
    let j := (Result.state run).2
    (Result.value run = Result.value walk ∧ (Result.state run).1 = Result.state walk) ∧
    (∀ p ∈ j.expanded, (p.IsChain fun x y => y.2.level = x.2.level + 1) ∧ p.Nodup ∧ p.length ≤ 9 ∧
      ∀ x ∈ p, HEADER_SIZE ≤ x.2.buf.length) ∧
    (∀ r s', walk = .ok r s' → ∀ c ∈ j.sent, ∃ n, (c.2, n) :: c.1 ∈ j.expanded) ∧
    (∀ (I : FsState β → Prop) (blocks : Nat → Except Error Node),
      (∀ p, Yields I (fs.readNode p) (blocks p)) → I s →
      (∀ p ∈ j.expanded, (p.map Prod.fst).Nodup ∧ ∀ x ∈ p, blocks x.1 = .ok x.2) ∧
      ((∃ c ∈ j.sent, c.2 ∈ c.1.map Prod.fst) → ∃ e s', walk = .error e s')) ∧
    ∀ (n : Node) i,
      (∀ k d, n.item i = .ok (k, d) → HEADER_SIZE + i * 25 + 25 ≤ n.buf.length ∧
        ∃ off, off + d.length ≤ n.buf.length ∧ d = n.buf.slice off d.length) ∧
      ∀ x, n.ptr i = .ok x → HEADER_SIZE + i * 33 + 25 ≤ n.buf.length := by
  intro walk run j
  obtain ⟨j', hrun⟩ : ∃ j', run = done (Result.value walk) (Result.state walk, j') :=
    walkNodeNoted_notes panic min max visit 9 [] root none t s .empty hs
  -- what the journal keeps, for any invariant of the caches
  have hstays {I : FsState β → Prop} {Q : Nat → Node → Prop}
      (hQ : ∀ p, Ensures I (fs.readNode p) (fun n s => I s ∧ Q p n) (fun _ => I)) (hI : I s) :
      j.Sound Q ∧ ((∃ r, Result.value walk = .ok r) → j.Whole) := by
    have hbelow : I (s, Journal.empty).1 ∧ (s, Journal.empty).2.Below Q [] := ⟨hI, .empty⟩
    have h : Stays I Q [] (fs.walkNoted panic root min max visit t) :=
      walkNodeNoted_stays hQ panic min max visit 9 [] root none t rfl nofun
    have hj : j = j' := by
      show (Result.state run).2 = j'
      rw [hrun, state_done]
    rw [hj]
    cases hv : Result.value walk with
    | ok r =>
      rw [hv, done_ok] at hrun
      have hend := (h.ok hbelow hrun).2
      exact ⟨hend.sound, fun _ => hend.whole⟩
    | error e =>
      rw [hv, done_error] at hrun
      exact ⟨(h.error hbelow hrun).2, fun ⟨_, hr⟩ => nomatch hr⟩
  have hblocks := hstays readNode_headed hs
  refine ⟨?_, ?_, ?_, ?_, Node.reads_inside⟩
  · rw [hrun, value_done, state_done]
    exact ⟨rfl, rfl⟩
  · intro p hp
    exact ⟨hblocks.1.chain p hp, hblocks.1.nodup hp, hblocks.1.depth p hp, hblocks.1.read p hp⟩
  · intro r s' hr
    exact hblocks.2 ⟨r, by rw [hr]; rfl⟩
  · intro I blocks hgraph hI
    have hread (p : Nat) : Ensures I (fs.readNode p) (fun n s => I s ∧ blocks p = .ok n) (fun _ => I) := by
      intro s hs
      obtain ⟨s', hs', hrun⟩ := hgraph p s hs
      rw [hrun]
      cases blocks p with
      | ok n => exact ⟨hs', rfl⟩
      | error e => exact hs'
    obtain ⟨hsound, hwhole⟩ := hstays hread hI
    refine ⟨fun p hp => ⟨hsound.nodup_fst hp, hsound.read p hp⟩, ?_⟩
    rintro ⟨c, hc, hback⟩
    cases hw : walk with
    | ok r s' =>
      obtain ⟨n, hn⟩ := hwhole ⟨r, by rw [hw]; rfl⟩ c hc
      have hnodup := hsound.nodup_fst hn
      exact absurd hback (List.nodup_cons.mp hnodup).1
    | error e s' => exact ⟨e, s', rfl⟩

/-- The two leaves and their root, all cached. -/
def heldLeaves : FsState Unit :=
  ⟨(), [0, 1, 2].filterMap fun p => (twoLeaves p).map (p, ·), [], none⟩

/-- Their walk, beside the noted one. -/
theorem Fs.walk_descends_twoLeaves :
    Result.value ((Image.fs []).walkNoted (.msg "") 0 ⟨2, 0, 0⟩ ⟨3, 0, 0⟩
        (recording fun _ _ (_ : Unit) => (true, ())) ([], ()) (heldLeaves, .empty)) =
      Result.value ((Image.fs []).walk 0 ⟨2, 0, 0⟩ ⟨3, 0, 0⟩
        (recording fun _ _ (_ : Unit) => (true, ())) ([], ()) heldLeaves) := by
  have hheaded : Headed heldLeaves := by
    show ∀ x ∈ heldLeaves.nodes, HEADER_SIZE ≤ x.2.buf.length
    decide +kernel
  exact (Fs.walk_descends hheaded (.msg "") 0 ⟨2, 0, 0⟩ ⟨3, 0, 0⟩
    (recording fun _ _ (_ : Unit) => (true, ())) ([], ())).1.1

end BtrfsPeek

import BtrfsPeek.Fs.Basic

/-!
# Tree walks

`Fs::walk` and `Fs::get`. A visitor is a function of each item and of whatever
it keeps (`τ`); it answers whether to go on. The walk answers `false` where the
visitor stopped and where it met a key past the range.
-/

namespace BtrfsPeek

open Effect

variable {β τ : Type}

/-- What a walk does with an item; `false` stops it. -/
abbrev Visit (τ : Type) := Key → Bytes → τ → Except Error (Bool × τ)

namespace Node

variable (n : Node) (min max : Key)

/-- The items of a leaf from the `i`-th on, of which there are `count`. -/
def visitItems (visit : Visit τ) : (count i : Nat) → τ → Except Error (Bool × τ)
  | 0, _, t => .ok (true, t)
  | count + 1, i, t => do
    let (key, data) ← n.item i
    if key < min then visitItems visit count (i + 1) t
    else if max < key then .ok (false, t)
    else do
      let (more, t) ← visit key data t
      if more then visitItems visit count (i + 1) t else .ok (false, t)

/-- Whether the child before the `i`-th holds only keys below the range. -/
def pruned (i : Nat) : Except Error Bool :=
  if i < n.nritems then do
    let (key, _) ← n.ptr i
    return decide (key ≤ min)
  else .ok false

/-- The children of a node from the `i`-th on, of which there are `count`. -/
def visitChildren (walkChild : Nat → τ → FsM β (Bool × τ)) :
    (count i : Nat) → τ → FsM β (Bool × τ)
  | 0, _, t => pure (true, t)
  | count + 1, i, t => do
    let (key, child) ← lift (n.ptr i)
    if max < key then pure (false, t)
    else do
      -- A child holds keys below its right sibling's first key.
      let skip ← lift (n.pruned min (i + 1))
      if skip then visitChildren walkChild count (i + 1) t
      else do
        let (more, t) ← walkChild child t
        if more then visitChildren walkChild count (i + 1) t else pure (false, t)

end Node

namespace Fs

variable (fs : Fs β)

/-- A node must sit one level below its parent. -/
def checkLevel (logical : Nat) (node : Node) : Option Nat → Except Error Unit
  | none => .ok ()
  | some expected =>
    bailIf (node.level ≠ expected)
      (.msg s!"tree block at {logical} is level {node.level} where its parent expects {expected}")

/-- The subtree at `logical`, at depth `9 - left`: past depth 8 the tree is
corrupt. -/
def walkNode (min max : Key) (visit : Visit τ) :
    (left : Nat) → (logical : Nat) → (expectLevel : Option Nat) → τ → FsM β (Bool × τ)
  | 0, _, _, _ => throw (.msg "tree deeper than btrfs allows; corrupt or cyclic")
  | left + 1, logical, expectLevel, t => do
    let node ← fs.readNode logical
    lift (checkLevel logical node expectLevel)
    if node.level = 0 then lift (node.visitItems min max visit node.nritems 0 t)
    else
      node.visitChildren min max
        (fun child t => walkNode min max visit left child (some (node.level - 1)) t)
        node.nritems 0 t

/-- Visits every item with `min ≤ key ≤ max` in order. -/
def walk (root : Nat) (min max : Key) (visit : Visit τ) (t : τ) : FsM β (Bool × τ) :=
  fs.walkNode min max visit 9 root none t

/-- The item with the key. -/
def get (root : Nat) (key : Key) : FsM β (Option Bytes) := do
  let (_, out) ← fs.walk root key key (fun _ d _ => .ok (false, some d)) none
  return out

end Fs

end BtrfsPeek

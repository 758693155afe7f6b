import Coxx.Avl.CAvl
import Coxx.Bytes
import Coxx.Double
import Coxx.Map.CMap

/-! The sorted set of zset/zset.cxx.

A ZNode carries its two intrusive parts and its data under one identity, so `containerOf`
is the identity function. A computation is none when the C++ code would read past the end
of a string, use up the memory or dereference NULL.
-/

set_option autoImplicit false

namespace Coxx.Zset

open Avl Map

/-- The data of a ZNode; its `tree` and `map` parts are in the two heaps of the set. -/
structure ZNode where
  score : Double
  len : Nat
  name : Bytes
  deriving DecidableEq, Repr

/-- `fresh` is the next unused address. -/
structure ZSet where
  tree : Option Addr
  heap : Avl.Heap
  map : Map.Store
  nodes : Addr → ZNode
  fresh : Addr

/-- `name` is a copy of the caller's string in a buffer of its own. -/
structure Key where
  code : Nat
  name : CxxString
  len : Nat

def initZSet : ZSet where
  tree := none
  heap := fun _ => Avl.init
  map := ⟨fun _ => initNode, initMap⟩
  nodes := fun _ => ⟨⟨0⟩, 0, []⟩
  fresh := 0

def mapCmp (set : ZSet) (key : Key) (node : Addr) : Option Bool :=
  let znode := set.nodes node
  -- the lengths are compared first, so the blocks have one size
  if znode.len ≠ key.len then some false
  else do
    let left ← CxxString.read ⟨znode.name, .guarded⟩ znode.len
    let right ← key.name.read znode.len
    some (memcmp left right = .eq)

/-- `char` is signed, and the sum is taken in 32 bits. -/
def hashStep (hash : Nat) (letter : UInt8) : Nat :=
  (hash + (if letter.toNat < 128 then letter.toNat else letter.toNat + (2 ^ 32 - 256))) * 0x01000193 % 2 ^ 32

def stringHash (data : Bytes) : Nat := data.foldl hashStep 0x811C9DC5

/-- `less` against a score and a name of the given length. -/
def lessThan (lhs : ZNode) (score : Double) (name : CxxString) (len : Nat) : Option Bool :=
  -- names decide between equal scores only
  if ¬lhs.score.eq score then some (lhs.score.lt score)
  else do
    let left ← CxxString.read ⟨lhs.name, .guarded⟩ (min lhs.len len)
    let right ← name.read (min lhs.len len)
    match memcmp left right with
    | .lt => some true
    | .gt => some false
    -- a proper prefix comes first
    | .eq => some (decide (lhs.len < len))

def less (lhs rhs : ZNode) : Option Bool := lessThan lhs rhs.score ⟨rhs.name, .guarded⟩ rhs.len

/-- The loop of `treeAdd`: the last node on the way down, and the side on which its link is empty. -/
def findPlace (fuel : Nat) (set : ZSet) (node curr : Addr) : Option (Addr × Bool) := do
  let left ← less (set.nodes node) (set.nodes curr)
  match if left then (set.heap curr).left else (set.heap curr).right with
  | none => some (curr, left)
  | some next =>
    match fuel with
    | 0 => none
    | fuel + 1 => findPlace fuel set node next

/-- The new node becomes the root, or the child that `findPlace` found missing. -/
def attach (fuel : Nat) (set : ZSet) (node : Addr) : Option Avl.Heap :=
  match set.tree with
  | none => some (set.heap.setParent node none)
  | some root => do
    let (curr, left) ← findPlace fuel set node root
    let h := if left then set.heap.setLeft curr (some node) else set.heap.setRight curr (some node)
    some (h.setParent node (some curr))

def treeAdd (fuel : Nat) (set : ZSet) (node : Addr) : Option ZSet := do
  let h ← attach fuel set node
  let (h, root) ← fixAVL fuel h node
  some { set with heap := h, tree := some root }

def create (set : ZSet) (name : CxxString) (len : Nat) (score : Double) : Option (ZSet × Addr) :=
  if MAX_OBJECTS ≤ CMapSize set.map.map then none
  else do
    let node := set.fresh
    -- `std::copy` takes `len` bytes from `begin()`, however long the string is
    let copy ← name.read len
    some ({ set with
      heap := Function.update set.heap node Avl.init
      map.nodes := Function.update set.map.nodes node ⟨none, stringHash name.bytes⟩
      nodes := Function.update set.nodes node ⟨score, len, copy⟩
      fresh := node + 1 }, node)

/-- A comparison that cannot read its bytes stops the search at its node, and the program with it. -/
def compared (cmp : Addr → Option Bool) (found : Option (Store × Option Addr)) : Option (Store × Option Addr) := do
  let (s, node) ← found
  match node with
  | none => some (s, none)
  | some node => (cmp node).map fun _ => (s, some node)

/-- `map::lookup` with `mapCmp`. -/
def mapLookup (set : ZSet) (key : Key) : Option (ZSet × Option Addr) :=
  (compared (mapCmp set key) (CMapLookUp set.map key.code fun node => (mapCmp set key node).getD true)).map
    fun (s, node) => ({ set with map := s }, node)

/-- `map::pop` with `mapCmp`. -/
def mapPop (set : ZSet) (key : Key) : Option (ZSet × Option Addr) :=
  (compared (mapCmp set key) (CMapPop set.map key.code fun node => (mapCmp set key node).getD true)).map
    fun (s, node) => ({ set with map := s }, node)

/-- `copy` is what lies behind the key's own copy of the name. -/
def makeKey (name : CxxString) (copy : Tail) (len : Nat) : Key where
  code := stringHash name.bytes
  name := ⟨name.bytes, copy⟩
  len := len

def lookup (set : ZSet) (name : CxxString) (copy : Tail) (len : Nat) : Option (ZSet × Option Addr) :=
  if set.tree.isNone then some (set, none) else mapLookup set (makeKey name copy len)

/-- No loop over the tree makes more rounds than twice the nodes of the map. -/
def ZSet.rounds (set : ZSet) : Nat := 2 * CMapSize set.map.map + 2

/-- `avl::del` on a node of the set. -/
def treeDel (set : ZSet) (node : Addr) : Option ZSet :=
  (delAVL set.rounds set.rounds set.heap node).map fun (h, root) => { set with heap := h, tree := root }

def update (set : ZSet) (node : Addr) (score : Double) : Option ZSet :=
  if (set.nodes node).score.eq score then some set
  else do
    let set ← treeDel set node
    -- the node is put back with the new score, as if it were new
    treeAdd set.rounds { set with
      nodes := Function.update set.nodes node { set.nodes node with score := score }
      heap := Function.update set.heap node Avl.init } node

/-- The branch of `add` for a new pair. -/
def addNew (set : ZSet) (name : CxxString) (len : Nat) (score : Double) : Option ZSet := do
  let (set, node) ← create set name len score
  let s ← CMapInsert set.map node
  let set := { set with map := s }
  treeAdd set.rounds set node

def add (set : ZSet) (name : CxxString) (copy : Tail) (len : Nat) (score : Double) : Option (ZSet × Bool) := do
  let (set, node) ← lookup set name copy len
  match node with
  | some node => (update set node score).map fun set => (set, false)
  | none => (addNew set name len score).map fun set => (set, true)

def pop (set : ZSet) (name : CxxString) (copy : Tail) (len : Nat) : Option (ZSet × Option Addr) :=
  if set.tree.isNone then some (set, none)
  else do
    let (set, found) ← mapPop set (makeKey name copy len)
    match found with
    | none => some (set, none)
    | some node => (treeDel set node).map fun set => (set, some node)

/-- The loop of `query`; `found` is the last candidate. -/
def queryFrom (fuel : Nat) (set : ZSet) (score : Double) (name : CxxString) (len : Nat) (curr found : Option Addr) :
    Option (Option Addr) :=
  match curr with
  | none => some found
  | some curr =>
    match fuel with
    | 0 => none
    | fuel + 1 => do
      -- a node that is not below the pair is the best candidate so far
      if ← lessThan (set.nodes curr) score name len then
        queryFrom fuel set score name len (set.heap curr).right found
      else queryFrom fuel set score name len (set.heap curr).left (some curr)

def query (set : ZSet) (score : Double) (name : CxxString) (len : Nat) : Option (Option Addr) :=
  queryFrom set.rounds set score name len set.tree none

def offset (set : ZSet) (node : Option Addr) (off : Int) : Option (Option Addr) :=
  match node with
  | none => some none
  | some node => offsetAVL set.rounds set.heap node off 0

end Coxx.Zset

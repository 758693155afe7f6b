import Coxx.Memory
import Mathlib.Logic.Function.Basic

/-! The intrusive hash map of map/c/map.c, over an explicit heap of nodes.

Sizes, masks and hash codes are 64-bit words, so every sum is reduced modulo 2 ^ 64.
A computation is none when the C code would dereference NULL, index a table out
of its bounds or fail an assertion. Loops take fuel; the counters of the map
supply it, and the representation proofs show that it suffices.
-/

set_option autoImplicit false

namespace Coxx.Map

def RESIZING_WORK : Nat := 128
def MAX_LOAD_FACTOR : Nat := 8

structure CNode where
  next : Option Addr
  code : Nat
  deriving DecidableEq, Repr

/-- `table` is the calloc'ed slot array, none while the pointer is NULL. -/
structure CTable where
  table : Option (List (Option Addr))
  mask : Nat
  size : Nat
  deriving DecidableEq, Repr

structure CMap where
  table1 : CTable
  table2 : CTable
  resizingPosition : Nat
  deriving DecidableEq, Repr

abbrev Nodes := Addr → CNode

def Nodes.setNext (nodes : Nodes) (node : Addr) (next : Option Addr) : Nodes :=
  Function.update nodes node { nodes node with next := next }

@[simp] theorem Nodes.setNext_code (nodes : Nodes) (node : Addr) (next : Option Addr) (other : Addr) :
    (nodes.setNext node next other).code = (nodes other).code := by
  by_cases same : other = node
  · subst same; simp [setNext]
  · simp [setNext, same]

theorem Nodes.setNext_next (nodes : Nodes) (node : Addr) (next : Option Addr) :
    (fun other => (nodes.setNext node next other).next) =
      Function.update (fun other => (nodes other).next) node next := by
  funext other
  by_cases same : other = node
  · subst same; simp [setNext]
  · simp [setNext, same]

theorem Nodes.setNext_of_ne (nodes : Nodes) {node other : Addr} (next : Option Addr) (away : other ≠ node) :
    nodes.setNext node next other = nodes other := by
  simp [setNext, away]

/-- A map together with the heap its nodes live in. -/
structure Store where
  nodes : Nodes
  map : CMap

def initTable : CTable := { table := none, mask := 0, size := 0 }

def initMap : CMap := { table1 := initTable, table2 := initTable, resizingPosition := 0 }

def initNode : CNode := { next := none, code := 0 }

/-- `initialize` of map.c; its assertion admits powers of two only. -/
def initializeTable (n : Nat) : Option CTable :=
  if 0 < n ∧ (n - 1) &&& n = 0 then
    some { table := some (List.replicate n none), mask := n - 1, size := 0 }
  else none

def insert (nodes : Nodes) (table : CTable) (node : Addr) : Option (Nodes × CTable) := do
  let position := (nodes node).code &&& table.mask
  let slots ← table.table
  -- the new node goes in front of its chain
  let next ← slots[position]?
  some (nodes.setNext node next,
    { table with table := some (slots.set position (some node)), size := (table.size + 1) % 2 ^ 64 })

/-- A `CNode **`: the address of a slot, or of the `next` field of a node. -/
inductive Link where
  | slot (position : Nat)
  | next (node : Addr)
  deriving DecidableEq, Repr

def Link.read (nodes : Nodes) (slots : List (Option Addr)) : Link → Option (Option Addr)
  | .slot position => slots[position]?
  | .next node => some (nodes node).next

def lookUpFrom (nodes : Nodes) (slots : List (Option Addr)) (code : Nat) (eq : Addr → Bool)
    (fuel : Nat) (link : Link) : Option (Option Link) := do
  match ← link.read nodes slots with
  | none => some none
  | some curr =>
      -- the comparison is called on equal hashes only
      if (nodes curr).code = code ∧ eq curr = true then some (some link)
      else
        match fuel with
        | 0 => none
        | fuel + 1 => lookUpFrom nodes slots code eq fuel (.next curr)

/-- The key enters through its code and the comparison against it. -/
def lookUp (nodes : Nodes) (table : CTable) (code : Nat) (eq : Addr → Bool) : Option (Option Link) :=
  match table.table with
  | none => some none
  | some slots => lookUpFrom nodes slots code eq table.size (.slot (code &&& table.mask))

def detach (nodes : Nodes) (table : CTable) (link : Link) : Option (Addr × Nodes × CTable) := do
  let slots ← table.table
  let node ← ← link.read nodes slots
  let size := (table.size + (2 ^ 64 - 1)) % 2 ^ 64
  match link with
  | .slot position =>
      some (node, nodes, { table with table := some (slots.set position (nodes node).next), size := size })
  -- the link is a field of the node before, so no slot changes
  | .next previous => some (node, nodes.setNext previous (nodes node).next, { table with size := size })

/-- The scan of `helpResizing`; each round moves a node or passes an empty slot. -/
def migrate (fuel work : Nat) (s : Store) : Option Store :=
  if work < RESIZING_WORK ∧ 0 < s.map.table2.size then
    match fuel with
    | 0 => none
    | fuel + 1 => do
      let slots ← s.map.table2.table
      match ← slots[s.map.resizingPosition]? with
      | none =>
          -- an empty slot costs no work
          migrate fuel work { s with map.resizingPosition := (s.map.resizingPosition + 1) % 2 ^ 64 }
      | some _ =>
          let (node, nodes, table2) ← detach s.nodes s.map.table2 (.slot s.map.resizingPosition)
          let (nodes, table1) ← insert nodes s.map.table1 node
          migrate fuel (work + 1) { nodes := nodes, map := { s.map with table1 := table1, table2 := table2 } }
  else some s

def helpResizing (s : Store) : Option Store := do
  let s ← migrate (RESIZING_WORK + (s.map.table2.mask + 1)) 0 s
  -- table2 is freed once nothing is left in it
  if s.map.table2.size = 0 ∧ s.map.table2.table.isSome then
    some { s with map.table2 := initTable }
  else some s

def startResizing (map : CMap) : Option CMap := do
  -- assert(map->table2.table == nullptr)
  if map.table2.table.isSome then none
  else
    let table1 ← initializeTable ((map.table1.mask + 1) * 2 % 2 ^ 64)
    some { table1 := table1, table2 := map.table1, resizingPosition := 0 }

def CMapLookUp (s : Store) (code : Nat) (eq : Addr → Bool) : Option (Store × Option Addr) := do
  let s ← helpResizing s
  match ← lookUp s.nodes s.map.table1 code eq with
  | some link => some (s, ← link.read s.nodes (s.map.table1.table.getD []))
  | none =>
    -- a node that has not been moved yet
    match ← lookUp s.nodes s.map.table2 code eq with
    | some link => some (s, ← link.read s.nodes (s.map.table2.table.getD []))
    | none => some (s, none)

/-- The first insertion allocates table1. -/
def firstTable (table1 : CTable) : Option CTable :=
  if table1.table.isNone then initializeTable 4 else some table1

/-- The load check, made only while no rehash is under way. -/
def checkLoad (map : CMap) : Option CMap :=
  if map.table2.table.isNone then
    let loadFactor := map.table1.size / ((map.table1.mask + 1) % 2 ^ 64)
    if MAX_LOAD_FACTOR ≤ loadFactor then startResizing map else some map
  else some map

def CMapInsert (s : Store) (node : Addr) : Option Store := do
  let table1 ← firstTable s.map.table1
  let (nodes, table1) ← insert s.nodes table1 node
  let map ← checkLoad { s.map with table1 := table1 }
  helpResizing { nodes := nodes, map := map }

def CMapPop (s : Store) (code : Nat) (eq : Addr → Bool) : Option (Store × Option Addr) := do
  let s ← helpResizing s
  match ← lookUp s.nodes s.map.table1 code eq with
  | some link =>
      let (node, nodes, table1) ← detach s.nodes s.map.table1 link
      some ({ nodes := nodes, map := { s.map with table1 := table1 } }, some node)
  | none =>
    match ← lookUp s.nodes s.map.table2 code eq with
    | some link =>
        let (node, nodes, table2) ← detach s.nodes s.map.table2 link
        some ({ nodes := nodes, map := { s.map with table2 := table2 } }, some node)
    | none => some (s, none)

def CMapSize (map : CMap) : Nat := (map.table1.size + map.table2.size) % 2 ^ 64

end Coxx.Map

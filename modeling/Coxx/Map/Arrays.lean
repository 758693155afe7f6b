import Coxx.Library.Blocks
import Coxx.Map.CMap

/-! The map of map/c/map.c once more, with its slot arrays on the heap. A table holds the pointer that `calloc` gave it,
and `startResizing` copies that pointer. A computation is none also when the C code would use an array that was freed, or
free it again.
-/

set_option autoImplicit false

namespace Coxx.Map.InHeap

open Library

abbrev Arrays := Blocks (List (Option Addr))

structure CTable where
  table : Option Addr
  mask : Nat
  size : Nat

structure CMap where
  table1 : CTable
  table2 : CTable
  resizingPosition : Nat

structure Store where
  nodes : Nodes
  arrays : Arrays
  map : CMap

def initTable : CTable := { table := none, mask := 0, size := 0 }

def initMap : CMap := { table1 := initTable, table2 := initTable, resizingPosition := 0 }

/-- `calloc` may return NULL, which `initialize` does not look at. -/
def initializeTable (place : Allocator) (arrays : Arrays) (n : Nat) : Option (Arrays × CTable) :=
  if 0 < n ∧ (n - 1) &&& n = 0 then
    let (arrays, table) := arrays.allocate place (List.replicate n none)
    some (arrays, { table := table, mask := n - 1, size := 0 })
  else none

def setSlot (arrays : Arrays) (table position : Nat) (node : Option Addr) : Option Arrays := do
  let slots ← arrays.load table
  if position < slots.length then arrays.store table (slots.set position node) else none

def insert (nodes : Nodes) (arrays : Arrays) (table : CTable) (node : Addr) : Option (Nodes × Arrays × CTable) := do
  let position := (nodes node).code &&& table.mask
  let array ← table.table
  let slots ← arrays.load array
  let next ← slots[position]?
  let arrays ← setSlot arrays array position (some node)
  some (nodes.setNext node next, arrays, { table with size := (table.size + 1) % 2 ^ 64 })

/-- A `CNode **`, into an array or a node. -/
inductive Link where
  | slot (array position : Nat)
  | next (node : Addr)

def Link.read (nodes : Nodes) (arrays : Arrays) : Link → Option (Option Addr)
  | .slot array position => do
    let slots ← arrays.load array
    slots[position]?
  | .next node => some (nodes node).next

def Link.write (nodes : Nodes) (arrays : Arrays) (target : Option Addr) : Link → Option (Nodes × Arrays)
  | .slot array position => (setSlot arrays array position target).map fun arrays => (nodes, arrays)
  | .next node => some (nodes.setNext node target, arrays)

def lookUpFrom (nodes : Nodes) (arrays : Arrays) (code : Nat) (eq : Addr → Bool) (fuel : Nat) (link : Link) :
    Option (Option Link) := do
  match ← link.read nodes arrays with
  | none => some none
  | some curr =>
      if (nodes curr).code = code ∧ eq curr = true then some (some link)
      else
        match fuel with
        | 0 => none
        | fuel + 1 => lookUpFrom nodes arrays code eq fuel (.next curr)

def lookUp (nodes : Nodes) (arrays : Arrays) (table : CTable) (code : Nat) (eq : Addr → Bool) : Option (Option Link) :=
  match table.table with
  | none => some none
  | some array => lookUpFrom nodes arrays code eq table.size (.slot array (code &&& table.mask))

def detach (nodes : Nodes) (arrays : Arrays) (table : CTable) (link : Link) : Option (Addr × Nodes × Arrays × CTable) := do
  let node ← ← link.read nodes arrays
  let (nodes, arrays) ← link.write nodes arrays (nodes node).next
  some (node, nodes, arrays, { table with size := (table.size + (2 ^ 64 - 1)) % 2 ^ 64 })

def migrate (fuel work : Nat) (s : Store) : Option Store :=
  if work < RESIZING_WORK ∧ 0 < s.map.table2.size then
    match fuel with
    | 0 => none
    | fuel + 1 => do
      let array ← s.map.table2.table
      match ← Link.read s.nodes s.arrays (.slot array s.map.resizingPosition) with
      | none => migrate fuel work { s with map.resizingPosition := (s.map.resizingPosition + 1) % 2 ^ 64 }
      | some _ =>
          let (node, nodes, arrays, table2) ←
            detach s.nodes s.arrays s.map.table2 (.slot array s.map.resizingPosition)
          let (nodes, arrays, table1) ← insert nodes arrays s.map.table1 node
          migrate fuel (work + 1)
            { nodes := nodes, arrays := arrays, map := { s.map with table1 := table1, table2 := table2 } }
  else some s

/-- `free` does nothing to NULL. -/
def free (arrays : Arrays) : Option Addr → Option Arrays
  | none => some arrays
  | some array => arrays.free array

def helpResizing (s : Store) : Option Store := do
  let s ← migrate (RESIZING_WORK + (s.map.table2.mask + 1)) 0 s
  if s.map.table2.size = 0 ∧ s.map.table2.table.isSome then
    let arrays ← free s.arrays s.map.table2.table
    some { s with arrays := arrays, map.table2 := initTable }
  else some s

def startResizing (place : Allocator) (arrays : Arrays) (map : CMap) : Option (Arrays × CMap) :=
  if map.table2.table.isSome then none
  else do
    -- both tables have the same array until table1 gets its own
    let map := { map with table2 := map.table1 }
    let (arrays, table1) ← initializeTable place arrays ((map.table1.mask + 1) * 2 % 2 ^ 64)
    some (arrays, { map with table1 := table1, resizingPosition := 0 })

def CMapLookUp (s : Store) (code : Nat) (eq : Addr → Bool) : Option (Store × Option Addr) := do
  let s ← helpResizing s
  match ← lookUp s.nodes s.arrays s.map.table1 code eq with
  | some link => some (s, ← link.read s.nodes s.arrays)
  | none =>
    match ← lookUp s.nodes s.arrays s.map.table2 code eq with
    | some link => some (s, ← link.read s.nodes s.arrays)
    | none => some (s, none)

def firstTable (place : Allocator) (arrays : Arrays) (table1 : CTable) : Option (Arrays × CTable) :=
  if table1.table.isNone then initializeTable place arrays 4 else some (arrays, table1)

def checkLoad (place : Allocator) (arrays : Arrays) (map : CMap) : Option (Arrays × CMap) :=
  if map.table2.table.isNone then
    let loadFactor := map.table1.size / ((map.table1.mask + 1) % 2 ^ 64)
    if MAX_LOAD_FACTOR ≤ loadFactor then startResizing place arrays map else some (arrays, map)
  else some (arrays, map)

def CMapInsert (place : Allocator) (s : Store) (node : Addr) : Option Store := do
  let (arrays, table1) ← firstTable place s.arrays s.map.table1
  let (nodes, arrays, table1) ← insert s.nodes arrays table1 node
  let (arrays, map) ← checkLoad place arrays { s.map with table1 := table1 }
  helpResizing { nodes := nodes, arrays := arrays, map := map }

def CMapPop (s : Store) (code : Nat) (eq : Addr → Bool) : Option (Store × Option Addr) := do
  let s ← helpResizing s
  match ← lookUp s.nodes s.arrays s.map.table1 code eq with
  | some link =>
      let (node, nodes, arrays, table1) ← detach s.nodes s.arrays s.map.table1 link
      some ({ nodes := nodes, arrays := arrays, map := { s.map with table1 := table1 } }, some node)
  | none =>
    match ← lookUp s.nodes s.arrays s.map.table2 code eq with
    | some link =>
        let (node, nodes, arrays, table2) ← detach s.nodes s.arrays s.map.table2 link
        some ({ nodes := nodes, arrays := arrays, map := { s.map with table2 := table2 } }, some node)
    | none => some (s, none)

def CMapSize (map : CMap) : Nat := (map.table1.size + map.table2.size) % 2 ^ 64

/-- The nodes stay with their owners. -/
def CMapDestroy (s : Store) : Option Store := do
  let arrays ← free s.arrays s.map.table1.table
  let arrays ← free arrays s.map.table2.table
  some { s with arrays := arrays, map := initMap }

end Coxx.Map.InHeap

import Coxx.Memory

/-! The map of map/cxx/map.cxx, whose chains are owned through nested unique pointers.

A unique pointer is the node it owns followed by what that node's `next` owns; a moved-from
or null pointer is the empty list. Pointers have one owner each, so tables and maps are
plain values, and a local pointer that goes out of scope takes its whole list with it. A
computation is none when the code would dereference null, index a vector out of its bounds
or fail an assertion.
-/

set_option autoImplicit false

namespace Coxx.CxxMap

def RESIZING_WORK : Nat := 128
def MAX_LOAD_FACTOR : Nat := 8

structure Node where
  address : Addr
  code : Nat
  deriving DecidableEq, Repr

/-- A `std::unique_ptr<Node>`. -/
abbrev Owned := List Node

structure Table where
  table : List Owned := []
  mask : Nat := 0
  size : Nat := 0
  deriving DecidableEq, Repr

structure Map where
  table1 : Table := {}
  table2 : Table := {}
  resizingPosition : Nat := 0
  deriving DecidableEq, Repr

/-- `initialize` of map.cxx; its assertion admits powers of two only. -/
def initializeTable (table : Table) (n : Nat) : Option Table :=
  if 0 < n ∧ (n - 1) &&& n = 0 then
    some { table := table.table.take n ++ List.replicate (n - table.table.length) [], mask := n - 1, size := 0 }
  else none

/-- Assigning `node->next` destroys what the node owned before. -/
def insert (table : Table) : Owned → Option Table
  | [] => none
  | node :: _ => do
    let position := node.code &&& table.mask
    let next ← table.table[position]?
    some { table with table := table.table.set position (node :: next), size := (table.size + 1) % 2 ^ 64 }

/-- The loop of `lookUp` along a chain: what stays in it, and the pointer that is moved out. -/
def walk (code : Nat) (equal : Node → Bool) : Owned → Owned × Owned
  | [] => ([], [])
  | node :: next =>
    if node.code = code ∧ equal node = true then ([], node :: next)
    else (node :: (walk code equal next).1, (walk code equal next).2)

/-- The key enters through its code and the comparison against it. -/
def lookUp (table : Table) (code : Nat) (equal : Node → Bool) : Option (Table × Owned) :=
  if table.table.isEmpty then some (table, [])
  else do
    let position := code &&& table.mask
    let chain ← table.table[position]?
    let (kept, found) := walk code equal chain
    some ({ table with table := table.table.set position kept }, found)

/-- The table, what is left in `from`, and the node. -/
def detach (table : Table) : Owned → Table × Owned × Owned
  | [] => (table, [], [])
  | node :: next => ({ table with size := (table.size + (2 ^ 64 - 1)) % 2 ^ 64 }, next, [node])

/-- The loop of `helpResizing`; each round moves a node or passes an empty slot, and the fuel
lasts until the loop ends or leaves the vector. -/
def migrate (fuel work : Nat) (map : Map) : Option Map :=
  if work < RESIZING_WORK ∧ 0 < map.table2.size then
    match fuel with
    | 0 => none
    | fuel + 1 => do
      match ← map.table2.table[map.resizingPosition]? with
      | [] => migrate fuel work { map with resizingPosition := (map.resizingPosition + 1) % 2 ^ 64 }
      | node :: next =>
          let (table2, rest, moved) := detach map.table2 (node :: next)
          let table1 ← insert map.table1 moved
          let table2 := { table2 with table := table2.table.set map.resizingPosition rest }
          migrate fuel (work + 1) { map with table1 := table1, table2 := table2 }
  else some map

def helpResizing (map : Map) : Option Map := do
  let map ← migrate (RESIZING_WORK + map.table2.table.length) 0 map
  if map.table2.size = 0 ∧ map.table2.table.isEmpty = false then some { map with table2 := {} } else some map

def startResizing (map : Map) : Option Map :=
  -- assert(map.table2.table.empty())
  if map.table2.table.isEmpty = false then none
  else do
    -- the vector has been moved out of table1, its mask is still there
    let table1 ← initializeTable { map.table1 with table := [] } ((map.table1.mask + 1) * 2 % 2 ^ 64)
    some { table1 := table1, table2 := map.table1, resizingPosition := 0 }

def mapLookUp (map : Map) (code : Nat) (equal : Node → Bool) : Option (Map × Owned) := do
  let map ← helpResizing map
  let (table1, found) ← lookUp map.table1 code equal
  match found with
  | _ :: _ => some ({ map with table1 := table1 }, found)
  | [] =>
    let (table2, found) ← lookUp map.table2 code equal
    some ({ map with table1 := table1, table2 := table2 }, found)

def checkLoad (map : Map) : Option Map :=
  if map.table2.table.isEmpty then
    let loadFactor := map.table1.size / ((map.table1.mask + 1) % 2 ^ 64)
    if MAX_LOAD_FACTOR ≤ loadFactor then startResizing map else some map
  else some map

def firstTable (table1 : Table) : Option Table :=
  if table1.table.isEmpty then initializeTable table1 4 else some table1

def mapInsert (map : Map) (node : Owned) : Option Map := do
  let table1 ← firstTable map.table1
  let table1 ← insert table1 node
  let map ← checkLoad { map with table1 := table1 }
  helpResizing map

/-- `detach` works on a local pointer here; what it leaves in it is destroyed on return. -/
def mapPop (map : Map) (code : Nat) (equal : Node → Bool) : Option (Map × Owned) := do
  let map ← helpResizing map
  let (table1, found) ← lookUp map.table1 code equal
  match found with
  | _ :: _ =>
      let (table1, _, node) := detach table1 found
      some ({ map with table1 := table1 }, node)
  | [] =>
    let (table2, found) ← lookUp map.table2 code equal
    match found with
    | _ :: _ =>
        let (table2, _, node) := detach table2 found
        some ({ map with table1 := table1, table2 := table2 }, node)
    | [] => some ({ map with table1 := table1, table2 := table2 }, [])

def mapSize (map : Map) : Nat := (map.table1.size + map.table2.size) % 2 ^ 64

/-! ### Runs -/

def Map.nodes (map : Map) : List Node := map.table1.table.flatten ++ map.table2.table.flatten

def Matches (code : Nat) (equal : Node → Bool) (node : Node) : Prop := node.code = code ∧ equal node = true

instance (code : Nat) (equal : Node → Bool) : DecidablePred (Matches code equal) :=
  fun _ => inferInstanceAs (Decidable (_ ∧ _))

inductive Call where
  /-- The client hands a node over, with whatever that node still owns. -/
  | insert (node : Node) (next : Owned)
  | lookUp (code : Nat) (equal : Node → Bool)
  | pop (code : Nat) (equal : Node → Bool)

def Call.run (map : Map) : Call → Option (Map × Owned)
  | .insert node next => do some (← mapInsert map (node :: next), [])
  | .lookUp code equal => mapLookUp map code equal
  | .pop code equal => mapPop map code equal

/-- A new node is a live object of its own, at an address of the 64-bit machine. -/
def Call.Allowed (present : List Node) : Call → Prop
  | .insert node _ => node.address ∉ present.map (·.address) ∧ 0 < node.address ∧ node.address < 2 ^ 64
  | .lookUp _ _ | .pop _ _ => True

/-- What the client takes the map to hold after a call: it was given the first node of the answer. -/
def Call.present (present : List Node) (answer : Owned) : Call → List Node
  | .insert node _ => node :: present
  | .lookUp _ _ | .pop _ _ =>
    match answer with
    | [] => present
    | node :: _ => present.erase node

/-- States of an initially empty map under calls that meet `good`. -/
inductive Ran (good : Map → Call → Prop) : Map → List Node → Prop where
  | empty : Ran good {} []
  | call {map map' : Map} {present : List Node} {call : Call} {answer : Owned} : Ran good map present →
      call.Allowed present → good map call → call.run map = some (map', answer) →
      Ran good map' (call.present present answer)

end Coxx.CxxMap

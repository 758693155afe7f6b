import Coxx.Common.Serving

/-! The objects of the database: entries and the nodes of their sorted sets, which the commands allocate and free. What they
do to the objects is what common/req.cxx does; the memory of an object that was freed may hold anything.
-/

set_option autoImplicit false

namespace Coxx.Common

open Map Zset

/-- What `new` makes. The sorted set of an entry is a part of it, for it is destroyed with it. -/
inductive Object where
  | entry (entry : Addr)
  | member (entry node : Addr)
  deriving DecidableEq, Repr

structure Memory where
  cm : CommandMap
  /-- the objects that were made and not freed -/
  live : List Object

namespace InHeap

/-- `delete` of an Entry, and `free` of a ZNode; none for an object that is not live. -/
def free (m : Memory) (object : Object) : Option Memory :=
  if object ∈ m.live then some { m with live := m.live.erase object } else none

def insert (m : Memory) (entry : Entry) : Option Memory :=
  (Request.insert m.cm entry).map fun cm => ⟨cm, .entry m.cm.fresh :: m.live⟩

/-- `zset::add` makes a node for a new name. -/
def addMember (m : Memory) (around : Surroundings) (node : Addr) (score : Double) (name output : Bytes) :
    Option (Memory × Bytes) := do
  let set ← (m.cm.entries node).set
  let (set', added) ← Zset.add set ⟨cString name, around.name⟩ around.copy name.length score
  let live := if added then .member node set.fresh :: m.live else m.live
  some (⟨Request.setZSet m.cm node set', live⟩, Out.num output (if added then 1 else 0))

def zadd (m : Memory) (around : Surroundings) (key score name output : Bytes) : Option (Memory × Bytes) :=
  match strToDouble score with
  | none => some (m, Out.err output Error.ARG.code (text "expect fp number"))
  | some score => do
    let (cm, node) ← Request.lookup m.cm key
    match node with
    | none =>
      let node := cm.fresh
      let m ← insert { m with cm := cm } { key := key, type := .ZSET, val := [], set := some initZSet }
      addMember m around node score name output
    | some node =>
      if (cm.entries node).type ≠ .ZSET then
        some ({ m with cm := cm }, Out.err output Error.TYPE.code (text "expect zset"))
      else addMember { m with cm := cm } around node score name output

def zrem (m : Memory) (around : Surroundings) (key name output : Bytes) : Option (Memory × Bytes) := do
  let (cm, output, entry) ← Request.expectZSet m.cm key output
  match entry with
  | none => some ({ m with cm := cm }, output)
  | some entry =>
    let set ← (cm.entries entry).set
    let (set, node) ← Zset.pop set ⟨cString name, around.name⟩ around.copy name.length
    let m := { m with cm := Request.setZSet cm entry set }
    match node with
    | none => some (m, Out.num output 0)
    | some node => (free m (.member entry node)).map fun m => (m, Out.num output 1)

def set (m : Memory) (key val output : Bytes) : Option (Memory × Bytes) := do
  let (cm, node) ← Request.lookup m.cm key
  match node with
  | some node =>
    some ({ m with cm := Request.setEntry cm node { cm.entries node with val := val } }, Out.nil output)
  | none =>
    let m ← insert { m with cm := cm } { key := key, type := .STR, val := val, set := none }
    some (m, Out.nil output)

/-- An entry is deleted without the nodes of its sorted set. -/
def del (m : Memory) (key output : Bytes) : Option (Memory × Bytes) := do
  let (s, node) ← CMapPop m.cm.db (stringHash key) fun node => entryEquality (m.cm.entries node) key
  let m := { m with cm := { m.cm with db := s } }
  match node with
  | none => some (m, Out.num output 0)
  | some node => (free m (.entry node)).map fun m => (m, Out.num output 1)

/-- `Request::operator()`. The other commands make and free no objects. -/
def run (m : Memory) (around : Surroundings) (c : Request.Command) (out : Bytes) : Option (Memory × Bytes) :=
  match c with
  | .set key val => set m key val out
  | .del key => del m key out
  | .zadd key score name => zadd m around key score name out
  | .zrem key name => zrem m around key name out
  | c => (c.run m.cm around out).map fun (cm, out) => ({ m with cm := cm }, out)

end InHeap

/-! ### What is left of the memory -/

/-- The live nodes of a sorted set, with what they point to, are as before. -/
structure ZSetKept (live : List Object) (entry : Addr) (set set' : ZSet) : Prop where
  tree : set'.tree = set.tree
  map : set'.map.map = set.map.map
  fresh : set'.fresh = set.fresh
  member : ∀ node, .member entry node ∈ live →
    set'.heap node = set.heap node ∧ set'.map.nodes node = set.map.nodes node ∧ set'.nodes node = set.nodes node

/-- The live objects are as before; the memory of all others may have been overwritten. -/
structure LiveKept (live : List Object) (cm cm' : CommandMap) : Prop where
  map : cm'.db.map = cm.db.map
  fresh : cm'.fresh = cm.fresh
  node : ∀ entry, .entry entry ∈ live → cm'.db.nodes entry = cm.db.nodes entry
  key : ∀ entry, .entry entry ∈ live → (cm'.entries entry).key = (cm.entries entry).key
  type : ∀ entry, .entry entry ∈ live → (cm'.entries entry).type = (cm.entries entry).type
  val : ∀ entry, .entry entry ∈ live → (cm'.entries entry).val = (cm.entries entry).val
  set : ∀ entry, .entry entry ∈ live → Option.Rel (ZSetKept live entry) (cm.entries entry).set (cm'.entries entry).set

/-- Runs of requests whose names hold no NUL bytes. Between two of them, memory that is free is overwritten. -/
inductive MemoryRun : Memory → List Done → Prop where
  | start : MemoryRun ⟨initCommandMap, []⟩ []
  | step {m m' : Memory} {trace : List Done} {around : Surroundings} {commandList : List Bytes} {reply : Bytes} :
      MemoryRun m trace → (∀ name ∈ (Request.command commandList).names, Clean name) →
      InHeap.run m around (Request.command commandList) [] = some (m', reply) →
      MemoryRun m' (trace ++ [⟨commandList, reply⟩])
  | overwritten {m : Memory} {trace : List Done} {cm : CommandMap} : MemoryRun m trace → LiveKept m.live m.cm cm →
      MemoryRun { m with cm := cm } trace

/-- The pointers of the database lead to the object. -/
def Leads (cm : CommandMap) : Object → Prop
  | .entry entry => ∃ visited, Map.Visits cm.db visited ∧ entry ∈ visited
  | .member entry node => (∃ visited, Map.Visits cm.db visited ∧ entry ∈ visited) ∧
      ∃ set visited, (cm.entries entry).set = some set ∧ Map.Visits set.map visited ∧ node ∈ visited

/-! ### What the store says of it -/

namespace Contents

def dropped (contents : Contents) : Request.Command → Nat
  | .del key => match contents key with
    | some (.zset _ members) => members.list.length
    | _ => 0
  | _ => 0

/-- What the keys stand for after the requests, and the number of members that were dropped. -/
def history (trace : List Done) : Contents × Nat :=
  trace.foldl (fun (contents, count) done =>
    (contents.after done.command, count + contents.dropped done.command)) (empty, 0)

theorem history_concat (trace : List Done) (done : Done) :
    history (trace ++ [done]) = ((history trace).1.after done.command,
      (history trace).2 + (history trace).1.dropped done.command) := by
  simp [history]

end Contents

end Coxx.Common

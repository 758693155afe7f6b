import Coxx.Common.Numbers
import Coxx.Common.Serialize
import Coxx.Zset.ZSet

/-! The commands of common/req.cxx on the database of entries.

The database is the static `commandMap`. A computation is none when the C++ code would
use up the memory, read past the end of a string or dereference NULL.
-/

set_option autoImplicit false

namespace Coxx.Common

open Map Zset

inductive KeyType where
  | STR
  | ZSET
  deriving DecidableEq, Repr

/-- The data of an Entry; its `node` part is in the map. -/
structure Entry where
  key : Bytes
  type : KeyType
  val : Bytes
  set : Option ZSet

structure CommandMap where
  db : Map.Store
  entries : Addr → Entry
  fresh : Addr

def initCommandMap : CommandMap where
  db := ⟨fun _ => initNode, initMap⟩
  entries := fun _ => ⟨[], .STR, [], none⟩
  fresh := 0

/-- What lies behind the strings of a command: behind the name that the sorted set is given, and behind its
copy in the key. -/
structure Surroundings where
  name : Tail
  copy : Tail

def MAX_MESSAGE_SIZE : Nat := 4096
def MAX_NUM_ARGS : Nat := 1024

inductive Error where
  | UNKNOWN
  | TOO_BIG
  | TYPE
  | ARG
  deriving DecidableEq, Repr

def Error.code : Error → Int
  | UNKNOWN => 1
  | TOO_BIG => 2
  | TYPE => 3
  | ARG => 4

/-- The bytes of a string literal of the source. -/
def text (literal : String) : Bytes := literal.toList.map fun c => UInt8.ofNat c.toNat

def entryEquality (lhs : Entry) (key : Bytes) : Bool := lhs.key == key

/-! ### The walk over a table -/

/-- The inner loop of `scan`. -/
def scanChain (fuel : Nat) (nodes : Nodes) (visit : Bytes → Addr → Bytes) (node : Option Addr) (arg : Bytes) :
    Option Bytes :=
  match node with
  | none => some arg
  | some node =>
    match fuel with
    | 0 => none
    | fuel + 1 => scanChain fuel nodes visit (nodes node).next (visit arg node)

/-- The outer loop of `scan`, for the slots from `i` on. -/
def scanSlots (left : Nat) (nodes : Nodes) (table : CTable) (visit : Bytes → Addr → Bytes) (i : Nat) (arg : Bytes) :
    Option Bytes :=
  match left with
  | 0 => some arg
  | left + 1 => do
    let slots ← table.table
    let node ← slots[i]?
    let arg ← scanChain table.size nodes visit node arg
    scanSlots left nodes table visit (i + 1) arg

def scan (nodes : Nodes) (table : CTable) (visit : Bytes → Addr → Bytes) (arg : Bytes) : Option Bytes :=
  if table.size = 0 then some arg else scanSlots (table.mask + 1) nodes table visit 0 arg

namespace Request

/-! ### Entries -/

def lookup (cm : CommandMap) (key : Bytes) : Option (CommandMap × Option Addr) :=
  (CMapLookUp cm.db (stringHash key) fun node => entryEquality (cm.entries node) key).map
    fun (s, node) => ({ cm with db := s }, node)

/-- A `new Entry()`, filled in and inserted. -/
def insert (cm : CommandMap) (entry : Entry) : Option CommandMap :=
  if MAX_OBJECTS ≤ CMapSize cm.db.map then none
  else
    let nodes := Function.update cm.db.nodes cm.fresh ⟨none, stringHash entry.key⟩
    (CMapInsert { cm.db with nodes := nodes } cm.fresh).map fun s =>
      { db := s, entries := Function.update cm.entries cm.fresh entry, fresh := cm.fresh + 1 }

def setEntry (cm : CommandMap) (node : Addr) (entry : Entry) : CommandMap :=
  { cm with entries := Function.update cm.entries node entry }

def setZSet (cm : CommandMap) (node : Addr) (set : ZSet) : CommandMap :=
  setEntry cm node { cm.entries node with set := some set }

/-- The entry is none when the function returns false. -/
def expectZSet (cm : CommandMap) (s output : Bytes) : Option (CommandMap × Bytes × Option Addr) := do
  let (cm, node) ← lookup cm s
  match node with
  | none => some (cm, Out.nil output, none)
  | some node =>
    if (cm.entries node).type ≠ .ZSET then
      some (cm, Out.err output Error.TYPE.code (text "expect zset"), none)
    else some (cm, output, some node)

/-! ### Commands -/

/-- The end of `zadd`. The name reaches the set through `data()`, and its size beside it. -/
def addMember (cm : CommandMap) (around : Surroundings) (node : Addr) (score : Double) (name output : Bytes) :
    Option (CommandMap × Bytes) := do
  let set ← (cm.entries node).set
  let (set, added) ← Zset.add set ⟨cString name, around.name⟩ around.copy name.length score
  some (setZSet cm node set, Out.num output (if added then 1 else 0))

def zadd (cm : CommandMap) (around : Surroundings) (key score name output : Bytes) : Option (CommandMap × Bytes) :=
  match strToDouble score with
  | none => some (cm, Out.err output Error.ARG.code (text "expect fp number"))
  | some score => do
    let (cm, node) ← lookup cm key
    match node with
    | none =>
      -- the entry is made before the name is added to its set
      let node := cm.fresh
      let cm ← insert cm { key := key, type := .ZSET, val := [], set := some initZSet }
      addMember cm around node score name output
    | some node =>
      if (cm.entries node).type ≠ .ZSET then
        some (cm, Out.err output Error.TYPE.code (text "expect zset"))
      else addMember cm around node score name output

def zrem (cm : CommandMap) (around : Surroundings) (key name output : Bytes) : Option (CommandMap × Bytes) := do
  let (cm, output, entry) ← expectZSet cm key output
  match entry with
  | none => some (cm, output)
  | some entry =>
    let set ← (cm.entries entry).set
    let (set, node) ← Zset.pop set ⟨cString name, around.name⟩ around.copy name.length
    some (setZSet cm entry set, Out.num output (if node.isSome then 1 else 0))

def zscore (cm : CommandMap) (around : Surroundings) (key name output : Bytes) : Option (CommandMap × Bytes) := do
  let (cm, output, entry) ← expectZSet cm key output
  match entry with
  | none => some (cm, output)
  | some entry =>
    let set ← (cm.entries entry).set
    let (set, node) ← Zset.lookup set ⟨cString name, around.name⟩ around.copy name.length
    match node with
    | none => some (setZSet cm entry set, Out.nil output)
    | some node => some (setZSet cm entry set, Out.dbl output (set.nodes node).score)

/-- The output loop of `zquery`, with the counter it keeps. -/
def outputMembers (fuel : Nat) (set : ZSet) (limit : Int) (node : Option Addr) (n : Nat) (output : Bytes) :
    Option (Bytes × Nat) :=
  match node with
  | none => some (output, n)
  | some node =>
    if (n : Int) < limit then
      match fuel with
      | 0 => none
      | fuel + 1 => do
        -- two values for each member, and the counter is a uint32_t
        let next ← Zset.offset set (some node) 1
        outputMembers fuel set limit next ((n + 2) % 2 ^ 32)
          (Out.dbl (Out.str output (set.nodes node).name) (set.nodes node).score)
    else some (output, n)

/-- `zquery` once the set is found and the limit is positive. -/
def queryMembers (set : ZSet) (around : Surroundings) (score : Double) (name : Bytes) (off limit : Int)
    (output : Bytes) : Option Bytes := do
  let node ← Zset.query set score ⟨cString name, around.name⟩ name.length
  let node ← Zset.offset set node off
  let (output, arr) := Out.begin_arr output
  let (output, n) ← outputMembers set.rounds set limit node 0 output
  Out.end_arr output arr n

def zquery (cm : CommandMap) (around : Surroundings) (key score name off limit output : Bytes) :
    Option (CommandMap × Bytes) :=
  match strToDouble score with
  | none => some (cm, Out.err output Error.ARG.code (text "expect fp number"))
  | some score =>
    match strToInt off, strToInt limit with
    | some off, some limit => do
      let (cm, output, entry) ← expectZSet cm key output
      match entry with
      | none =>
        -- a missing key is an empty array here, unlike in the other commands
        if output[0]? = some Serialize.NIL.tag then some (cm, Out.arr [] 0) else some (cm, output)
      | some entry =>
        if limit ≤ 0 then some (cm, Out.arr output 0)
        else
          let set ← (cm.entries entry).set
          (queryMembers set around score name off limit output).map fun output => (cm, output)
    | _, _ => some (cm, Out.err output Error.ARG.code (text "expect int"))

/-- strcasecmp on the C strings. -/
def isCommand (word : Bytes) (command : String) : Bool :=
  (cString word).map toLower == (text command).map toLower

def keyScan (cm : CommandMap) (output : Bytes) (node : Addr) : Bytes := Out.str output (cm.entries node).key

def keys (cm : CommandMap) (output : Bytes) : Option (CommandMap × Bytes) := do
  let output := Out.arr output (CMapSize cm.db.map)
  let output ← scan cm.db.nodes cm.db.map.table1 (keyScan cm) output
  let output ← scan cm.db.nodes cm.db.map.table2 (keyScan cm) output
  some (cm, output)

def get (cm : CommandMap) (key output : Bytes) : Option (CommandMap × Bytes) := do
  let (cm, node) ← lookup cm key
  match node with
  | none => some (cm, Out.nil output)
  | some node => some (cm, Out.str output (cm.entries node).val)

def set (cm : CommandMap) (key val output : Bytes) : Option (CommandMap × Bytes) := do
  let (cm, node) ← lookup cm key
  match node with
  -- an entry that exists keeps its type
  | some node => some (setEntry cm node { cm.entries node with val := val }, Out.nil output)
  | none =>
    let cm ← insert cm { key := key, type := .STR, val := val, set := none }
    some (cm, Out.nil output)

def del (cm : CommandMap) (key output : Bytes) : Option (CommandMap × Bytes) := do
  let (s, node) ← CMapPop cm.db (stringHash key) fun node => entryEquality (cm.entries node) key
  some ({ cm with db := s }, Out.num output (if node.isSome then 1 else 0))

/-- What `Request::operator()` makes of the words it is given. -/
inductive Command where
  | keys
  | get (key : Bytes)
  | set (key val : Bytes)
  | del (key : Bytes)
  | zadd (key score name : Bytes)
  | zrem (key name : Bytes)
  | zscore (key name : Bytes)
  | zquery (key score name off limit : Bytes)
  | unknown

/-- The tests of `Request::operator()`; no two of them hold together. -/
def command (commandList : List Bytes) : Command :=
  match commandList with
  | [word] => if isCommand word "keys" then .keys else .unknown
  | [word, key] => if isCommand word "get" then .get key else if isCommand word "del" then .del key else .unknown
  | [word, key, arg] =>
    if isCommand word "set" then .set key arg
    else if isCommand word "zrem" then .zrem key arg
    else if isCommand word "zscore" then .zscore key arg
    else .unknown
  | [word, key, score, name] => if isCommand word "zadd" then .zadd key score name else .unknown
  | [word, key, score, name, off, limit] =>
    if isCommand word "zquery" then .zquery key score name off limit else .unknown
  | _ => .unknown

def Command.run (cm : CommandMap) (around : Surroundings) (out : Bytes) : Command → Option (CommandMap × Bytes)
  | .keys => Request.keys cm out
  | .get key => Request.get cm key out
  | .set key val => Request.set cm key val out
  | .del key => Request.del cm key out
  | .zadd key score name => Request.zadd cm around key score name out
  | .zrem key name => Request.zrem cm around key name out
  | .zscore key name => Request.zscore cm around key name out
  | .zquery key score name off limit => Request.zquery cm around key score name off limit out
  | .unknown => some (cm, Out.err out Error.UNKNOWN.code (text "Unknown cmd"))

def run (cm : CommandMap) (around : Surroundings) (commandList : List Bytes) (out : Bytes) :
    Option (CommandMap × Bytes) :=
  (command commandList).run cm around out

/-! ### Parsing -/

/-- The loop of `parse`; none is the result -1. -/
def parseArgs (requestData : Bytes) (length : Nat) (count currentPosition : Nat) (outputData : List Bytes) :
    Option (List Bytes × Nat) :=
  match count with
  | 0 => some (outputData, currentPosition)
  | count + 1 =>
    if currentPosition + 4 > length then none
    else
      let sizeOfData := Library.decode ((requestData.drop currentPosition).take 4)
      if currentPosition + 4 + sizeOfData > length then none
      else
        -- unlike the test before it, `4 + sizeOfData` is a sum in 32 bits
        parseArgs requestData length count (currentPosition + (4 + sizeOfData) % 2 ^ 32)
          (outputData ++ [(requestData.drop (currentPosition + 4)).take sizeOfData])

/-- `requestData` holds at least `length` bytes. -/
def parse (requestData : Bytes) (length : Nat) : Option (List Bytes) :=
  if length < 4 then none
  else
    let count := Library.decode (requestData.take 4)
    if count > MAX_NUM_ARGS then none
    else
      match parseArgs requestData length count 4 [] with
      | none => none
      -- bytes behind the last string are refused
      | some (outputData, currentPosition) => if currentPosition ≠ length then none else some outputData

end Request

structure Done where
  commandList : List Bytes
  reply : Bytes

end Coxx.Common

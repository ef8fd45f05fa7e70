/-
  TABLES: values of the keys `1, 2, …` in an array, all others as entries in the order of their insertion.
  An entry whose value is cleared stays, so that a walk can pass it.
-/
import LuaMachine.Value.Basic

namespace LuaMachine

inductive TableFault where
  | nilKey
  | nanKey
  | unknownKey
deriving DecidableEq, Repr

namespace TableFault

def text : TableFault → String
  | nilKey => "table index is nil"
  | nanKey => "table index is NaN"
  | unknownKey => "invalid key to 'next'"

end TableFault

/-- A table. -/
structure Table where
  /-- Values of the keys from 1 on. -/
  array : Array Value
  /-- Other keys with their values, oldest first; nil marks a cleared entry. -/
  entries : List (Value × Value)
  /-- Number of cleared entries. -/
  dead : Nat
deriving Inhabited

namespace Table

def empty : Table := ⟨#[], [], 0⟩

/-- The key under which a value is kept. -/
def normalize : Value → Except TableFault Value
  | .nil => .error .nilKey
  | .float d =>
    if d.isNaN then .error .nanKey
    else
      match d.toInt64? with
      | some i => .ok (.int i)
      | none => .ok (.float d)
  | v => .ok v

/-! ## 1. Entries -/

def lookup (key : Value) : List (Value × Value) → Option Value
  | [] => none
  | (k, v) :: rest => if k = key then some v else lookup key rest

def replace (key value : Value) : List (Value × Value) → List (Value × Value)
  | [] => []
  | (k, v) :: rest => if k = key then (k, value) :: rest else (k, v) :: replace key value rest

def indexOf (key : Value) : List (Value × Value) → Option Nat
  | [] => none
  | (k, _) :: rest => if k = key then some 0 else (indexOf key rest).map (· + 1)

def compact (t : Table) : Table :=
  if 8 < t.dead ∧ t.entries.length < t.dead * 2 then
    { t with entries := t.entries.filter fun e => !e.2.isNil, dead := 0 }
  else t

/-- Set the value of a key among the entries. -/
def setEntry (t : Table) (key value : Value) : Table :=
  match lookup key t.entries with
  | some old =>
    let dead :=
      match old.isNil, value.isNil with
      | false, true => t.dead + 1
      | true, false => t.dead - 1
      | _, _ => t.dead
    { t with entries := replace key value t.entries, dead := dead }
  | none =>
    if value.isNil then t
    else
      let t := t.compact
      { t with entries := t.entries ++ [(key, value)] }

/-! ## 2. Reading and writing -/

def inArray (t : Table) (i : Int64) : Bool := 1 ≤ i.toInt ∧ i.toInt ≤ t.array.size

def getEntry (t : Table) (key : Value) : Value := (lookup key t.entries).getD .nil

def getInt (t : Table) (i : Int64) : Value :=
  if t.inArray i then t.array[i.toInt.toNat - 1]?.getD .nil else t.getEntry (.int i)

def get (t : Table) (key : Value) : Value :=
  match normalize key with
  | .ok (.int i) => t.getInt i
  | .ok k => t.getEntry k
  | .error _ => .nil

/-- Append a value to the array; an entry of its key is cleared. -/
def push (t : Table) (value : Value) : Table :=
  let key := Value.int (Int64.ofNat (t.array.size + 1))
  match lookup key t.entries with
  | some old =>
    { array := t.array.push value
      entries := replace key .nil t.entries
      dead := if old.isNil then t.dead else t.dead + 1 }
  | none => { t with array := t.array.push value }

def isFull (t : Table) : Bool := Int64.maxValue.toInt ≤ t.array.size

/-- Move the entries of the keys that follow the array into it. -/
def migrate : Nat → Table → Table
  | 0, t => t
  | n + 1, t =>
    if t.isFull then t
    else
      match t.getEntry (.int (Int64.ofNat (t.array.size + 1))) with
      | .nil => t
      | v => migrate n (t.push v)

def setInt (t : Table) (i : Int64) (value : Value) : Table :=
  if t.inArray i then { t with array := t.array.modify (i.toInt.toNat - 1) fun _ => value }
  else if i.toInt = t.array.size + 1 ∧ !value.isNil then
    let t := t.push value
    if t.entries.length = t.dead then t else migrate t.entries.length t
  else t.setEntry (.int i) value

def set (t : Table) (key value : Value) : Except TableFault Table :=
  match normalize key with
  | .ok (.int i) => .ok (t.setInt i value)
  | .ok k => .ok (t.setEntry k value)
  | .error f => .error f

def setName (t : Table) (name : String) (value : Value) : Table := t.setEntry (.ofString name) value

def getName (t : Table) (name : String) : Value := t.getEntry (.ofString name)

def ofList (vs : List Value) : Table := go empty 1 vs
where
  go (t : Table) (i : Nat) : List Value → Table
    | [] => t
    | v :: rest => go (t.setInt (Int64.ofNat i) v) (i + 1) rest

/-! ## 3. Length -/

/-- Halve the distance between a place `lo` with a value (or 0) and a place `hi` without one. -/
def search (array : Array Value) : Nat → Nat → Nat → Nat
  | 0, lo, _ => lo
  | n + 1, lo, hi =>
    if hi - lo ≤ 1 then lo
    else
      let mid := (lo + hi) / 2
      if (array[mid - 1]?.getD .nil).isNil then search array n lo mid else search array n mid hi

def climb (t : Table) : Nat → Nat → Nat
  | 0, j => j
  | n + 1, j => if (t.getEntry (.int (Int64.ofNat (j + 1)))).isNil then j else climb t n (j + 1)

def length (t : Table) : Nat :=
  match t.array.back? with
  | some .nil => search t.array t.array.size 0 t.array.size
  | _ => if t.isFull then t.array.size else climb t (t.entries.length + 1) t.array.size

/-! ## 4. Walking -/

/-- Places of a walk: those of the array, then those of the entries. This is the place after a
    key's. -/
def placeAfter (t : Table) (key : Value) : Except TableFault Nat :=
  let entry (k : Value) : Except TableFault Nat :=
    match indexOf k t.entries with
    | some i => .ok (t.array.size + i + 1)
    | none => .error .unknownKey
  match normalize key with
  | .error _ => .error .unknownKey
  | .ok (.int i) => if t.inArray i then .ok i.toInt.toNat else entry (.int i)
  | .ok k => entry k

def firstInArray (t : Table) : Nat → Nat → Option (Value × Value)
  | 0, _ => none
  | n + 1, i =>
    match t.array[i]?.getD .nil with
    | .nil => firstInArray t n (i + 1)
    | v => some (.int (Int64.ofNat (i + 1)), v)

def firstLive (es : List (Value × Value)) : Option (Value × Value) := es.find? fun e => !e.2.isNil

def next (t : Table) (key : Value) : Except TableFault (Option (Value × Value)) := do
  let start ← if key.isNil then .ok 0 else t.placeAfter key
  match t.firstInArray (t.array.size - start) start with
  | some e => return some e
  | none => return firstLive (t.entries.drop (start - t.array.size))

def toList (t : Table) : List (Value × Value) :=
  go t.array.toList 1 ++ t.entries.filter fun e => !e.2.isNil
where
  go : List Value → Nat → List (Value × Value)
    | [], _ => []
    | v :: rest, i => if v.isNil then go rest (i + 1) else (.int (Int64.ofNat i), v) :: go rest (i + 1)

end Table

end LuaMachine

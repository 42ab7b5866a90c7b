import CwlService.Language.Build
import CwlService.Proofs.Node.Keys

/-! # Where types come from

Every reading of a schema makes new types, and a name that is not yet defined in the same
reading stands for what the reading before made of it. An origin is a type with this
history: which reading made each part of it, and which references look forward. `note`
follows a reading and gives the origin of what it makes, and `track` does so for all three
readings. -/
namespace CwlService

/-! ## What a schema defines and refers to -/

namespace Schema

mutual
/-- The names that a reading defines, in the order in which it does. -/
def definitions : Schema → List String
  | .union alternatives => definitionsAll alternatives
  | .array items => definitions items
  | .enum name _ _ => name.text?.toList
  | .record name _ _ fields => definitionsIn fields ++ name.text?.toList
  | _ => []

def definitionsAll : List Schema → List String
  | [] => []
  | s :: rest => definitions s ++ definitionsAll rest

def definitionsIn : List SchemaField → List String
  | [] => []
  | .field _ _ type :: rest => definitions type ++ definitionsIn rest
  | .fault _ :: _ => []
end

mutual
/-- The names that types are referred to by. -/
def references : Schema → List String
  | .ref name => [name]
  | .union alternatives => referencesAll alternatives
  | .array items => references items
  | .record _ _ _ fields => referencesIn fields
  | _ => []

def referencesAll : List Schema → List String
  | [] => []
  | s :: rest => references s ++ referencesAll rest

def referencesIn : List SchemaField → List String
  | [] => []
  | .field _ _ type :: rest => references type ++ referencesIn rest
  | .fault _ :: _ => []
end

/-- Whether parents are among the names that are defined so far. -/
def areSeen (seen : List String) (parents : List Parent) : Bool := parents.all fun p =>
  match p with
  | .named name => seen.contains name
  | .fault _ => true

mutual
/-- Whether every parent is defined before the type that extends it is begun; `seen` are the
names that are defined before. -/
def extendsEarlier (seen : List String) : Schema → Bool
  | .union alternatives => extendEarlier seen alternatives
  | .array items => extendsEarlier seen items
  | .enum _ parents _ => areSeen seen parents
  | .record _ _ parents fields => areSeen seen parents && extendEarlierIn seen fields
  | _ => true

def extendEarlier (seen : List String) : List Schema → Bool
  | [] => true
  | s :: rest => extendsEarlier seen s && extendEarlier (seen ++ definitions s) rest

def extendEarlierIn (seen : List String) : List SchemaField → Bool
  | [] => true
  | .field _ _ type :: rest =>
    extendsEarlier seen type && extendEarlierIn (seen ++ definitions type) rest
  | .fault _ :: _ => true
end

end Schema

namespace Language

/-- A type with its history. -/
inductive Origin where
  /-- The type of a plain value. -/
  | plain (reading : Nat)
  /-- A type that is made without other types. -/
  | simple (reading : Nat)
  /-- A list, also one that can be written as a map. -/
  | array (reading : Nat) (items : List Origin)
  | record (reading : Nat) (fields : List (String × List Origin))
  | union (reading : Nat) (alternatives : List Origin)
  /-- A name that stands for nothing. -/
  | raw (name : String)
  /-- What a name stands for; it looks forward if this reading has not defined it yet. -/
  | reference (forward : Bool) (target : Origin)

namespace Origin

/-- The types that an allowed type stands for. -/
def alternatives : Origin → List Origin
  | .union _ os => os
  | o => [o]

/-- The reading that made a type. -/
def reading? : Origin → Option Nat
  | .plain r | .simple r | .array r _ | .record r _ | .union r _ => some r
  | .raw _ | .reference _ _ => none

end Origin

/-! ## Following a reading -/

/-- The origins of the types of a dictionary. -/
abbrev Registry := String → Option Origin

namespace Registry

def empty : Registry := fun _ => none

variable (R : Registry) (reading : Nat)

def put (name : Node) (o : Origin) : Registry := fun n =>
  if name.isName n then some o else R n

/-- What a reading gives for a name. -/
def refer (name : String) : Origin :=
  match R name with
  | some o => .reference (o.reading? != some reading) o
  | none => .reference true (.raw name)

/-- The fields of a parent. Those that another reading made are taken over from there. -/
def fieldsOf : Parent → List (String × List Origin)
  | .named name =>
    match R name with
    | some (.record r fields) =>
      if r = reading then fields else fields.map fun f => (f.1, f.2.map (.reference true))
    | _ => []
  | .fault _ => []

/-- Enters the plain types. -/
def putPlain (names : List Node) : Registry :=
  names.foldl (fun R n => R.put n (.plain reading)) R

end Registry

/-- Sets a field: over the one of the same name if there is one, at the end otherwise. -/
def putOrigin (fs : List (String × List Origin)) (f : String × List Origin) : List (String × List Origin) :=
  if fs.any fun g => g.1 == f.1 then fs.map fun g => if g.1 == f.1 then f else g
  else fs ++ [f]

mutual
/-- The origin of the type that a reading makes of a schema, and the origins of the
dictionary after it. -/
def note (reading : Nat) (R : Registry) : Schema → Origin × Registry
  | .ref name => (R.refer reading name, R)
  | .union alternatives =>
    let (os, R) := noteAll reading R alternatives
    (.union reading os, R)
  | .array items =>
    let (o, R) := note reading R items
    (.array reading o.alternatives, R)
  | .enum name _ _ => (.simple reading, R.put name (.simple reading))
  | .record name _ parents fields =>
    let inherited := parents.flatMap (R.fieldsOf reading)
    let (own, R) := noteFields reading R fields
    let o := .record reading ((inherited ++ own).foldl putOrigin [])
    (o, R.put name o)
  | .unknown _ => (.simple reading, R)
  | .fault _ => (.simple reading, R)

def noteAll (reading : Nat) (R : Registry) : List Schema → List Origin × Registry
  | [] => ([], R)
  | s :: rest =>
    let (o, R) := note reading R s
    let (os, R) := noteAll reading R rest
    (o :: os, R)

def noteFields (reading : Nat) (R : Registry) : List SchemaField → List (String × List Origin) × Registry
  | [] => ([], R)
  | .field name _ type :: rest =>
    let (o, R) := note reading R type
    let (others, R) := noteFields reading R rest
    ((name.text?.getD "", o.alternatives) :: others, R)
  | .fault _ :: _ => ([], R)
end

/-- One reading of the schema, with the origins after it. -/
def trackPass (reading : Nat) (last : Option Nat) (s : Schema) (R : Registry) : Build Registry := do
  let _ ← build last none .null s
  let primitives ← symbolsOf "PrimitiveType"
  definePrimitives
  return (note reading R s).2.putPlain reading primitives

/-- All three readings, with the origins after them. -/
def track (s : Schema) : Build Registry := do
  let R ← trackPass 1 none s .empty
  let R ← trackPass 2 none s R
  let R ← trackPass 3 (← lastDefinition) s R
  checkVersions
  return R

/-- The dictionary of a schema and the origins of its types. -/
def origins (s : Schema) : Except Fault (Language × Registry) :=
  ((track s).run { language := ⟨[]⟩, log := [] }).map fun (R, b) => (b.language, R)

/-! ## Paths of references -/

/-- A way from a type to one that it is made of. -/
inductive Move where
  /-- To a type that is allowed for a field. -/
  | field (name : String) (index : Nat)
  /-- To a type that is allowed for the items of a list. -/
  | item (index : Nat)

namespace Origin

/-- What references stand for in the end, and how many of them look forward. -/
def target : Origin → Nat × Origin
  | .reference forward o => (forward.toNat + o.target.1, o.target.2)
  | o => (0, o)

/-- The type that a move leads to. -/
def step : Origin → Move → Option Origin
  | .record _ fs, .field name i => (fs.lookup name).bind (·[i]?)
  | .array _ os, .item i => os[i]?
  | _, _ => none

/-- The type at the end of a path, and how many references on it look forward. -/
def follow : Origin → List Move → Option (Nat × Origin)
  | o, [] => some o.target
  | o, m :: ms => do
    let (k, last) ← (← o.target.2.step m).follow ms
    some (o.target.1 + k, last)

end Origin
end Language

namespace CwlType

open CwlService.Language

/-- The type that a move leads to. -/
def step : CwlType → Move → Option CwlType
  | .record _ _ fields, .field name i => (Fields.get? fields name).bind (·.2[i]?)
  | .array _ types, .item i => types[i]?
  | .listOrMap _ types _, .item i => types[i]?
  | _, _ => none

/-- The type at the end of a path. -/
def follow (t : CwlType) (ms : List Move) : Option CwlType := ms.foldlM step t

end CwlType
end CwlService

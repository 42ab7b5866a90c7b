import CwlService.Schema.Basic

/-! # Types of the language

The types of a version of the language form a dictionary in order. A reference that could not
be resolved stays a name. -/
namespace CwlService

/-- A type of the language; one without a name has the name null. -/
inductive CwlType where
  | base (name : Node)
  | any
  | expression
  | enum (name : Node) (symbols : List Node)
  | array (name : Node) (items : List CwlType)
  | listOrMap (name : Node) (items : List CwlType) (key : MapKey)
  | record (name : Node) (documented : Bool)
      (fields : List (String × Bool × List CwlType))
  /-- A field of a record: whether it is required, and its types. -/
  | field (required : Bool) (types : List CwlType)
  | unresolved (name : String)
  | union (alternatives : List CwlType)
  | missing
deriving Inhabited

namespace CwlType

/-- The types that an allowed type stands for. -/
def alternatives : CwlType → List CwlType
  | .union ts => ts
  | t => [t]

/-- The name of a type. What is no type has none to ask for. -/
def name? : CwlType → Except Fault Node
  | .base name => pure name
  | .any => pure (.str "Any")
  | .expression => pure (.str "Expression")
  | .enum name _ => pure name
  | .array name _ => pure name
  | .listOrMap name _ _ => pure name
  | .record name _ _ => pure name
  | .field _ _ => pure (.str "a field")
  | .unresolved _ => throw .noMember
  | .union _ => throw .noMember
  | .missing => throw .noMember

end CwlType

/-- The fields of a record in order: name, whether required, and types. -/
abbrev Fields := List (String × Bool × List CwlType)

namespace Fields

def put (fs : Fields) (f : String × Bool × List CwlType) : Fields :=
  if fs.any fun g => g.1 == f.1 then fs.map fun g => if g.1 == f.1 then f else g
  else fs ++ [f]

def get? (fs : Fields) (name : String) : Option (Bool × List CwlType) := fs.lookup name

def sortNames (names : List String) : List String :=
  (names.mergeSort fun a b => compare a b != .gt).eraseReps

def required (fs : Fields) : List String :=
  sortNames ((fs.filter fun f => f.2.1).map (·.1))

end Fields

structure Language where
  types : List (Node × CwlType)
deriving Inhabited

namespace Language

/-- The type of a name, which may be any key. -/
def find? (l : Language) (name : Node) : Option CwlType :=
  (l.types.find? fun e => e.1.same name).map (·.2)

def get? (l : Language) (name : String) : Option CwlType := l.find? (.str name)

def put (l : Language) (name : Node) (t : CwlType) : Language :=
  if l.types.any fun e => e.1.same name then
    ⟨l.types.map fun e => if e.1.same name then (e.1, t) else e⟩
  else ⟨l.types ++ [(name, t)]⟩

def names (l : Language) : List Node := l.types.map (·.1)

end Language
end CwlService

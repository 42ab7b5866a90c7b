import CwlService.Language.Basic
import CwlService.Node.Text

/-! # What a node is taken for

A node can name its type, in its field `class` or by its key where keys are classes. Otherwise
the first type that fits counts; then the first that may fit; and if there is only one type,
that one. -/
namespace CwlService

inductive Fit where
  | yes
  | maybe
  | no
deriving DecidableEq, Repr

/-- What stands in a list of expected types: the name of a type, or the type itself for the
alternative that nothing is there. -/
inductive Expected where
  | name (name : Node)
  | type (t : CwlType)

inductive Meaning where
  | typed (t : CwlType)
  | absent (t : CwlType)
  /-- The name of a type of data, among the symbols of an enumeration. -/
  | dataType (name : String) (symbols : List Node)
  | expression (text : String)
  | linkedFile (target : Node) (extension : Option String)
  | linkedType (target : Node)
  | namespaced (name : Node)
  | unknown (name : Node) (expected : List Expected)

structure Verdict where
  meaning : Meaning
  fit : Fit
  /-- The required fields that are not there, if that is why the node may only fit. -/
  missing : Option (List String) := none

namespace Verdict

def yes (m : Meaning) : Verdict := ⟨m, .yes, none⟩

def no (m : Meaning) : Verdict := ⟨m, .no, none⟩

end Verdict

namespace Meaning

def label : Meaning → Except Fault Expected
  | .typed t => do return .name (← t.name?)
  | .absent t => pure (.type t)
  | .dataType name _ => pure (.name (.str name))
  | .expression _ => pure (.name (.str "Expression"))
  | .linkedFile _ _ => pure (.name (.str "Linked file"))
  | .linkedType _ => pure (.name (.str "Linked file"))
  | .namespaced name => pure (.name name)
  | .unknown name _ => pure (.name name)

end Meaning

namespace CwlType

def holdsExpression (s : String) : Bool :=
  let rec go : List Char → Bool
    | '$' :: c :: rest => c == '(' || c == '\x7b' || go (c :: rest)
    | _ :: rest => go rest
    | [] => false
  go s.toList

/-- Checks a node against a record. `key` is the key of the node if it stands in a map whose
keys are fields by `map`. -/
def checkRecord (name : Node) (fields : Fields) (self : CwlType) (node : Node)
    (hasKey : Bool) (map : Option MapKey) : Except Fault Verdict := do
  let required := Fields.required fields
  let needed := required.filter fun f => !(map.any fun m => m.subject.isName f)
  let checkSubject : Except Fault Unit :=
    if map.any fun m => !m.subject.isKey then throw .wrongKind else pure ()
  match node with
  | .null => return .no (.typed self)
  | .map _ es =>
    match Node.Entries.field? es "$import" with
    | some target =>
      return .yes (if name.isName "InputRecordSchema" then .linkedType target else .linkedFile target none)
    | none =>
      checkSubject
      let missing := needed.filter fun f => !Node.Entries.hasField es f
      let extra := es.any fun e =>
        match e.1 with
        | .text k _ => (Fields.get? fields k).isNone
        | _ => true
      return if !missing.isEmpty then ⟨.typed self, .maybe, some missing⟩
        else if extra then ⟨.typed self, .maybe, none⟩
        else .yes (.typed self)
  | _ =>
    checkSubject
    match map with
    | some m =>
      if hasKey then
        if !m.predicate.isKey then throw .wrongKind
        if required.any m.predicate.isName && needed.length ≤ 1 then return .yes (.typed self)
      return .no (.typed self)
    | none => return .no (.typed self)

def check? (self : CwlType) (node : Node) (hasKey : Bool) (map : Option MapKey) :
    Except Fault (Option Verdict) :=
  match self with
  | .base _ => pure none
  | .field _ _ => pure none
  | .any => pure (some (.yes (.typed self)))
  | .expression =>
    match node with
    | .text s _ =>
      pure (some (if holdsExpression s then .yes (.expression s) else .no (.typed self)))
    | _ => pure (some (.no (.typed self)))
  | .enum name symbols =>
    match node with
    | .text s _ =>
      pure (some (.yes (if name.isName "PrimitiveType" || name.isName "CWLType"
        then .dataType s symbols else .typed self)))
    | _ => pure (some (.no (.typed self)))
  | .array _ _ => pure (some (if node.isSeq then .yes (.typed self) else .no (.typed self)))
  | .listOrMap _ _ _ =>
    match node with
    | .null | .text _ _ | .seq _ _ | .map _ _ => pure (some (.yes (.typed self)))
    | _ => pure (some (.no (.typed self)))
  | .record name _ fields => (checkRecord name fields self node hasKey map).map some
  | .unresolved _ => throw .noMember
  | .union _ => throw .noMember
  | .missing => throw .noMember

end CwlType

/-! ## Types by name -/

/-- The type that a node names itself: a key among classes, or the field `class`. -/
def explicitType (node : Node) (key : Option Node) (map : Option MapKey) : Option Node :=
  let named :=
    match map with
    | some m => if m.subject.isName "class" then key else none
    | none => node.field? "class"
  named.bind fun n => if n.isNull then none else some n

def isNamespaced : Node → Except Fault Bool
  | .text s _ => pure (s.toList.contains ':')
  | .seq _ items => pure (items.any fun i => i.2.isName ":")
  | .map _ es => pure (es.any fun e => e.1.isName ":")
  | _ => throw .wrongKind

def typeNames (types : List CwlType) : Except Fault (List Expected) :=
  types.mapM fun t => do return .name (← t.name?)

/-- Looks for a named type among the allowed ones; `all` are all of them. -/
def findNamed (l : Language) (name : Node) (all : List CwlType) :
    List CwlType → Except Fault Verdict
  | [] => do return .no (.unknown name (← typeNames all))
  | .any :: _ =>
    if !name.isKey then throw .wrongKind
    else
      match l.find? name with
      | some t => pure (.yes (.typed t))
      | none => pure (.no (.unknown name (l.names.map .name)))
  | t :: rest => do
    let n ← t.name?
    if n.same name then pure (.yes (.typed t))
    else findNamed l name all rest

/-! ## Types by fit -/

def checkType (node : Node) (hasKey : Bool) (map : Option MapKey) (t : CwlType) :
    Except Fault (Verdict × Bool) := do
  let name ← t.name?
  if name.isName "null" then
    if node.isNull then pure (.yes (.absent t), true) else pure (.no (.absent t), false)
  else if name.isName "string" then
    if node.isNull then pure (.yes (.typed t), true)
    else if node.isText then pure (⟨.typed t, .maybe, none⟩, false)
    else pure (.no (.typed t), false)
  else if ["boolean", "int", "long"].any name.isName then
    match node with
    | .null | .text _ _ | .bool _ | .int _ _ => pure (.yes (.typed t), true)
    | _ => pure (.no (.typed t), false)
  else
    match ← t.check? node hasKey map with
    | none => throw .noMember
    | some v => pure (v, v.fit == .yes)

/-- The verdicts on allowed types in order, up to the first that fits, which then stands
alone. -/
def checkInOrder (node : Node) (hasKey : Bool) (map : Option MapKey) :
    List Verdict → List CwlType → Except Fault (List Verdict)
  | acc, [] => pure acc.reverse
  | acc, t :: rest => do
    let (v, final) ← checkType node hasKey map t
    if final then pure [v] else checkInOrder node hasKey map (v :: acc) rest

def checkTypes (l : Language) (node : Node) (allowed : List CwlType) (key : Option Node)
    (map : Option MapKey) : Except Fault (List Verdict) := do
  if node.isAgain then throw .endless
  match explicitType node key map with
  | some name =>
    if ← isNamespaced name then pure [.yes (.namespaced name)]
    else return [← findNamed l name allowed allowed]
  | none => checkInOrder node (key.any fun k => !k.isNull) map [] allowed

def choose (verdicts : List Verdict) : Except Fault Meaning :=
  match verdicts.find? fun v => v.fit == .yes with
  | some v => pure v.meaning
  | none =>
    match verdicts.find? fun v => v.fit == .maybe with
    | some v => pure v.meaning
    | none =>
      match verdicts with
      | [v] => pure v.meaning
      | vs => do return .unknown (.str "(unknown)") (← vs.mapM fun v => v.meaning.label)

def infer (l : Language) (node : Node) (allowed : List CwlType) (key : Option Node)
    (map : Option MapKey) : Except Fault Meaning := do
  choose (← checkTypes l node allowed key map)

end CwlService

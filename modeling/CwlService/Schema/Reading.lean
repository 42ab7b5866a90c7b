import CwlService.Schema.Basic

/-! # Reading schemas

Reads a schema from plain data. Parts that are not as they should be become faults
in their place. -/
namespace CwlService.Schema

def parent : Node → Parent
  | .text s _ =>
    match s.splitOn "#" with
    | _ :: name :: _ => .named name
    | _ => .fault .outOfRange
  | _ => .fault .noMember

def parents : Option Node → List Parent
  | none => []
  | some .null => []
  | some (.seq _ items) => items.map fun i => parent i.2
  | some n => [parent n]

def name (es : Node.Entries) : Node := (es.field? "name").getD .null

def symbols : Option Node → Symbols
  | some (.seq _ items) => .list (items.map (·.2))
  | some (.map _ es) => .parts (es.map (·.1))
  | some (.text s _) => .parts (s.toList.map fun c => .str (String.singleton c))
  | _ => .absent

def mapKey (es : Node.Entries) : Option MapKey :=
  match es.field? "jsonldPredicate" with
  | some (.map _ ps) =>
    (Node.Entries.field? ps "mapSubject").map fun subject =>
      ⟨subject, (Node.Entries.field? ps "mapPredicate").getD .null⟩
  | _ => none

def isGiven (es : Node.Entries) (field : String) : Bool :=
  !((es.field? field).getD .null).isNull

mutual
def ofNode : Node → Schema
  | .text s _ => .ref s
  | .seq _ items => .union (ofItems items)
  | .map m es =>
    match Node.Entries.field? es "type" with
    | some (.text "array" _) => .array ((itemsOf es).getD (.fault .noMember))
    | some (.text "enum" _) => .enum (name es) (parents (Node.Entries.field? es "extends"))
        (symbols (Node.Entries.field? es "symbols"))
    | some (.text "record" _) =>
      .record (name es) (isGiven es "doc") (parents (Node.Entries.field? es "extends"))
        ((fieldsOf es).getD [.fault .wrongKind])
    | _ => .unknown (.map m es)
  | _ => .fault .noMember

def ofItems : Node.Items → List Schema
  | [] => []
  | (_, n) :: rest => ofNode n :: ofItems rest

def itemsOf : Node.Entries → Option Schema
  | [] => none
  | (k, _, v) :: rest => if k.isName "items" then some (ofNode v) else itemsOf rest

/-- The fields of a record. Only a list holds any; in a text or a map there are parts, but
none is a field. -/
def fieldsOf : Node.Entries → Option (List SchemaField)
  | [] => none
  | (k, _, v) :: rest =>
    if k.isName "fields" then
      match v with
      | .seq _ items => some (fieldList items)
      | .map _ es => some (es.map fun _ => .fault .noMember)
      | .text s _ => some (s.toList.map fun _ => .fault .noMember)
      | _ => none
    else fieldsOf rest

def fieldList : Node.Items → List SchemaField
  | [] => []
  | (_, n) :: rest =>
    match n with
    | .map _ es =>
      .field (name es) (mapKey es) ((typeOf es).getD (.fault .noMember)) :: fieldList rest
    | _ => [.fault .noMember]

def typeOf : Node.Entries → Option Schema
  | [] => none
  | (k, _, v) :: rest => if k.isName "type" then some (ofNode v) else typeOf rest
end

end CwlService.Schema

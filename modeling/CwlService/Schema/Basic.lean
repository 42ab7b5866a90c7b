import CwlService.Fault

/-! # Schemas

Types can be defined where they are first used. A schema that was given from outside may hold
faults; they stand where they are met and count only when that part is read. -/
namespace CwlService

/-- How a list of records can be written as a map: the field that becomes the key, and the
field that a plain value stands for. -/
structure MapKey where
  subject : Node
  predicate : Node
deriving Repr, Inhabited

inductive Parent where
  | named (name : String)
  | fault (f : Fault)

inductive Symbols where
  | list (symbols : List Node)
  /-- The parts of something else, to which nothing can be added. -/
  | parts (symbols : List Node)
  | absent

mutual
/-- A type of a schema; one without a name has the name null. -/
inductive Schema where
  | ref (name : String)
  | union (alternatives : List Schema)
  | array (items : Schema)
  | enum (name : Node) (parents : List Parent) (symbols : Symbols)
  | record (name : Node) (documented : Bool) (parents : List Parent)
      (fields : List SchemaField)
  /-- Data of a kind that schemas do not have. -/
  | unknown (data : Node)
  | fault (f : Fault)

inductive SchemaField where
  /-- A name that is no text is a fault once all fields are read. -/
  | field (name : Node) (mapKey : Option MapKey) (type : Schema)
  | fault (f : Fault)
end

namespace Schema

/-- A text stands for the type of that name. -/
instance : Coe String Schema := ⟨.ref⟩

def optional (type : Schema) : Schema := .union ["null", type]

def optionalMany (type : Schema) : Schema := .union ["null", type, .array type]

def oneOrMore (types : List Schema) : Schema := .union (types ++ [.array (.union types)])

def optionalOneOrMore (types : List Schema) : Schema :=
  .union (.ref "null" :: types ++ [.array (.union types)])

def evaluated : Schema := .union ["string", "Expression"]

def optionalEvaluated : Schema := .union ["null", "string", "Expression"]

/-! The types of fields of records, of inputs and of outputs. -/

def plainKinds : List Schema :=
  ["PrimitiveType", "RecordSchema", "EnumSchema", "ArraySchema", "string"]

def inputKinds : List Schema :=
  ["CWLType", "InputRecordSchema", "InputEnumSchema", "InputArraySchema", "string"]

def outputKinds : List Schema :=
  ["CWLType", "OutputRecordSchema", "OutputEnumSchema", "OutputArraySchema", "string"]

def commandInputKinds : List Schema := [
  "CWLType", "CommandInputRecordSchema", "CommandInputEnumSchema", "CommandInputArraySchema",
  "string"]

def commandOutputKinds : List Schema := [
  "CWLType", "CommandOutputRecordSchema", "CommandOutputEnumSchema", "CommandOutputArraySchema",
  "string"]

end Schema

namespace SchemaField

def plain (name : String) (type : Schema) : SchemaField := .field (.str name) none type

/-- A field whose items can be written as a map; a plain value stands for the predicate. -/
def mapped (name subject : String) (predicate : Option String) (type : Schema) : SchemaField :=
  .field (.str name) (some ⟨.str subject, predicate.elim .null .str⟩) type

def text (name : String) : SchemaField := plain name "string"

def optionalText (name : String) : SchemaField := plain name (Schema.optional "string")

def parameters (name : String) (type : Schema) : SchemaField :=
  mapped name "id" (some "type") (.array type)

def members (type : Schema) : SchemaField :=
  mapped "fields" "name" (some "type") (Schema.optional (.array type))

def requirements (types : List Schema) : SchemaField :=
  mapped "requirements" "class" none (Schema.optional (.array (.union types)))

def hints : SchemaField := mapped "hints" "class" none (Schema.optional (.array "Any"))

def flag (name : String) : SchemaField := plain name (Schema.optional "boolean")

def texts (name : String) : SchemaField := plain name (Schema.optionalMany "string")

def evaluated (name : String) : SchemaField := plain name Schema.optionalEvaluated

def formats : SchemaField := plain "format" (.union ["null", "string", .array "string", "Expression"])

def inputBinding : SchemaField := plain "inputBinding" (Schema.optional "CommandLineBinding")

def outputBinding : SchemaField := plain "outputBinding" (Schema.optional "CommandOutputBinding")

end SchemaField

namespace Schema

def documented (name : String) (parents : List String) (fields : List SchemaField) : Schema :=
  .record (.str name) true (parents.map .named) fields

def undocumented (name : String) (parents : List String) (fields : List SchemaField) : Schema :=
  .record (.str name) false (parents.map .named) fields

def requirement (name : String) (fields : List SchemaField) : Schema :=
  documented name ["ProcessRequirement"] (.text "class" :: fields)

def symbolic (name : String) (parents symbols : List String) : Schema :=
  .enum (.str name) (parents.map .named) (.list (symbols.map .str))

/-! What the versions have in common. -/

/-- Types that are defined here, and then all types by name. -/
def defining (types kinds : List Schema) : Schema := .union (types ++ [.ref "string", .array (.union kinds)])

def recordOf (name : String) (parents : List String) (member mark : Schema) (rest : List SchemaField) : Schema :=
  undocumented name parents (.members member :: .plain "type" mark :: rest)

def enumOf (name : String) (parents : List String) (mark : Schema) (rest : List SchemaField) : Schema :=
  undocumented name parents (.plain "symbols" (.array "string") :: .plain "type" mark :: rest)

def arrayOf (name : String) (parents : List String) (kinds : List Schema) (mark : Schema)
    (rest : List SchemaField) : Schema :=
  undocumented name parents (.plain "items" (oneOrMore kinds) :: .plain "type" mark :: rest)

def versions (later : List String) : Schema :=
  symbolic "CWLVersion" [] ([
    "draft-2", "draft-3.dev1", "draft-3.dev2", "draft-3.dev3", "draft-3.dev4", "draft-3.dev5",
    "draft-3", "draft-4.dev1", "draft-4.dev2", "draft-4.dev3", "v1.0.dev4", "v1.0"] ++ later)

def bindingAt (position : Schema) : Schema :=
  documented "CommandLineBinding" ["InputBinding"] [
    .flag "loadContents",
    .plain "position" position,
    .optionalText "prefix",
    .flag "separate",
    .optionalText "itemSeparator",
    .evaluated "valueFrom",
    .flag "shellQuote"]

/-- The files at the start of a tool, and what may be evaluated for them. -/
def workDir (files evaluable : List Schema) : Schema :=
  requirement "InitialWorkDirRequirement" [
    .plain "listing" (.union (.array (.union (files ++ evaluable)) :: evaluable))]

def resources (evaluable : List Schema) : Schema :=
  let amounts : List (String × Schema) := [
    ("coresMin", "long"), ("coresMax", "int"), ("ramMin", "long"), ("ramMax", "long"),
    ("tmpdirMin", "long"), ("tmpdirMax", "long"), ("outdirMin", "long"), ("outdirMax", "long")]
  requirement "ResourceRequirement" (amounts.map fun a => .plain a.1 (.union ("null" :: a.2 :: evaluable)))

def commandFields : List SchemaField := [
  .texts "baseCommand",
  .plain "arguments" (optional (.array (.union ["string", "Expression", "CommandLineBinding"]))),
  .evaluated "stdin",
  .evaluated "stderr",
  .evaluated "stdout",
  .plain "successCodes" (optional (.array "int")),
  .plain "temporaryFailCodes" (optional (.array "int")),
  .plain "permanentFailCodes" (optional (.array "int"))]

def allowsNull : Schema → Bool
  | .union alternatives => alternatives.any fun s =>
    match s with
    | .ref name => name == "null"
    | _ => false
  | _ => false

end Schema
end CwlService

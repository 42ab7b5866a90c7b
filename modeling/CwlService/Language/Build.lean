import CwlService.Language.Basic
import CwlService.Node.Listing
import CwlService.Schema.V11

/-! # From a schema to a language

A schema is read three times into one dictionary. A name that is met before its type is
defined stays a name, so how deep a reference resolves depends on the depth at which it is
met. After each reading the plain types enter the dictionary under their own names. -/
namespace CwlService.Language

structure Building where
  language : Language
  log : List LogEntry
  /-- How often a type with the name of the versions was defined. -/
  definitions : Nat := 0
  /-- The versions before drafts are left out, once they are. -/
  versions : Option (List Node) := none

abbrev Build := StateT Building (Except Fault)

def versionsName : String := "CWLVersion"

def define (name : Node) (t : CwlType) : Build CwlType := do
  if !name.isKey then throw .wrongKind
  modify fun b => { b with
    language := b.language.put name t
    definitions := b.definitions + if name.isName versionsName then 1 else 0 }
  pure t

/-- The type of a name that is in the dictionary, for what extends it: all versions count
there. -/
def parent? : Parent → Build (Option CwlType)
  | .named name => do
    let b ← get
    match b.language.get? name, b.versions with
    | some (.enum n symbols), some all =>
      return some (.enum n (if name == versionsName then all else symbols))
    | t, _ => return t
  | .fault f => throw f

/-- Adds the symbols that an enumeration takes over from its parents. -/
def withInherited : Symbols → List Parent → Build Symbols
  | symbols, [] => pure symbols
  | symbols, p :: rest => do
    match ← parent? p with
    | none => withInherited symbols rest
    | some (.enum _ more) =>
      match symbols with
      | .list own => withInherited (.list (own ++ more)) rest
      | _ => throw .wrongKind
    | some _ => throw .noMember

def distinct (symbols : List Node) : List Node := (NameSet.ofList symbols).members

def allSymbols : Symbols → Except Fault (List Node)
  | .list own => if own.all Node.isKey then pure (distinct own) else throw .wrongKind
  | .parts own => pure (distinct own)
  | .absent => throw .wrongKind

def inheritedFields : List Parent → Build Fields
  | [] => pure []
  | p :: rest => do
    let own ← match ← parent? p with
      | none => pure []
      | some (.record _ _ fields) => pure fields
      | some _ => throw .noMember
    return own ++ (← inheritedFields rest)

/-- The version that a published language no longer has. -/
def withdrawn : String := "v1.0.dev4"

def published (symbols : List Node) : List Node :=
  symbols.filter fun s => !((s.text?.getD "").startsWith "draft-" || s.isName withdrawn)

def arePublished (name : Node) (symbols : List Node) : Bool :=
  name.isName versionsName && !symbols.any fun s => s.isName withdrawn

mutual
/-- The type of a schema; its definitions enter the dictionary. `last` tells which definition
of the versions leaves out drafts: the last one of the last reading. -/
def build (last : Option Nat) (key : Option MapKey) (field : Node) : Schema → Build CwlType
  | .ref name => do
    match (← get).language.get? name with
    | some t => pure t
    | none => pure (.unresolved name)
  | .union alternatives => do return .union (← buildAll last key field alternatives)
  | .array items => do
    let t ← build last none .null items
    match key with
    | none => pure (.array field t.alternatives)
    | some k => pure (.listOrMap field t.alternatives k)
  | .enum name parents symbols =>
    if name.isName "Any" then define name .any
    else if name.isName "Expression" then define name .expression
    else do
      let all ← allSymbols (← withInherited symbols parents)
      if name.isName versionsName && last == some ((← get).definitions + 1) then
        modify fun b => { b with versions := some all }
        define name (.enum name (published all))
      else define name (.enum name all)
  | .record name documented parents fields => do
    let inherited ← inheritedFields parents
    let own ← buildFields last fields
    let all := (inherited ++ own).foldl Fields.put []
    define name (.record name documented all)
  | .unknown data => do
    let kind := ((data.field? "type").getD .null).shown
    modify fun b => { b with log := b.log ++
      [.error ("Unknown schema type " ++ kind ++ ": " ++ data.shown)] }
    pure .missing
  | .fault f => throw f

def buildAll (last : Option Nat) (key : Option MapKey) (field : Node) :
    List Schema → Build (List CwlType)
  | [] => pure []
  | s :: rest => do
    let t ← build last key field s
    return t :: (← buildAll last key field rest)

def buildFields (last : Option Nat) : List SchemaField → Build Fields
  | [] => pure []
  | .field name key type :: rest => do
    let t ← build last key name type
    if !name.isKey then throw .wrongKind
    let others ← buildFields last rest
    match name.text? with
    | some s => return (s, !type.allowsNull, t.alternatives) :: others
    | none => throw .wrongKind
  | .fault f :: _ => throw f
end

def symbolsOf (name : String) : Build (List Node) := do
  match (← get).language.get? name with
  | some (.enum _ symbols) => pure symbols
  | _ => throw .noMember

def definePlain : List Node → Build Unit
  | [] => pure ()
  | name :: rest => do
    let _ ← define name (.base name)
    definePlain rest

def definePrimitives : Build Unit := do definePlain (← symbolsOf "PrimitiveType")

def pass (last : Option Nat) (s : Schema) : Build Unit := do
  let _ ← build last none .null s
  definePrimitives

/-- The last step: a language lists its versions, all of them texts, and the withdrawn one is
among them. -/
def checkVersions : Build Unit := do
  let b ← get
  match b.language.get? versionsName with
  | some (.enum _ _) =>
    let all := b.versions.getD []
    if !all.all Node.isText then throw .noMember
    if !all.any fun v => v.isName withdrawn then throw .badValue
  | _ => modify fun b => { b with log := b.log ++ [.error "No CWLVersion enum in schema"] }

/-- Which definition of the versions comes last, after two of three readings. -/
def lastDefinition : Build (Option Nat) := do
  let b ← get
  match b.language.get? versionsName with
  | some (.enum _ _) => return some (b.definitions / 2 * 3)
  | _ => return none

def readings (s : Schema) : Build Unit := do
  pass none s
  pass none s
  pass (← lastDefinition) s
  checkVersions

def ofSchema (s : Schema) : Except Fault (Language × List LogEntry) :=
  ((readings s).run { language := ⟨[]⟩, log := [] }).map fun (_, b) => (b.language, b.log)

/-! ## The published versions

The languages that the service knows from the start, and the one that it falls back to. -/

def latest : String := "v1.1"

def processTypes : List String := ["CommandLineTool", "ExpressionTool", "Workflow"]

def publishedSchemas : List (String × Schema) :=
  [("v1.0", Schema.V10.types), ("v1.1", Schema.V11.types), ("v1.2.0-dev1", Schema.V12Dev1.types)]

def ofSoundSchema (s : Schema) : Language :=
  match ofSchema s with
  | .ok (l, _) => l
  | .error _ => ⟨[]⟩

abbrev Catalog := List (String × Language)

def publishedCatalog : Catalog := publishedSchemas.map fun (v, s) => (v, ofSoundSchema s)

end CwlService.Language

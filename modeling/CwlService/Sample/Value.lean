import CwlService.Node.Listing
import CwlService.Sample.Draw

/-! # Sample values of types

A type is a name with optional `?` and `[]`, a list of alternatives, or a map with a `type`. It
may lead back to itself, so the depth of a value is bounded. -/
namespace CwlService.Sample

/-- A name joined with a text. Only texts can be joined. -/
def joinName (name : Node) (tail : String) : Except Fault String :=
  match name with
  | .text s _ => pure (s ++ tail)
  | _ => throw .wrongKind

/-! ## Simple values -/

def file (name : Node) : Draw (List (String × Node)) := do
  let size ← below 101
  let contents ← letters size
  let shown := name.shown
  pure [("class", .str "File"), ("path", .str ("/path/to/" ++ shown ++ ".ext")),
    ("location", .str ("/location/of/" ++ shown ++ ".ext")), ("basename", .str (shown ++ ".ext")),
    ("dirname", .str "/path/to/"), ("nameroot", name), ("nameext", .str ".ext"),
    ("checksum", .str "sha1$deadbeef"), ("size", .num size), ("format", .str "someformat"),
    ("contents", .str contents)]

def partCount? : Node → Option Nat
  | .text s _ => some s.length
  | .bytes bs => some bs.length
  | .seq _ items => some items.length
  | .map _ entries => some entries.length
  | .set _ members => some members.length
  | _ => none

/-- A file with a further one for each of the secondary files that its type names. -/
def fileWith (name : Node) (type : Node.Entries) : Draw Node := do
  let main ← file name
  match type.field? "secondaryFiles" with
  | none => pure (.record main)
  | some secondary =>
    let some count := partCount? secondary | throw .wrongKind
    let more ← (List.range count).mapM fun _ => return Node.record (← file name)
    pure (.record (main ++ [("secondaryFiles", .list more)]))

/-- A number from -50 to below 50, in steps of a hundred 1024ths. -/
def fraction : Draw Binary64 := do
  let k : Int := (← next) % 1024
  let scaled := 100 * k - 51200
  let size := Binary64.ofRatio scaled.natAbs 1024
  pure (if scaled < 0 then size.neg else size)

def basic (name : Node) (type : Node) : Draw Node := do
  let stem ← joinName name "_"
  let name := stem ++ (← letters 5)
  match type.text? with
  | some "null" => pure (.str "null")
  | some "Any" => pure (.str "Any")
  | some "boolean" => return .bool ((← below 2) > 0)
  | some "int" | some "long" => return .num ((← below 2001 : Nat) - 1000)
  | some "float" | some "double" => return .float (← fraction) false
  | some "string" => pure (.str name)
  | some "File" => return .record (← file (.str name))
  | some "Directory" => pure (.record [("class", .str "Directory"), ("path", .str ("/path/to/" ++ name))])
  | _ => pure .null

def symbol (symbols : Node) : Draw Node := do
  let some count := partCount? symbols | throw .wrongKind
  let i ← below count
  match symbols with
  | .seq _ items => pure ((items[i]?.map (·.2)).getD .null)
  | .text s _ => pure (.str (String.ofList (s.toList[i]?.toList)))
  | .bytes bs => pure (.num ((bs[i]?.getD 0).toNat : Int))
  | .map _ entries =>
    match Node.Entries.value? entries (.num i) with
    | some n => pure n
    | none => throw (.missingKey (.num i))
  | _ => throw .wrongKind

/-! ## Values with parts -/

def listLength : Nat := 4

def itemName? (s : String) : Option String :=
  if s.endsWith "[]" then some (Text.withoutEnd "[]" s) else none

def listOf (item : String) : Node :=
  .record [("type", .str "array"), ("items", .list [.str item])]

/-- A value of a type; `depth` bounds how often types lead to others, and `array` asks for a
list of such values. -/
def value (types : Node.Entries) : (depth : Nat) → (name type : Node) → (array : Bool) → Draw Node
  | 0, _, _, _ => throw .endless
  | depth + 1, name, type, true => do
    let items ← (List.range listLength).mapM fun i => do
      value types depth (.str (← joinName name ("/" ++ toString i))) type false
    pure (.list items)
  | depth + 1, name, type, false =>
    match type with
    | .seq _ items => do
      let i ← below items.length
      value types depth name ((items[i]?.map (·.2)).getD .null) false
    | .map _ entries =>
      match Node.Entries.field? entries "type" with
      | none => pure .null
      | some kind =>
        match kind.text? with
        | some "array" => value types depth name ((Node.Entries.field? entries "items").getD .null) true
        | some "enum" => symbol ((Node.Entries.field? entries "symbols").getD .null)
        | some "record" => do
          let fields ← (Listing.asMap ((Node.Entries.field? entries "fields").getD .null) (.str "name")).2
          let values ← fields.mapM fun f => do
            let v ← value types depth (.str (name.shown ++ "/" ++ f.key.shown)) f.value false
            pure (f.key, v)
          pure (.dict values)
        | some "File" => fileWith name entries
        | _ => value types depth name kind false
    | .text s _ =>
      let s := Text.withoutEnd "?" s
      match itemName? s with
      | some item => value types depth name (listOf item) false
      | none =>
        match types.field? s with
        | some t => value types depth name t false
        | none => basic name (.str s)
    | _ => pure .null

def maxDepth : Nat := 900

def values (ports : Node) (types : Node.Entries) : Draw (List (Node × Node)) := do
  let ports ← (Listing.asMap ports (.str "id")).2
  ports.mapM fun p => return (p.key, ← value types maxDepth p.key p.value false)

end CwlService.Sample

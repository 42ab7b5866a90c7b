import CwlService.Workspace.Files

/-! # Types that a process defines

A type has its name inside its definition; known by that name, the definition no longer needs
it. The name of an imported type begins with the file that it comes from. -/
namespace CwlService.UserTypes

def requirementName : String := "SchemaDefRequirement"

def isRequirement (n : Node) : Bool := (n.field? "class").any fun c => c.isName requirementName

def listed (requirements : Node) : Except Fault Node :=
  match requirements with
  | .map _ entries =>
    match Node.Entries.field? entries requirementName with
    | none => pure .null
    | some (.map _ own) => pure ((Node.Entries.field? own "types").getD .null)
    | some _ => throw .noMember
  | .seq _ items =>
    match (items.filter fun i => isRequirement i.2).getLast? with
    | some (_, r) => pure ((r.field? "types").getD .null)
    | none => pure .null
  | _ => pure .null

def imported? (entries : Node.Entries) : Option Node :=
  match entries with
  | [(key, _, path)] => if key.isName "$import" then some path else none
  | _ => none

/-- The data of an imported file: nothing if there is none or if it is malformed. -/
def load (w : Workspace) (doc path : Node) : Document.Reads (String × Node) := do
  let some target := path.text? | throw .wrongKind
  match ← w.find (← w.resolve doc target) with
  | .file text => return (target, ← Document.readOr (.map .plain []) (Text.newlinesText text))
  | _ => pure (target, .map .plain [])

def named (w : Workspace) (doc : Node) (entries : Node.Entries) (form : Form) :
    Document.Reads (Option (Node × Node)) := do
  match imported? entries with
  | some path =>
    let (target, n) ← load w doc path
    match n with
    | .map m own =>
      match Node.Entries.field? own "name" with
      | none => pure none
      | some (.text name _) =>
        pure (some (.str (target ++ "#" ++ name), .map m (Node.Entries.eraseField own "name")))
      | some _ => throw .wrongKind
    | _ => pure none
  | none =>
    match (Node.Entries.field? entries "name").getD .null with
    | .null => pure none
    | name =>
      if !name.isKey then throw .wrongKind
      pure (some (name, .map form (Node.Entries.eraseField entries "name")))

def of (w : Workspace) (doc process : Node) : Document.Reads Node.Entries := do
  let .map _ entries := process | throw .noMember
  match ← listed ((Node.Entries.field? entries "requirements").getD .null) with
  | .seq _ items =>
    items.foldlM (fun types i => do
      match i.2 with
      | .map form own =>
        match ← named w doc own form with
        | some (name, type) => pure (Node.Entries.put types name type)
        | none => pure types
      | _ => pure types) []
  | _ => pure []

/-! ## The process without the names -/

def unnamed (n : Node) : Node :=
  match n with
  | .map form own => if (imported? own).isSome then n else .map form (Node.Entries.eraseField own "name")
  | _ => n

def mapField (name : String) (f : Node → Node) (n : Node) : Node :=
  match n with
  | .map form entries =>
    .map form (entries.map fun e => if e.1.isName name then (e.1, e.2.1, f e.2.2) else e)
  | _ => n

def unnameAll (n : Node) : Node :=
  mapField "types" (fun ts =>
    match ts with
    | .seq form items => .seq form (items.map fun i => (i.1, unnamed i.2))
    | _ => ts) n

/-- The last of the items that satisfies a test, changed. -/
def mapLast (p : Node → Bool) (f : Node → Node) : Node.Items → Node.Items
  | [] => []
  | (at_, n) :: rest =>
    if p n && !rest.any (fun i => p i.2) then (at_, f n) :: rest else (at_, n) :: mapLast p f rest

/-- The process after its types are taken: without their names. -/
def taken (process : Node) : Node :=
  mapField "requirements" (fun r =>
    match r with
    | .map .. => mapField requirementName unnameAll r
    | .seq form items => .seq form (mapLast isRequirement unnameAll items)
    | _ => r) process

end CwlService.UserTypes

import CwlService.Analysis.Basic
import CwlService.Expression.Fragments
import CwlService.Language.Build
import CwlService.Node.Order
import CwlService.Workflow.Connections

/-! # Through a document by its types

A visit of a node visits the nodes below it, or the same node with the type of a field that
stands for the whole record; so the depth of the document bounds the depth of the way. -/
namespace CwlService.Analysis

/-- A visit of a node: what it is taken for, where it is, how keys of a map around it are
fields, and its spans. It gives the context for what comes next beside it. -/
abbrev Visit := Meaning → Node → Context → Option MapKey → Option Span → Option Span → Walk Context

/-! ## Names -/

def expecting (span : Option Span) (names : List Node) : Diagnostic :=
  .error span ("Expecting one of: " ++ Node.shownList names)

def inOrder (nodes : List Node) : Except Fault (List Node) :=
  match Node.sorted? nodes with
  | some ns => pure ns
  | none => throw .wrongKind

/-- Reports a name that is not known, with those that are. -/
def expectKnown (known : Bool) (span : Option Span) (names : Except Fault (List Node)) : Walk Unit := do
  if !known then Walk.report (expecting span (← names))

/-- A symbol of an enumeration. Only among versions can a collection be looked for. -/
def visitSymbols (name : Node) (symbols : List Node) (node : Node) (value : Option Span) :
    Walk Unit := do
  if !node.isKey && !Language.arePublished name symbols then throw .wrongKind
  expectKnown (symbols.any node.same) value (inOrder symbols)
  Walk.hint value (some <| .symbols symbols)

/-- The name of a type without the marks that it may be missing and that it is a list. -/
def bareTypeName (s : String) : String := Text.withoutEnd "[]" (Text.withoutEnd "?" s)

/-- A name of a type of data: one of the language or one that the document defines. -/
def visitDataType (symbols : List Node) (node : Node) (value : Option Span) : Walk Unit := do
  let some s := node.text? | throw .wrongKind
  let types := (← get).types
  let known := Language.distinct (types.keys ++ symbols)
  if s.isEmpty then throw .outOfRange
  let name := bareTypeName s
  let definition := types.field? name
  expectKnown (known.any fun k => k.isName name) value (inOrder known)
  Walk.hint value (some <| .dataType known definition)

def isDeclared (name : String) (declared : Node) : Except Fault Bool :=
  match declared with
  | .map _ es => pure (es.any fun e => e.1.isName name)
  | .seq _ items => pure (items.any fun i => i.2.isName name)
  | .text s _ => pure ((s.splitOn name).length > 1 || name.isEmpty)
  | _ => throw .wrongKind

def declaredNames (declared : Node) : Except Fault (List Node) :=
  let names : List Node := match declared with
    | .map _ es => es.map (·.1)
    | .seq _ items => items.map (·.2)
    | .text s _ => s.toList.map fun c => .str (String.singleton c)
    | _ => []
  inOrder names

/-- A name whose part before the colon has to be declared. -/
def visitNamespaced (name : Node) (key value : Option Span) : Walk Unit := do
  let some s := name.text? | throw .noMember
  let declared := (← get).namespaces
  let known ← isDeclared ((s.splitOn ":").headD "") declared
  expectKnown known (key.or value) (declaredNames declared)

def shownExpected : Expected → String
  | .name n => n.inner
  | .type _ => "<CWLBaseType>"

def visitUnknown (name : Node) (expected : List Expected) (value : Option Span) : Walk Unit :=
  Walk.report (.error value ("Got type " ++ name.shown ++ ". Expecting one of [" ++
    ", ".intercalate (expected.map shownExpected) ++ "]"))

/-! ## Links -/

def visitLink (env : Setting) (target : Node) (extension : Option String) (value : Option Span)
    (asHint : Link → Hint) : Walk Node := do
  let (l, ds) ← Walk.withLinks (env.workspace.followNode env.doc target value)
  Walk.reportAll ds
  Walk.hint value (asHint ⟨(target.text?).getD "", l.file, l.contents, extension⟩)
  pure l.node

/-- A link to a type: its name is known by the link and the name inside. -/
def visitTypeLink (env : Setting) (target : Node) (value : Option Span) : Walk Node := do
  match ← visitLink env target none value .typeLink with
  | .map form es =>
    match Node.Entries.field? es "name" with
    | none => pure (.map form es)
    | some (.text name _) =>
      let known := Node.str ((target.text?).getD "" ++ "#" ++ name)
      let type := Node.map form (Node.Entries.eraseField es "name")
      modify fun a => { a with types := Node.Entries.put a.types known type }
      pure type
    | some _ => throw .wrongKind
  | n => pure n

/-! ## Records -/

def withFirst (name : String) (entries : List (Node × Node)) : List (Node × Node) :=
  let (first, rest) := entries.partition fun e => e.1.isName name
  first.reverse ++ rest

/-- The entries of a record in the order in which they are visited: requirements come early
because they define types, and a condition comes first because it names inputs. -/
def visitOrder (entries : List (Node × Node)) : List (Node × Node) :=
  withFirst "when" (withFirst "requirements" entries)

def sourceHints (node : Node) (value : Option Span) (asHint : Node → Hint) : Walk Unit :=
  match node with
  | .seq _ items => items.zipIdx.forM fun (i, n) => do
    Walk.hint (some (← node.itemSpan n)) (asHint i.2)
  | _ => Walk.hint value (asHint node)

def reportUnknown (record : Node) (key : Option Span) (shown : String) : Walk Unit :=
  Walk.report (.warning key ("Unknown field: " ++ shown ++ " for type " ++ record.shown))

/-- What a field is taken for whose key is no text. A list as a key is looked at like a text
of its items; `written` tells that the document has it as a key. -/
def oddFieldMeaning (record : Node) (k : Node) (written : Bool) (key : Option Span) :
    Walk (Option Meaning) := do
  match k with
  | .seq _ items =>
    if items.any fun i => i.2.isName ":" then return some (.namespaced k)
    if !written then throw .wrongKind
    match items with
    | [] => throw .outOfRange
    | (_, first) :: _ =>
      if !first.isName "$" then reportUnknown record key (Node.innerKey k)
      pure none
  | .map _ es =>
    if es.any fun e => e.1.isName ":" then return some (.namespaced k)
    throw (if written then .missingKey (.num 0) else .wrongKind)
  | _ => throw .wrongKind

/-- What a field is taken for; `none` for a field that needs no visit. -/
def fieldMeaning (env : Setting) (record : Node) (fields : Fields) (name : String)
    (child : Node) (key : Option Span) : Walk (Option Meaning) := do
  if record.isName "WorkflowStep" && name == "run" && child.isText then
    pure (some (.linkedFile child (some ".cwl")))
  else if record.isName "InlineJavascriptRequirement" && name == "expressionLib" then
    modify fun a => { a with library := child }
    pure none
  else if name == "$schemas" || name == "$namespaces" then pure none
  else if name.toList.contains ':' then pure (some (.namespaced (.str name)))
  else
    match fields.get? name with
    | some (_, types) => return some (← env.meaning ⟨child, types, some (.str name), none⟩)
    | none =>
      if name.isEmpty then throw .outOfRange
      if !name.startsWith "$" then reportUnknown record key name
      pure none

def stepProcess (m : Meaning) (child linked : Node) : Node :=
  match m with
  | .linkedFile .. | .linkedType _ => linked
  | _ => child

/-- The inputs that are named once a field is visited: the condition of a step names some. -/
def namesAfter (record k : Node) (m : Meaning) (named : List String) : List String :=
  match m with
  | .expression text =>
    if record.isName "WorkflowStep" && k.isName "when" then Expression.inputNames text else named
  | _ => named

/-- Notes where a field takes its value from, if it takes it from elsewhere. -/
def takingHints (takes : Bool) (child : Node) (value : Option Span) (asHint : Except Fault (Node → Hint)) :
    Walk Unit := do
  if takes then sourceHints child value (← asHint)

/-- Sets the interface of a step after the visit of its process. -/
def noteProcess (record k process : Node) (outer : Context) (named : List String) : Walk Unit := do
  if record.isName "WorkflowStep" && k.isName "run" then
    let i ← Walk.reported (Interface.ofProcess process)
    Walk.setInterface (← outer.theStep) { i with inputs := i.inputs.union (named.map .str) }

/-- What a field adds after its visit. `named` are the inputs that the condition of a step
names; it gives those that are known then. -/
def afterField (record k : Node) (m : Meaning) (child : Node) (value : Option Span)
    (outer here : Context) (named : List String) : Walk (List String) := do
  let named := namesAfter record k m named
  takingHints (record.isName "WorkflowOutputParameter" && k.isName "outputSource") child value
    (.outputSource <$> here.theWorkflow)
  takingHints (record.isName "WorkflowStepInput" && k.isName "source") child value
    (.stepSource <$> here.theStep)
  noteProcess record k (stepProcess m child here.linked) outer named
  pure named

/-- What the entry of a record is taken for; `written` tells that the document has its key. -/
def entryMeaning (env : Setting) (record : Node) (fields : Fields) (k child : Node)
    (written : Bool) (key : Option Span) : Walk (Option Meaning) :=
  match k with
  | .text name _ => fieldMeaning env record fields name child key
  | _ => oddFieldMeaning record k written key

def visitMeaning (visit : Visit) (record k child : Node) (ctx : Context) (map : Option MapKey)
    (key value : Option Span) (named : List String) : Option Meaning → Walk (List String)
  | none => pure named
  | some m => do
    let here ← visit m child (ctx.enter k) map key value
    afterField record k m child value ctx here named

/-- The spans of a field: its own if the record is a map. -/
def enterField (fields : Fields) (node k : Node) (key value : Option Span) :
    Walk (Option Span × Option Span) := do
  if node.isMap then
    let key ← node.keySpan k
    let value ← node.valueSpan k
    Walk.hint (some key) (some <| .fields (fields.map (·.1)))
    pure (some key, some value)
  else pure (key, value)

def classHint (k : Node) (here : Context) (value : Option Span) : Walk Unit := do
  if k.isName "class" && here.path.reverse[2]?.any fun p => p.isName "requirements" then
    Walk.hint value (here.requirements.map .requirement)

def visitField (env : Setting) (visit : Visit) (record : Node) (fields : Fields)
    (node : Node) (ctx : Context) (map : Option MapKey) (key value : Option Span)
    (named : List String) (entry : Node × Node) : Walk (List String) := do
  let spans ← enterField fields node entry.1 key value
  classHint entry.1 (ctx.enter entry.1) spans.2
  let meaning ← entryMeaning env record fields entry.1 entry.2 node.isMap spans.1
  visitMeaning visit record entry.1 entry.2 ctx map spans.1 spans.2 named meaning

/-- The fields of a record: the entries of a map, or one that a value stands for. -/
def recordEntries (node : Node) (map : Option MapKey) : Option (List (Node × Node)) :=
  match node with
  | .map _ es => some (es.map fun e => (e.1, e.2.2))
  | _ => (map.filter fun m => !m.predicate.isNull).map fun m => [(m.predicate, node)]

/-- Begins a workflow if a record is one. -/
def enterWorkflow (name node : Node) (ctx : Context) : Walk Context := do
  if name.isName "Workflow" then
    match node with
    | .map _ es => do
      let hidden := if ctx.path.isEmpty then ctx.unlisted else []
      let part (k : String) : Node := (Node.Entries.field? (es ++ hidden) k).getD .null
      let w ← Workflow.of (part "inputs") (part "outputs") (part "steps")
      pure { ctx with workflow := some (← Walk.openWorkflow w) }
    | _ => throw .noMember
  else pure ctx

/-- Checks the connections of the workflow around after the visit of a record that is one. -/
def checkConnections (name : Node) (ctx : Context) : Walk Unit := do
  if name.isName "Workflow" then
    match (← get).workflows[ctx.workflow.getD 0]? with
    | some (w, known) => Walk.reported (w.connectionProblems known)
    | none => pure ()

/-- Visits a record, whose value may stand for one of its fields. -/
def visitRecord (env : Setting) (visit : Visit) (name : Node) (fields : Fields)
    (node : Node) (ctx : Context) (map : Option MapKey) (key value : Option Span) : Walk Context := do
  match recordEntries node map with
  | none => pure ctx
  | some entries =>
    let ctx ← enterWorkflow name node ctx
    discard <| (visitOrder entries).foldlM (visitField env visit name fields node ctx map key value) []
    checkConnections name ctx
    pure ctx

/-! ## Lists and maps -/

/-- What can be gone through one by one, with the span of each part. -/
def partsOf (node : Node) : Except Fault (List (Node × Except Fault Span)) :=
  match node with
  | .seq _ items => pure (items.zipIdx.map fun (i, n) => (i.2, node.itemSpan n))
  | .map _ es => pure (es.zipIdx.map fun (e, n) => (e.1, node.valueSpan (.num n)))
  | .text s _ => pure (s.toList.map fun c => (.str (String.singleton c), .error .noMember))
  | .bytes bs => pure (bs.map fun b => (.num b.toNat, .error .noMember))
  | _ => throw .wrongKind

def visitItems (env : Setting) (visit : Visit) (types : List CwlType) (node : Node) (ctx : Context) :
    Walk Context := do
  (← partsOf node).foldlM (fun ctx (item, span) => do
    let m ← env.meaning ⟨item, types, none, none⟩
    visit m item ctx none none (some (← span))) ctx

def allowedNames (types : List CwlType) : Except Fault (List Node) :=
  types.mapM CwlType.name?

def isBegun : Node → Bool
  | .null => true
  | .text .. => true
  | _ => false

def emptyHints (name node : Node) (ctx : Context) (value : Option Span) : Walk Unit := do
  if !isBegun node then pure ()
  else if name.isName "requirements" then
    Walk.hint value (some <| .requirement (ctx.requirements.getD []))
  else if name.isName "in" then
    match ctx.step with
    | some s => Walk.hint value (some <| .ports (← Walk.interfaceOf s).inputs.members)
    | none => pure ()
  else if name.isName "output" then
    match ctx.workflow with
    | some w => Walk.hint value (some <| .outputSource w (.str ""))
    | none => pure ()

def entryHints (name : Node) (ctx : Context) (l : Listing) (e : ListingEntry) :
    Walk Unit := do
  if l.form != .map then pure ()
  else if name.isName "requirements" then
    Walk.hint (some (← l.idSpan e)) (some <| .requirement (ctx.requirements.getD []))
  else if name.isName "in" then
    match ctx.step with
    | none => pure ()
    | some s =>
      Walk.hint (some (← l.idSpan e)) (some <| .ports (← Walk.interfaceOf s).inputs.members)
      if isBegun e.value then Walk.hint (some (← l.valueSpan e)) (some <| .stepSource s e.value)
  else if name.isName "output" then
    if isBegun e.value then
      let span ← l.valueSpan e
      Walk.hint (some span) (some <| .outputSource (← ctx.theWorkflow) e.value)

def isUnknown : Meaning → Bool
  | .unknown .. => true
  | _ => false

/-- Visits the value of an entry, unless it is a requirement that is not known. -/
def visitValue (visit : Visit) (name : Node) (types : List CwlType) (mapKey : MapKey) (l : Listing)
    (e : ListingEntry) (m : Meaning) (here : Context) : Walk Unit := do
  let key ← l.idSpan e
  let value ← l.valueSpan e
  if name.isName "requirements" && isUnknown m then
    Walk.hint (some value) (some <| .unknownRequirement (← allowedNames types))
  else
    discard (visit m e.value here (some mapKey) (some key) (some value))

/-- Goes through a step, which belongs to the workflow around then. -/
def throughStep (id : Node) (ctx : Context) (inside : Nat → Walk Unit) : Walk Unit := do
  let s ← Walk.openStep id
  inside s
  Walk.attach (← ctx.theWorkflow) s

def visitEntry (env : Setting) (visit : Visit) (name : Node) (types : List CwlType)
    (mapKey : MapKey) (ctx : Context) (l : Listing) (e : ListingEntry) : Walk Unit := do
  let isMap := l.form == .map
  let here := ctx.enter e.key
  let m ← env.meaning ⟨e.value, types, if isMap then some e.key else none,
    if isMap then some mapKey else none⟩
  let inside := visitValue visit name types mapKey l e m
  (if name.isName "steps" then throughStep e.key ctx fun s => inside { here with step := some s }
    else inside here)
  entryHints name ctx l e

def enterListing (name : Node) (types : List CwlType) (ctx : Context) : Except Fault Context := do
  if name.isName "requirements" then return { ctx with requirements := some (← allowedNames types) }
  else return ctx

def visitListing (env : Setting) (visit : Visit) (name : Node) (types : List CwlType)
    (mapKey : MapKey) (node : Node) (ctx : Context) (value : Option Span) : Walk Context := do
  let l ← Walk.reported (Listing.of node mapKey.subject)
  let here ← enterListing name types ctx
  emptyHints name node here value
  l.entries.forM (visitEntry env visit name types mapKey here l)
  pure here

/-! ## All together -/

def visitOne (env : Setting) (visit : Visit) : Visit := fun m node ctx map key value => do
  match m with
  | .typed (.enum name symbols) => visitSymbols name symbols node value; pure ctx
  | .typed (.array _ types) => visitItems env visit types node ctx
  | .typed (.listOrMap name types mapKey) => visitListing env visit name types mapKey node ctx value
  | .typed (.record name _ fields) => visitRecord env visit name fields node ctx map key value
  | .typed _ => pure ctx
  | .absent _ => pure ctx
  | .dataType _ symbols => visitDataType symbols node value; pure ctx
  | .expression text => Walk.hint value (some <| .expression text ctx.path value); pure ctx
  | .linkedFile target extension =>
    pure { ctx with linked := ← visitLink env target extension value .link }
  | .linkedType target => pure { ctx with linked := ← visitTypeLink env target value }
  | .namespaced name => visitNamespaced name key value; pure ctx
  | .unknown name expected => visitUnknown name expected value; pure ctx

def visitTo (env : Setting) : Nat → Visit
  | 0 => fun _ _ _ _ _ _ => throw .endless
  | depth + 1 => visitOne env (visitTo env depth)

/-- How deep the way through a node can lead: at every level of the document a type may
stand for one of its fields a few times over. -/
def visitDepth (node : Node) : Nat := 100 * (node.depth + 1)

/-- The way through a whole document. Its class may be one that it does not list. -/
def walk (env : Setting) (loaded : Yaml.Reader.Loaded) : Walk Unit := do
  let roots := Language.processTypes.map fun t => (env.language.get? t).getD .missing
  let process := loaded.node
  let named := (loaded.full.field? "class").any fun c => !c.isNull
  let m ← env.meaning ⟨if named then loaded.full else process, roots, none, none⟩
  let ctx : Context := { unlisted := loaded.unlisted }
  discard (visitTo env (visitDepth process) m process ctx none none none)

end CwlService.Analysis

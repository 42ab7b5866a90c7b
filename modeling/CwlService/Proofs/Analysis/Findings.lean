import CwlService.Document.Basic
import CwlService.Proofs.Workflow.Messages

/-! # What there is to find in a document

What a visit of a node adds to what is known, said without the state that the way through a
document has: the problems, the types that are imported, the interface of the step around,
and the steps of the workflow around. Which types the document imports, what its links lead
to and which prefixes it declares is settled beforehand. The problems of names of types are
left out where it is in doubt which types are known.

A node whose visit fails has findings too; they count for nothing. -/
namespace CwlService.Analysis

open CwlService.Workflow (connectionErrors)
open List

/-- What is settled for the whole way through a document. -/
structure Scene where
  env : Setting
  /-- The reader of linked files at the beginning. -/
  start : Yaml.Reader
  namespaces : Node
  /-- The names of all types that the document imports. -/
  types : List String
  /-- Where names of types may be looked for before all types are known. -/
  doubtful : Option Span → Bool

/-- What a part of a document adds to what is known. -/
structure Findings where
  problems : List Diagnostic := []
  /-- The names of imported types. -/
  imports : List String := []
  /-- The interface that the step around gets. -/
  interface : Option Interface := none
  /-- The steps that the workflow around gets. -/
  attached : List (Node × Interface) := []

/-- Findings one after the other; of two interfaces the later counts. -/
instance : Append Findings where
  append f g := ⟨f.problems ++ g.problems, f.imports ++ g.imports, g.interface.or f.interface,
    f.attached ++ g.attached⟩

namespace Findings

variable (f g : Findings)

theorem append_eq : f ++ g = ⟨f.problems ++ g.problems, f.imports ++ g.imports,
    g.interface.or f.interface, f.attached ++ g.attached⟩ := rfl

@[simp] theorem problems_append : (f ++ g).problems = f.problems ++ g.problems := rfl

@[simp] theorem imports_append : (f ++ g).imports = f.imports ++ g.imports := rfl

@[simp] theorem interface_append : (f ++ g).interface = g.interface.or f.interface := rfl

@[simp] theorem attached_append : (f ++ g).attached = f.attached ++ g.attached := rfl

@[simp] theorem empty_append : ({} : Findings) ++ f = f := by
  obtain ⟨problems, imports, interface, attached⟩ := f
  cases interface <;> rfl

@[simp] theorem append_empty : f ++ ({} : Findings) = f := by
  simp only [append_eq, append_nil, Option.none_or]

/-- The findings of many parts, one after the other. -/
def all {α : Type} (find : α → Findings) (xs : List α) : Findings :=
  xs.foldr (fun x f => find x ++ f) {}

variable {α : Type} {find : α → Findings} {xs : List α}

theorem all_cons (find : α → Findings) (x : α) (xs : List α) :
    all find (x :: xs) = find x ++ all find xs := rfl

theorem all_empty (xs : List α) : all (fun _ => {}) xs = {} := by
  induction xs with
  | nil => rfl
  | cons x xs ih => rw [all_cons, ih, empty_append]

theorem problems_all (find : α → Findings) (xs : List α) :
    (all find xs).problems = xs.flatMap fun x => (find x).problems := by
  induction xs with
  | nil => rfl
  | cons x xs ih => rw [all_cons, problems_append, ih, flatMap_cons]

theorem imports_all (find : α → Findings) (xs : List α) :
    (all find xs).imports = xs.flatMap fun x => (find x).imports := by
  induction xs with
  | nil => rfl
  | cons x xs ih => rw [all_cons, imports_append, ih, flatMap_cons]

theorem attached_all (find : α → Findings) (xs : List α) :
    (all find xs).attached = xs.flatMap fun x => (find x).attached := by
  induction xs with
  | nil => rfl
  | cons x xs ih => rw [all_cons, attached_append, ih, flatMap_cons]

theorem interface_all {p : α → Bool} (hother : ∀ x ∈ xs, p x = false → (find x).interface = none)
    (hunique : xs.Pairwise fun a b => p a = true → p b = false) :
    (all find xs).interface = (xs.find? p).bind fun x => (find x).interface := by
  induction hunique with
  | nil => rfl
  | @cons x xs hx _ ih =>
    rw [forall_mem_cons] at hother
    rw [all_cons, interface_append, ih hother.2]
    cases hp : p x with
    | true =>
      have hnone : xs.find? p = none := find?_eq_none.mpr fun y hy => by simp [hx y hy hp]
      rw [hnone, find?_cons_of_pos hp, Option.bind_none, Option.none_or, Option.bind_some]
    | false => rw [hother.1 hp, find?_cons_of_neg (by simp [hp]), Option.or_none]

theorem interface_all_none (h : ∀ x ∈ xs, (find x).interface = none) : (all find xs).interface = none := by
  rw [interface_all (p := fun _ => false) (fun x hx _ => h x hx) (pairwise_of_forall (by simp)),
    find?_eq_none.mpr (by simp), Option.bind_none]

end Findings

/-- What there is to find in a node, given what it is taken for, how keys of a map around it
are fields, and its spans. -/
abbrev Finder := Meaning → Node → Option MapKey → Option Span → Option Span → Findings

/-! ## Names -/

def symbolProblems (symbols : List Node) (node : Node) (value : Option Span) : List Diagnostic :=
  if node.isKey && symbols.any node.same then []
  else [expecting value ((Node.sorted? symbols).getD [])]

variable (S : Scene) (find : Finder)

/-- The names of types among which one is expected. -/
def Scene.typeNames (symbols : List Node) : List Node :=
  if S.types.isEmpty then (Node.sorted? (Language.distinct symbols)).getD []
  else (Language.distinct (S.types.map Node.str ++ symbols)).filter Node.isText

def Scene.typeProblems (symbols : List Node) (node : Node) (value : Option Span) : List Diagnostic :=
  match node.text? with
  | none => []
  | some s =>
    if S.doubtful value then []
    else if S.types.contains (bareTypeName s) || symbols.any fun k => k.isName (bareTypeName s) then []
    else [expecting value (S.typeNames symbols)]

/-- The declared prefixes in order. -/
def prefixNames (declared : Node) : List Node :=
  match declared with
  | .map _ es => (NameSet.ofList (es.map (·.1))).members
  | n => (declaredNames n).toOption.getD []

def Scene.prefixProblems (name : Node) (key value : Option Span) : List Diagnostic :=
  match name.text? with
  | none => []
  | some s =>
    match isDeclared ((s.splitOn ":").headD "") S.namespaces with
    | .ok false => [expecting (key.or value) (prefixNames S.namespaces)]
    | _ => []

/-! ## Links -/

/-- What a link leads to. -/
def Scene.follow (target : Node) (span : Option Span) : Except Fault (Workspace.Linked × List Diagnostic) :=
  ((S.env.workspace.followNode S.env.doc target span).run.run S.start).1

/-- The data that a link leads to. -/
def Scene.followed (target : Node) (span : Option Span) : Node :=
  ((S.follow target span).toOption.map (·.1.node)).getD .null

/-- The name that a type has by its link and the name inside. -/
def importedName (target : Node) : Node → List String
  | .map _ es =>
    match Node.Entries.field? es "name" with
    | some (.text name _) => [(target.text?).getD "" ++ "#" ++ name]
    | _ => []
  | _ => []

/-- The definition of a linked type, without its name. -/
def definition : Node → Node
  | .map form es =>
    match Node.Entries.field? es "name" with
    | some (.text _ _) => .map form (Node.Entries.eraseField es "name")
    | _ => .map form es
  | n => n

/-- What a link leads to, if the meaning is one. -/
def Scene.linked (m : Meaning) (value : Option Span) : Node :=
  match m with
  | .linkedFile target _ => S.followed target value
  | .linkedType target => definition (S.followed target value)
  | _ => .null

def Scene.linkProblems (target : Node) (value : Option Span) : List Diagnostic :=
  ((S.follow target value).toOption.map (·.2)).getD []

/-! ## Records -/

/-- What a field is taken for, and the problem of one that the record does not have. -/
def Scene.taken (record : Node) (fields : Fields) (k child : Node) (key : Option Span) :
    List Diagnostic × Option Meaning :=
  match k with
  | .text name _ =>
    if record.isName "WorkflowStep" && name == "run" && child.isText then
      ([], some (.linkedFile child (some ".cwl")))
    else if record.isName "InlineJavascriptRequirement" && name == "expressionLib" then ([], none)
    else if name == "$schemas" || name == "$namespaces" then ([], none)
    else if name.toList.contains ':' then ([], some (.namespaced (.str name)))
    else
      match fields.get? name with
      | some (_, types) => ([], (S.env.meaning ⟨child, types, some (.str name), none⟩).toOption)
      | none =>
        (if name.startsWith "$" then []
          else [.warning key ("Unknown field: " ++ name ++ " for type " ++ record.shown)], none)
  | _ => ([], some (.namespaced k))

/-- The spans of a field. -/
def fieldSpans (node k : Node) (key value : Option Span) : Option Span × Option Span :=
  if node.isMap then ((node.keySpan k).toOption, (node.valueSpan k).toOption) else (key, value)

/-- What the process that a step runs adds; `named` are the inputs that its condition names. -/
def Scene.runFindings (record k : Node) (m : Meaning) (child : Node)
    (value : Option Span) (named : List String) : Findings :=
  if record.isName "WorkflowStep" && k.isName "run" then
    let (ds, i) := Interface.ofProcess (stepProcess m child (S.linked m value))
    { problems := ds
      interface := i.toOption.map fun i => { i with inputs := i.inputs.union (named.map .str) } }
  else {}

def Scene.fieldFindings (record : Node) (fields : Fields) (node : Node)
    (map : Option MapKey) (key value : Option Span) (named : List String) (e : Node × Node) : Findings :=
  let (key, value) := fieldSpans node e.1 key value
  let (ds, m?) := S.taken record fields e.1 e.2 key
  { problems := ds } ++ match m? with
    | none => {}
    | some m => find m e.2 map key value ++ S.runFindings record e.1 m e.2 value named

/-- The inputs that the condition of a step names. -/
def Scene.conditionNames (record : Node) (fields : Fields) (entries : List (Node × Node)) : List String :=
  match entries.find? fun e => e.1.isName "when" with
  | none => []
  | some e =>
    match (S.taken record fields e.1 e.2 none).2 with
    | some (.expression text) => if record.isName "WorkflowStep" then Expression.inputNames text else []
    | _ => []

/-- The problems of the connections of a workflow. -/
def flowProblems (node : Node) (attached : List (Node × Interface)) : List Diagnostic :=
  match node with
  | .map _ es =>
    let part (k : String) : Node := (Node.Entries.field? es k).getD .null
    match Workflow.of (part "inputs") (part "outputs") (part "steps") with
    | .ok w => connectionErrors w (Workflow.Steps.all attached)
    | .error _ => []
  | _ => []

def Scene.recordFindings (name : Node) (fields : Fields) (node : Node)
    (map : Option MapKey) (key value : Option Span) : Findings :=
  match recordEntries node map with
  | none => {}
  | some entries =>
    let named := S.conditionNames name fields entries
    let each := S.fieldFindings find name fields node map key value named
    let steps := (entries.find? fun e => e.1.isName "steps").map fun e => (each e).attached
    { problems := entries.flatMap (fun e => (each e).problems) ++
        if name.isName "Workflow" then flowProblems node (steps.getD []) else []
      imports := entries.flatMap fun e => (each e).imports
      interface := if name.isName "WorkflowStep" then
          (entries.find? fun e => e.1.isName "run").bind fun e => (each e).interface
        else none }

/-! ## Lists and maps -/

def Scene.itemFindings (types : List CwlType) (node : Node) (i : (Option Place × Node) × Nat) : Findings :=
  match S.env.meaning ⟨i.1.2, types, none, none⟩ with
  | .ok m => find m i.1.2 none none (node.itemSpan i.2).toOption
  | .error _ => {}

def Scene.arrayFindings (types : List CwlType) (node : Node) : Findings :=
  match node with
  | .seq _ items =>
    { problems := items.zipIdx.flatMap fun i => (S.itemFindings find types node i).problems
      imports := items.zipIdx.flatMap fun i => (S.itemFindings find types node i).imports }
  | _ => {}

def Scene.entryFindings (name : Node) (types : List CwlType)
    (mapKey : MapKey) (l : Listing) (e : ListingEntry) : Findings :=
  match S.env.meaning ⟨e.value, types, if l.form == .map then some e.key else none,
      if l.form == .map then some mapKey else none⟩ with
  | .error _ => {}
  | .ok m =>
    if name.isName "requirements" && isUnknown m then {}
    else find m e.value (some mapKey) (l.idSpan e).toOption (l.valueSpan e).toOption

def Scene.listingFindings (name : Node) (types : List CwlType) (mapKey : MapKey) (node : Node) : Findings :=
  let (ds, r) := Listing.of node mapKey.subject
  match r with
  | .error _ => {}
  | .ok l =>
    let each := S.entryFindings find name types mapKey l
    { problems := ds ++ l.entries.flatMap fun e => (each e).problems
      imports := l.entries.flatMap fun e => (each e).imports
      attached := if name.isName "steps" then
          l.entries.map fun e => (e.key, (each e).interface.getD {})
        else [] }

/-! ## All together -/

/-- What there is to find in a node, given what there is to find below it. -/
def Scene.findOne : Finder := fun m node map key value =>
  match m with
  | .typed (.enum _ symbols) => { problems := symbolProblems symbols node value }
  | .typed (.array _ types) => S.arrayFindings find types node
  | .typed (.listOrMap name types mapKey) => S.listingFindings find name types mapKey node
  | .typed (.record name _ fields) => S.recordFindings find name fields node map key value
  | .typed _ => {}
  | .absent _ => {}
  | .dataType _ symbols => { problems := S.typeProblems symbols node value }
  | .expression _ => {}
  | .linkedFile target _ => { problems := S.linkProblems target value }
  | .linkedType target =>
    { problems := S.linkProblems target value
      imports := importedName target (S.followed target value) }
  | .namespaced name => { problems := S.prefixProblems name key value }
  | .unknown name expected =>
    { problems := [.error value ("Got type " ++ name.shown ++ ". Expecting one of [" ++
        ", ".intercalate (expected.map shownExpected) ++ "]")] }

/-- What there is to find down to a depth. -/
def Scene.findTo (S : Scene) : Nat → Finder
  | 0 => fun _ _ _ _ _ => {}
  | depth + 1 => S.findOne (S.findTo depth)

end CwlService.Analysis

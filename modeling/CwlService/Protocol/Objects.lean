import CwlService.Document.Answer

/-! # Objects in messages

How the client is told about places, problems, symbols and the rest. Fields without a value
are left out. -/
namespace CwlService.Protocol

def object (fields : List (String × Node)) : Node :=
  .record (fields.filter fun f => !f.2.isNull)

def text : Option String → Node
  | some s => .str s
  | none => .null

def place (p : Place) : Node := object [("line", .num p.line), ("character", .num p.column)]

def span (s : Span) : Node := object [("start", place s.start), ("end", place s.stop)]

def optSpan : Option Span → Node
  | some s => span s
  | none => .null

/-! ## Problems -/

def diagnostic (listed : List String → List String) (d : Diagnostic) : Node :=
  object [("range", optSpan d.span), ("message", .str (d.message.shown listed)),
    ("severity", match d.severity with
      | some s => .num s.code
      | none => .null),
    ("code", text d.code), ("source", text d.source)]

def problems (listed : List String → List String) (uri : Node) (ds : List Diagnostic) : Node :=
  object [("uri", uri), ("diagnostics", .list (ds.map (diagnostic listed)))]

/-! ## Symbols -/

def leaf (l : Outline.Leaf) (children : Node) : Node :=
  object [("name", l.name), ("detail", l.detail), ("kind", .num l.kind.code), ("range", span l.span),
    ("selectionRange", span l.span), ("children", children)]

def symbol (s : Outline.Symbol) : Node :=
  leaf s.toLeaf (match s.children with
    | some ls => .list (ls.map fun l => leaf l .null)
    | none => .null)

/-! ## Answers about a place -/

def markdown (value : String) : Node := object [("kind", .str "markdown"), ("value", .str value)]

def hover (h : Document.Hover) : Node :=
  object [("contents", markdown h.value), ("range", optSpan h.span)]

/-- What is shown for any contents: a text as a block, or the contents as they are. -/
def hoverOf (contents : Node) (block : Bool) : Except Fault Node := do
  if !block then return object [("contents", contents)]
  match contents with
  | .text s _ => pure (hover ⟨s, none⟩)
  | _ => throw .wrongKind

def location (uri : String) : Node := object [("uri", .str uri), ("range", span default)]

def drawing (g : FlowGraph) : Node :=
  .record [("nodes", .list (g.nodes.map fun n =>
      .record [("id", n.id), ("label", n.label), ("title", n.label), ("group", .str n.group)])),
    ("edges", .list (g.edges.map fun e => .record [("from", .str e.1), ("to", e.2)])),
    ("lines", .dict (g.lines.map fun l => (l.1, .num l.2)))]

/-! ## What a client offers to complete -/

def itemKinds : List String :=
  ["Text", "Method", "Function", "Constructor", "Field", "Variable", "Class", "Interface", "Module",
    "Property", "Unit", "Value", "Enum", "Keyword", "Snippet", "Color", "File", "Reference",
    "Folder", "EnumMember", "Constant", "Struct", "Event", "Operator", "TypeParameter"]

def kindNumber (kind : Node) : Nat := (itemKinds.findIdx? kind.isName).getD 0 + 1

structure CompletionItem where
  label : Node
  kind : Nat := 1
  detail : Node := .null
  documentation : Node := .null
  preselect : Node := .null
  sortText : Node := .null
  filterText : Node := .null
  edit : Option (Span × Node) := none
  moreEdits : Node := .null

namespace CompletionItem

def snippetFormat : Int := 2

def toNode (i : CompletionItem) : Node :=
  object [("label", i.label), ("kind", .num i.kind), ("detail", i.detail),
    ("documentation", i.documentation), ("preselect", i.preselect), ("sortText", i.sortText),
    ("filterText", i.filterText),
    ("insertTextFormat", if i.edit.isSome then .num snippetFormat else .null),
    ("textEdit", match i.edit with
      | some (s, new) => object [("range", span s), ("newText", new)]
      | none => .null),
    ("additionalTextEdits", i.moreEdits)]

def snippetFields : List String :=
  ["label", "text_edit", "additional_text_edits", "kind", "insert_text_format", "detail",
    "documentation", "preselect", "sort_text", "filter_text"]

def ofSnippet (snippet : Node) (replaced : Span) : Except Fault CompletionItem := do
  let .map _ es := snippet | throw .wrongKind
  let field (name : String) := (Node.Entries.field? es name).getD .null
  if !(field "kind").isKey then throw .wrongKind
  if es.any fun e => !snippetFields.any e.1.isName then throw .wrongKind
  pure {
    label := (Node.Entries.field? es "label").getD (.str "Unknown")
    kind := kindNumber (field "kind")
    detail := field "detail"
    documentation := field "documentation"
    preselect := field "preselect"
    sortText := field "sort_text"
    filterText := field "filter_text"
    edit := some (replaced, field "text_edit")
    moreEdits := field "additional_text_edits" }

end CompletionItem

def completionList (incomplete : Node) (items : Node) : Node :=
  object [("isIncomplete", incomplete), ("items", if items.truthy then items else .list [])]

end CwlService.Protocol

import CwlService.Yaml.Plain
import CwlService.Yaml.Scan

/-! # From tokens to a document graph

The nodes of a graph are numbered, and a collection holds the numbers of its parts, so that an
alias is the number of the anchored node once more.

A collection takes up its parts one by one. If reading fails, the graph keeps what was
read, and an anchor that was declared stays declared.

Comments are carried along with tokens only because the place of an empty value depends on
them: it stands right after its colon if the colon keeps a comment of its own, and at the end
of the following token otherwise. -/
namespace CwlService.Yaml

inductive Content where
  | scalar (style : ScalarStyle) (text : String)
  | seq (items : Array Nat)
  | map (entries : Array (Nat × Nat))
deriving Repr, Inhabited

structure Vertex where
  tag : Tag
  start : Mark
  anchored : Bool
  content : Content
  /-- The entries that were merged into a map, once its merge keys are gone. -/
  merged : Option (Array (Nat × Nat)) := none
deriving Repr, Inhabited

abbrev Graph := Array Vertex

/-- Tokens left to read, and what has been read and declared so far. -/
structure Reading where
  scanner : Scanner
  limit : Nat
  /-- Whether comments are carried along and tags kept as written. -/
  marked : Bool
  handles : List (String × String) := []
  anchors : List (String × Nat) := []
  graph : Graph := #[]
  /-- The version that the last explicit document declares. -/
  version : Option Version := none
  declaredHandles : List (String × String) := []

/-- Work on a document. What was read stays read, also when reading on fails. -/
abbrev Parse := ExceptT Failure (StateM Reading)

namespace Graph

def defaultHandles : List (String × String) := [("!", "!"), ("!!", Tag.home)]

/-! ## Tokens -/

def scan (act : Nat → Scan α) : Parse α := do
  let s ← get
  let (r, scanner) := (act s.limit).run.run s.scanner
  set { s with scanner }
  r

def glance : Parse Token := scan Scanner.look

/-- The next token. It is looked at again, and by then its candidate key may be stale. -/
def peek : Parse Token := do
  let _ ← glance
  glance

def take : Parse Token := scan Scanner.take

def setNext (t : Token) : Parse Unit := scan fun _ => Scanner.replace t

/-- Moves the comments of a taken token to the next one; the token as it is left. -/
def moveRemark (t : Token) : Parse Token := do
  let target ← peek
  match t.remark with
  | none => return t
  | some r =>
    if target.kind == .streamEnd || target.kind == .documentStart then return t
    match target.remark with
    | none => setNext { target with remark := some r }
    | some q =>
      if (r.after && q.after) || (r.before && q.before) then throw .commentClash
      setNext { target with remark := some ⟨r.after || q.after, r.before || q.before⟩ }
    return { t with remark := none }

/-- Takes the comment after the next token away from it. -/
def splitRemark (t : Token) : Parse Unit :=
  if t.remark == some ⟨true, false⟩ then setNext { t with remark := none } else pure ()

def version : Parse Version := return (← get).scanner.version

def problem (activity : Option (Activity × Option Mark)) (complaint : Complaint) (mark : Mark) :
    Failure := .problem ⟨.shape, activity, complaint, mark⟩

/-! ## Nodes -/

def add (v : Vertex) : Parse Nat := do
  let s ← get
  set { s with graph := s.graph.push v }
  pure s.graph.size

def addItem (number item : Nat) : Parse Unit :=
  modify fun s => { s with graph := s.graph.modify number fun v => match v.content with
    | .seq items => { v with content := .seq (items.push item) }
    | _ => v }

def addEntry (number key value : Nat) : Parse Unit :=
  modify fun s => { s with graph := s.graph.modify number fun v => match v.content with
    | .map entries => { v with content := .map (entries.push (key, value)) }
    | _ => v }

def resolve (text : String) : Parse Tag := do
  let v ← version
  if !v.isKnown then throw (.unknownVersion v)
  pure (Plain.resolve (v == .older) text)

def empty (m : Mark) : Parse Nat := do
  add { tag := ← resolve "", start := m, anchored := false, content := .scalar .plain "" }

/-- The tag that a written tag stands for; nothing for the tag that leaves it open. -/
def resolveTag (start tagMark : Mark) (handle : Option String) (suffix : String) :
    Parse (Option Tag) := do
  let s ← get
  match handle with
  | none => return if suffix == "!" then none else some (Tag.ofUri suffix)
  | some h =>
    match s.handles.lookup h with
    | none => throw (problem (some (.node, some start)) (.undefinedHandle h) tagMark)
    | some target =>
      if s.marked && !(h == "!!" && (Tag.named.lookup suffix).isSome) then
        return some (.custom (h ++ suffix))
      else return some (Tag.ofUri (target ++ suffix))

structure Properties where
  anchor : Option String := none
  /-- Whether a tag was written, and what it stands for. -/
  tagged : Bool := false
  tag : Option Tag := none
  start : Option Mark := none

def properties : Parse Properties := do
  let t ← peek
  match t.kind with
  | .anchor name =>
    let t ← take
    let t ← moveRemark t
    let u ← peek
    match u.kind with
    | .tag handle suffix =>
      let _ ← take
      let tag ← resolveTag t.start u.start handle suffix
      pure { anchor := some name, tagged := true, tag := tag, start := some t.start }
    | _ => pure { anchor := some name, start := some t.start }
  | .tag handle suffix =>
    let _ ← take
    let u ← glance
    match u.kind with
    | .anchor name =>
      let _ ← take
      let tag ← resolveTag u.start u.start handle suffix
      pure { anchor := some name, tagged := true, tag := tag, start := some u.start }
    | _ =>
      let tag ← resolveTag t.start t.start handle suffix
      pure { tagged := true, tag := tag, start := some t.start }
  | _ => pure {}

def declare (p : Properties) (number : Nat) : Parse Unit :=
  match p.anchor with
  | none => pure ()
  | some name => modify fun s => { s with anchors := (name, number) :: s.anchors }

def addNode (p : Properties) (tag : Tag) (start : Mark) (content : Content) : Parse Nat := do
  let number ← add { tag, start, anchored := p.anchor.isSome, content }
  declare p number
  pure number

mutual
/-- Reads a node. `indentless` allows a sequence at the indentation of its parent's keys. -/
def node (block indentless : Bool) : Nat → Parse Nat
  | 0 => throw .endless
  | fuel + 1 => do
    let t ← peek
    if let .alias name := t.kind then
      let _ ← take
      match (← get).anchors.lookup name with
      | some number => return number
      | none => throw (.problem ⟨.references, none, .undefinedAlias name, t.start⟩)
    let p ← properties
    let t ← peek
    let start := p.start.getD t.start
    if indentless && t.kind == .blockEntry then
      setNext { t with remark := t.remark.map fun r => { r with after := false } }
      let number ← addNode p (p.tag.getD .seq) start (.seq #[])
      indentlessItems number fuel
      return number
    match t.kind with
    | .scalar text style =>
      let _ ← take
      let tag ←
        if p.tag.isNone && (style == .plain || p.tagged) then resolve text
        else pure (p.tag.getD .str)
      addNode p tag start (.scalar style text)
    | .flowSeqStart =>
      splitRemark t
      let number ← addNode p (p.tag.getD .seq) start (.seq #[])
      let _ ← take
      flowItems number t.start true fuel
      return number
    | .flowMapStart =>
      splitRemark t
      let number ← addNode p (p.tag.getD .map) start (.map #[])
      let _ ← take
      flowEntries number t.start true fuel
      return number
    | _ =>
      if block && t.kind == .blockSeqStart then
        splitRemark t
        let number ← addNode p (p.tag.getD .seq) start (.seq #[])
        let _ ← take
        blockItems number t.start fuel
        return number
      else if block && t.kind == .blockMapStart then
        splitRemark t
        let number ← addNode p (p.tag.getD .map) start (.map #[])
        let _ ← take
        blockEntries number t.start fuel
        return number
      else if p.anchor.isSome || p.tagged then
        let tag ← match p.tag with
          | some tag => pure tag
          | none => resolve ""
        addNode p tag start (.scalar .plain "")
      else
        let activity := if block then Activity.blockNode else .flowNode
        throw (problem (some (activity, some start)) (.expectedContent t.kind.label) t.start)
termination_by structural fuel => fuel

def blockItems (number : Nat) (start : Mark) : Nat → Parse Unit
  | 0 => throw .endless
  | fuel + 1 => do
    let t ← peek
    if t.kind == .blockEntry then
      let t ← take
      let t ← moveRemark t
      let u ← peek
      let item ←
        if u.kind == .blockEntry || u.kind == .blockEnd then empty t.stop
        else node true false fuel
      addItem number item
      blockItems number start fuel
    else if t.kind == .blockEnd then
      let _ ← take
    else
      throw (problem (some (.blockCollection, some start)) (.expectedBlockEnd t.kind.label) t.start)
termination_by structural fuel => fuel

def indentlessItems (number : Nat) : Nat → Parse Unit
  | 0 => throw .endless
  | fuel + 1 => do
    let t ← peek
    if t.kind == .blockEntry then
      let t ← take
      let t ← moveRemark t
      let u ← peek
      let item ←
        if u.kind == .blockEntry || u.kind == .key || u.kind == .value || u.kind == .blockEnd then
          empty t.stop
        else node true false fuel
      addItem number item
      indentlessItems number fuel
termination_by structural fuel => fuel

def blockEntries (number : Nat) (start : Mark) : Nat → Parse Unit
  | 0 => throw .endless
  | fuel + 1 => do
    let t ← peek
    if t.kind == .key then
      let t ← take
      let t ← moveRemark t
      let u ← peek
      let key ←
        if u.kind == .key || u.kind == .value || u.kind == .blockEnd then empty t.stop
        else node true true fuel
      addEntry number key (← blockValue fuel)
      blockEntries number start fuel
    else if (← version).isAfterOlder && t.kind == .value then
      let key ← empty t.start
      addEntry number key (← blockValue fuel)
      blockEntries number start fuel
    else if t.kind == .blockEnd then
      let t ← take
      let _ ← moveRemark t
    else
      throw (problem (some (.blockMapping, some start)) (.expectedBlockEnd t.kind.label) t.start)
termination_by structural fuel => fuel

def blockValue : Nat → Parse Nat
  | 0 => throw .endless
  | fuel + 1 => do
    let t ← peek
    if t.kind == .value then
      let t ← take
      let u ← peek
      let t ← if u.kind == .key then pure t else moveRemark t
      let u ← peek
      if u.kind == .key || u.kind == .value || u.kind == .blockEnd then
        match t.remark with
        | some _ => empty t.stop
        | none =>
          setNext { u with remark := u.remark.map fun r => { r with after := false } }
          empty u.stop
      else node true true fuel
    else empty t.start
termination_by structural fuel => fuel

def flowItems (number : Nat) (start : Mark) (first : Bool) : Nat → Parse Unit
  | 0 => throw .endless
  | fuel + 1 => do
    let t ← peek
    if t.kind == .flowSeqEnd then
      let _ ← take
      return
    if !first then
      if t.kind == .flowEntry then
        let _ ← take
      else
        throw (problem (some (.flowSequence, some start)) (.expectedFlowSeqNext t.kind.label) t.start)
    let t ← peek
    if t.kind == .key then
      let pair ← add { tag := .map, start := t.start, anchored := false, content := .map #[] }
      let t ← take
      let u ← peek
      let key ←
        if u.kind == .value || u.kind == .flowEntry || u.kind == .flowSeqEnd then empty t.stop
        else node false false fuel
      let u ← peek
      let value ←
        if u.kind == .value then do
          let u ← take
          let v ← peek
          if v.kind == .flowEntry || v.kind == .flowSeqEnd then empty u.stop
          else node false false fuel
        else empty u.start
      addEntry pair key value
      addItem number pair
      flowItems number start false fuel
    else if t.kind == .flowSeqEnd then
      let _ ← take
    else
      addItem number (← node false false fuel)
      flowItems number start false fuel
termination_by structural fuel => fuel

def flowEntries (number : Nat) (start : Mark) (first : Bool) : Nat → Parse Unit
  | 0 => throw .endless
  | fuel + 1 => do
    let t ← peek
    if t.kind == .flowMapEnd then
      let _ ← take
      return
    if !first then
      if t.kind == .flowEntry then
        let _ ← take
      else
        throw (problem (some (.flowMapping, some start)) (.expectedFlowMapNext t.kind.label) t.start)
    let t ← peek
    if t.kind == .key then
      let t ← take
      let u ← peek
      let key ←
        if u.kind == .value || u.kind == .flowEntry || u.kind == .flowMapEnd then empty t.stop
        else node false false fuel
      addEntry number key (← flowValue fuel)
      flowEntries number start false fuel
    else if (← version).isAfterOlder && t.kind == .value then
      let key ← empty t.stop
      addEntry number key (← flowValue fuel)
      flowEntries number start false fuel
    else if t.kind == .flowMapEnd then
      let _ ← take
    else
      let key ← node false false fuel
      let u ← peek
      addEntry number key (← empty u.start)
      flowEntries number start false fuel
termination_by structural fuel => fuel

def flowValue : Nat → Parse Nat
  | 0 => throw .endless
  | fuel + 1 => do
    let t ← peek
    if t.kind == .value then
      let t ← take
      let u ← peek
      if u.kind == .flowEntry || u.kind == .flowMapEnd then empty t.stop
      else node false false fuel
    else empty t.start
termination_by structural fuel => fuel
end

/-! ## Documents -/

def directives : Nat → Option Version → List (String × String) →
    Parse (Option Version × List (String × String))
  | 0, _, _ => throw .endless
  | fuel + 1, seen, handles => do
    let t ← peek
    match t.kind with
    | .version v =>
      let _ ← take
      if seen.isSome then throw (problem none .duplicateVersion t.start)
      if v.major != 1 then throw (problem none .unsupportedVersion t.start)
      directives fuel (some v) handles
    | .handle name target =>
      let _ ← take
      if (handles.lookup name).isSome then throw (problem none (.duplicateHandle name) t.start)
      directives fuel seen (handles ++ [(name, target)])
    | .directive =>
      let _ ← take
      directives fuel seen handles
    | _ => pure (seen, handles)

def skipDocumentEnds : Nat → Parse Unit
  | 0 => throw .endless
  | fuel + 1 => do
    if (← peek).kind == .documentEnd then
      let _ ← take
      skipDocumentEnds fuel
    else pure ()

/-- Handles with further ones, which count in place of those of the same name. -/
def withHandles (handles more : List (String × String)) : List (String × String) :=
  handles.filter (fun h => !more.any (·.1 == h.1)) ++ more

/-- Starts a document: nothing at the end of the text, else where it starts and whether it
is explicit. -/
def documentStart (implicit : Bool) (fuel : Nat) : Parse (Option (Mark × Bool)) := do
  let t ← peek
  if implicit && !(t.kind.isDirective || t.kind == .documentStart || t.kind == .streamEnd) then
    modify fun s => { s with handles := defaultHandles }
    return some (t.start, false)
  skipDocumentEnds fuel
  if (← peek).kind == .streamEnd then
    let _ ← take
    return none
  let (version, handles) ← directives fuel none []
  modify fun s => { s with
    handles := withHandles defaultHandles handles
    version
    declaredHandles := withHandles s.declaredHandles handles }
  let t ← peek
  if t.kind != .documentStart then
    throw (problem none (.expectedDocument t.kind.label) t.start)
  let _ ← take
  return some (t.start, true)

def document (fuel : Nat) : Parse (Option Nat) := do
  let t ← take
  let _ ← moveRemark t
  match ← documentStart true fuel with
  | none => return none
  | some (_, explicit) =>
    let t ← peek
    let root ←
      if explicit && (t.kind.isDirective || t.kind == .documentStart || t.kind == .documentEnd ||
          t.kind == .streamEnd) then empty t.start
      else node true false fuel
    if (← peek).kind == .documentEnd then
      let _ ← take
    modify fun s => { s with anchors := [] }
    match ← documentStart ((← version) != .older) fuel with
    | none => return some root
    | some (mark, _) =>
      let start := ((← get).graph[root]?.map (·.start)).getD default
      throw (.problem ⟨.references, some (.singleDocument, some start), .anotherDocument, mark⟩)

end Graph
end CwlService.Yaml

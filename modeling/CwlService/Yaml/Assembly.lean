import CwlService.Yaml.Graph
import CwlService.Yaml.ScalarData

/-! # From a document graph to data

*Marked* data keep the places of keys, values and items; the first of two equal keys stays, and
merged entries come last. *Plain* data have no places; two equal keys are a failure unless the
map merges another, and merged entries come first.

A document may use a collection before it is complete. So collections are put together in
*cells* with addresses, and most of them are only begun at first: filling them is put off until
the collections around them are filled. Keys, and everything inside a marked map, are filled at
once. The order shows: it decides which of several failures is met first, what a merge finds in
its sources, and where a collection that uses itself is cut off. What was put off when a
failure was met stays to be done, and the next document starts with it. -/
namespace CwlService.Yaml

/-- A piece of data: complete, or in a cell. -/
inductive Piece where
  | node (n : Node)
  | cell (address : Nat)
deriving Inhabited

structure Key where
  node : Node
  source : Nat
  /-- The cell of a key that is a date. -/
  cell : Option Nat := none

inductive Cell where
  | date (n : Node)
  | seq (form : Form) (items : Array (Option Place × Piece))
  /-- A map, with the cells of the maps that it merges. -/
  | map (form : Form) (entries : Array (Key × Option (Place × Place) × Piece)) (sources : List Nat)
  | set (marked : Bool) (members : Array Key)
deriving Inhabited

structure Assembly where
  mode : Mode
  graph : Graph := #[]
  cells : Array Cell := #[]
  made : Array (Option Piece) := #[]
  making : List Nat := []
  pending : Array (Nat × Nat) := #[]
  atOnce : Bool := false

/-- Putting data together. What was made stays made, also when going on fails. -/
abbrev Assemble := ExceptT Failure (StateM Assembly)

namespace Assembly

/-! ## The state -/

def vertex (v : Nat) : Assemble Vertex := do
  match (← get).graph[v]? with
  | some x => pure x
  | none => throw .endless

def changeVertex (v : Nat) (f : Vertex → Vertex) : Assemble Unit :=
  modify fun s => { s with graph := s.graph.modify v f }

def placeOf (v : Nat) : Assemble Place := do
  let m := (← vertex v).start
  pure ⟨m.line, m.column⟩

def newCell (c : Cell) : Assemble Nat := do
  let s ← get
  set { s with cells := s.cells.push c }
  pure s.cells.size

def setCell (address : Nat) (c : Cell) : Assemble Unit :=
  modify fun s => { s with cells := s.cells.setIfInBounds address c }

def addEntry (address : Nat) (e : Key × Option (Place × Place) × Piece) : Assemble Unit :=
  modify fun s => { s with cells := s.cells.modify address fun c => match c with
    | .map form entries sources => .map form (entries.push e) sources
    | c => c }

def entriesIn (cells : Array Cell) (address : Nat) :
    Option (Array (Key × Option (Place × Place) × Piece)) :=
  match cells[address]? with
  | some (.map form entries _) => if form.kind == .usual then some entries else none
  | _ => none

/-! ## Keys -/

/-- Equality of keys. A scalar under a tag of its own equals only itself, and there is one
number that is none. -/
def sameKey (a b : Key) : Bool :=
  match a.node, b.node with
  | .tagged _, .tagged _ => a.source == b.source
  | .float x _, .float y _ => (x.isNaN && y.isNaN) || x.same y
  | m, n => m.same n

def isKeyPart (cells : Array Cell) : Nat → Piece → Bool
  | _, .node _ => true
  | 0, .cell _ => false
  | fuel + 1, .cell a =>
    match cells[a]? with
    | some (.date _) => true
    | some (.seq form items) => form.kind == .fixed && items.all fun i => isKeyPart cells fuel i.2
    | _ => false

def partNode (cells : Array Cell) : Nat → Piece → Node
  | _, .node n => n
  | 0, .cell _ => .null
  | fuel + 1, .cell a =>
    match cells[a]? with
    | some (.date n) => n
    | some (.seq form items) =>
      .seq { form with marked := false } (items.toList.map fun i => (none, partNode cells fuel i.2))
    | _ => .null

def keyDepth : Nat := 4

/-- A key from a piece, and the failure that using it comes to, if it does. A list can be a key,
and in marked data a map too, unless it is a key of a set. -/
def keyOf (mapKeys : Bool) (source : Nat) (p : Piece) : Assemble (Key × Option Failure) := do
  let cells := (← get).cells
  let usable (parts : List Piece) : Option Failure :=
    if parts.all (isKeyPart cells keyDepth) then none else some .deepKey
  match p with
  | .node n => pure (⟨n, source, none⟩, none)
  | .cell a =>
    match cells[a]? with
    | some (.date n) => pure (⟨n, source, some a⟩, none)
    | some (.seq _ items) =>
      let parts := items.toList.map (·.2)
      let node := Node.seq { kind := .fixed } (parts.map fun p => (none, partNode cells keyDepth p))
      pure (⟨node, source, none⟩, usable parts)
    | some (.map form entries _) =>
      if !mapKeys then throw .wrongShape
      let es := entries.toList.map fun e => (e.1.node, none, partNode cells keyDepth e.2.2)
      pure (⟨.map { form with kind := .usual } es, source, none⟩, usable (entries.toList.map (·.2.2)))
    | _ => throw .wrongShape

def put (entries : Array (Key × Piece)) (key : Key) (p : Piece) : Array (Key × Piece) :=
  match entries.findIdx? fun e => sameKey e.1 key with
  | some i => entries.modify i fun e => (e.1, p)
  | none => entries.push (key, p)

/-! ## Scalars -/

/-- The style and the text of a scalar. In plain data a map with a default value stands for
that value. -/
def scalarOf (v : Nat) : Nat → Assemble (ScalarStyle × String)
  | 0 => throw .endless
  | fuel + 1 => do
    match (← vertex v).content with
    | .scalar style text => pure (style, text)
    | .seq _ => throw .wrongShape
    | .map entries =>
      if (← get).mode.marked then throw .wrongShape
      let found ← entries.toList.findM? fun e => return (← vertex e.1).tag == .value
      match found with
      | some (_, value) => scalarOf value fuel
      | none => throw .wrongShape

def scalarPiece (v : Nat) (fuel : Nat) : Assemble Piece := do
  let x ← vertex v
  let mode := (← get).mode
  let (style, text) ← match x.tag, x.content with
    | .timestamp, .scalar style text => pure (style, text)
    | .timestamp, _ => throw .wrongShape
    | _, _ => scalarOf v fuel
  let n ← ScalarData.ofText mode x.anchored x.tag style text
  match n with
  | .date _ _ | .moment _ _ _ => return .cell (← newCell (.date n))
  | _ => return .node n

/-! ## Merging -/

def entriesOf (v : Nat) : Assemble (Array (Nat × Nat)) := do
  match (← vertex v).content with
  | .map entries => pure entries
  | _ => throw .wrongShape

def setEntries (v : Nat) (entries : Array (Nat × Nat)) : Assemble Unit :=
  changeVertex v fun x => { x with content := .map entries }

def mergeSources (value : Nat) : Assemble (List Nat) := do
  match (← vertex value).content with
  | .map _ => pure [value]
  | .seq items => pure items.toList
  | _ => throw .wrongShape

def checkMap (v : Nat) : Assemble Unit := do
  let _ ← entriesOf v

/-- Makes a key that stands for a default value a text. -/
def plainKey (key : Nat) : Assemble Unit := do
  if (← vertex key).tag == .value then changeVertex key fun x => { x with tag := .str }

/-- Takes the merge keys out of a plain map, from an index on, and puts the entries that they
merge in front; later sources come first. A second merge key is a failure once something was
merged. -/
def flatten : Nat → Nat → Nat → Array (Nat × Nat) → Assemble Unit
  | 0, _, _, _ => throw .endless
  | fuel + 1, v, index, merged => do
    let entries ← entriesOf v
    match entries[index]? with
    | none =>
      if !merged.isEmpty then
        changeVertex v fun x => { x with content := .map (merged ++ entries), merged := some merged }
    | some (key, value) =>
      if (← vertex key).tag == .merge then
        if !merged.isEmpty then throw .duplicateKey
        setEntries v (entries.eraseIdxIfInBounds index)
        let sources ← mergeSources value
        let parts ← sources.mapM fun source => do
          checkMap source
          flatten fuel source 0 #[]
          pure source
        let found ← parts.reverse.mapM entriesOf
        flatten fuel v index (found.foldl (· ++ ·) merged)
      else
        plainKey key
        flatten fuel v (index + 1) merged

/-! ## Collections -/

def isScalarTag : Tag → Bool
  | .null | .bool | .int | .float | .binary | .timestamp | .str => true
  | _ => false

def emptyCell (marked : Bool) (x : Vertex) : Cell :=
  match x.tag with
  | .omap => .map { marked, kind := .ordered } #[] []
  | .pairs => .seq .plain #[]
  | .set => .set marked #[]
  | .seq => .seq { marked } #[]
  | .map => .map { marked } #[] []
  | _ =>
    match x.content with
    | .seq _ => .seq { marked } #[]
    | _ => .map { marked } #[] []

def singleEntries (v : Nat) : Assemble (List Nat) := do
  match (← vertex v).content with
  | .seq items => pure items.toList
  | _ => throw .wrongShape

def singleEntry (v : Nat) : Assemble (Nat × Nat) := do
  match (← vertex v).content with
  | .map entries =>
    match entries.toList with
    | [e] => pure e
    | _ => throw .wrongShape
  | _ => throw .wrongShape

mutual
/-- The piece of a graph node; `deep` asks for all of it at once. A node that is being made is
nothing yet. -/
def construct (v : Nat) (deep : Bool) : Nat → Assemble Piece
  | 0 => throw .endless
  | fuel + 1 => do
    if let some (some p) := (← get).made[v]? then return p
    let before := (← get).atOnce
    if deep then modify fun s => { s with atOnce := true }
    if (← get).making.contains v then return .node .null
    modify fun s => { s with making := v :: s.making }
    let p ← begin_ v fuel
    modify fun s => { s with
      made := s.made.setIfInBounds v (some p)
      making := s.making.erase v
      atOnce := if deep then before else s.atOnce }
    return p
termination_by structural fuel => fuel

/-- Makes a scalar, or begins a collection and fills it now or later. -/
def begin_ (v : Nat) : Nat → Assemble Piece
  | 0 => throw .endless
  | fuel + 1 => do
    let x ← vertex v
    let marked := (← get).mode.marked
    if isScalarTag x.tag then scalarPiece v fuel
    else
      let ownTag := match x.tag with
        | .seq | .map | .omap | .pairs | .set => false
        | _ => true
      if ownTag && !marked then throw .wrongShape
      match ownTag, x.content with
      | true, .scalar _ _ => scalarPiece v fuel
      | _, _ =>
        let address ← newCell (emptyCell marked x)
        if (← get).atOnce then fill v address fuel
        else modify fun s => { s with pending := s.pending.push (v, address) }
        return .cell address
termination_by structural fuel => fuel

/-- Fills the cell of a collection. Whatever goes wrong inside a collection under a tag of its
own counts as a fault of the tag. -/
def fill (v address : Nat) : Nat → Assemble Unit
  | 0 => throw .endless
  | fuel + 1 => do
    let x ← vertex v
    match x.tag with
    | .seq => fillItems v address true fuel
    | .map => if (← get).mode.marked then fillMarked v address true fuel else fillPlain v address fuel
    | .omap => fillOrdered v address fuel
    | .pairs => fillPairs v address fuel
    | .set => fillSet v address fuel
    | _ =>
      tryCatch
        (match x.content with
          | .seq _ => fillItems v address false fuel
          | _ => fillMarked v address false fuel)
        fun _ => throw .wrongShape
termination_by structural fuel => fuel

def fillItems (v address : Nat) (placed : Bool) : Nat → Assemble Unit
  | 0 => throw .endless
  | fuel + 1 => do
    let .seq items := (← vertex v).content | throw .wrongShape
    let marked := (← get).mode.marked
    let pieces ← items.toList.mapM fun i => do
      let p ← construct i false fuel
      let place ← if marked && placed then some <$> placeOf i else pure none
      pure (place, p)
    setCell address (.seq { marked } pieces.toArray)
termination_by structural fuel => fuel

/-- Takes the merge keys out of a marked map, from an index on: the cells that they merge. Once
something is merged, a further merge key is dropped and the entry after it is passed over. -/
def mergedCells (v index : Nat) (found : List Piece) : Nat → Assemble (List Piece)
  | 0 => throw .endless
  | fuel + 1 => do
    let entries ← entriesOf v
    match entries[index]? with
    | none => pure found
    | some (key, value) =>
      if (← vertex key).tag == .merge then
        setEntries v (entries.eraseIdxIfInBounds index)
        if !found.isEmpty then mergedCells v (index + 1) found fuel
        else
          let sources ← mergeSources value
          let cells ← sources.mapM fun source => do
            checkMap source
            construct source false fuel
          mergedCells v index cells fuel
      else
        plainKey key
        mergedCells v (index + 1) found fuel
termination_by structural fuel => fuel

def fillMarked (v address : Nat) (deep : Bool) : Nat → Assemble Unit
  | 0 => throw .endless
  | fuel + 1 => do
    checkMap v
    let merged ← mergedCells v 0 [] fuel
    let entries ← entriesOf v
    entries.toList.forM fun (k, w) => do
      let p ← construct k true fuel
      let (key, failure) ← keyOf true k p
      let value ← construct w deep fuel
      if let some f := failure then throw f
      let known := (entriesIn (← get).cells address).getD #[]
      if !known.any fun e => sameKey e.1 key then
        addEntry address (key, some (← placeOf k, ← placeOf w), value)
    merged.forM fun m => do
      let .cell source := m | throw .notMergeable
      let some more := entriesIn (← get).cells source | throw .notMergeable
      more.toList.forM fun (key, _, value) => do
        let known := (entriesIn (← get).cells address).getD #[]
        if !known.any fun e => sameKey e.1 key then addEntry address (key, none, value)
    let sources := merged.filterMap fun m => match m with
      | .cell a => some a
      | .node _ => none
    modify fun s => { s with cells := s.cells.modify address fun c => match c with
      | .map form es _ => .map form es sources
      | c => c }
termination_by structural fuel => fuel

def plainGroup (entries : Array (Nat × Nat)) (unique : Bool) : Nat → Assemble (Array (Key × Piece))
  | 0 => throw .endless
  | fuel + 1 => do
    entries.toList.foldlM (fun acc (k, w) => do
      let p ← construct k true fuel
      let (key, failure) ← keyOf false k p
      let value ← construct w false fuel
      if let some f := failure then throw f
      if unique && acc.any fun e => sameKey e.1 key then throw .duplicateKey
      pure (put acc key value)) #[]
termination_by structural fuel => fuel

/-- The keys and values of a plain map: merged ones first, own values over them. -/
def plainEntries (v : Nat) : Nat → Assemble (Array (Key × Piece))
  | 0 => throw .endless
  | fuel + 1 => do
    checkMap v
    flatten fuel v 0 #[]
    let entries ← entriesOf v
    match (← vertex v).merged with
    | none => plainGroup entries true fuel
    | some merged =>
      let first ← plainGroup merged false fuel
      let all ← plainGroup entries false fuel
      pure (all.foldl (fun acc e => put acc e.1 e.2) first)
termination_by structural fuel => fuel

def fillPlain (v address : Nat) : Nat → Assemble Unit
  | 0 => throw .endless
  | fuel + 1 => do
    let entries ← plainEntries v fuel
    setCell address (.map .plain (entries.map fun e => (e.1, none, e.2)) [])
termination_by structural fuel => fuel

/-- Fills a map from a list of single entries, which has every key once. -/
def fillOrdered (v address : Nat) : Nat → Assemble Unit
  | 0 => throw .endless
  | fuel + 1 => do
    (← singleEntries v).forM fun i => do
      let (k, w) ← singleEntry i
      let p ← construct k false fuel
      let (key, failure) ← match p with
        | .node n => pure (Key.mk n k none, none)
        | .cell a => match (← get).cells[a]? with
          | some (.date n) => pure (Key.mk n k (some a), none)
          | _ => pure (Key.mk .null k none, some .deepKey)
      if let some f := failure then throw f
      if let some (.map _ known _) := (← get).cells[address]? then
        if known.any fun e => sameKey e.1 key then throw .repeatedEntry
      let value ← construct w false fuel
      addEntry address (key, none, value)
termination_by structural fuel => fuel

def fillPairs (v address : Nat) : Nat → Assemble Unit
  | 0 => throw .endless
  | fuel + 1 => do
    let pairs ← (← singleEntries v).mapM fun i => do
      let (k, w) ← singleEntry i
      let key ← construct k false fuel
      let value ← construct w false fuel
      let pair ← newCell (.seq { kind := .fixed } #[(none, key), (none, value)])
      pure (none, Piece.cell pair)
    setCell address (.seq .plain pairs.toArray)
termination_by structural fuel => fuel

def fillSet (v address : Nat) : Nat → Assemble Unit
  | 0 => throw .endless
  | fuel + 1 => do
    if (← get).mode.marked then
      let members ← (← entriesOf v).toList.foldlM (fun acc (k, w) => do
        let p ← construct k true fuel
        let (key, failure) ← keyOf false k p
        let _ ← construct w false fuel
        if let some f := failure then throw f
        pure (if acc.any fun m => sameKey m key then acc else acc.push key)) #[]
      setCell address (.set true members)
    else
      let entries ← plainEntries v fuel
      setCell address (.set false (entries.map (·.1)))
termination_by structural fuel => fuel
end

/-- Fills what was put off, round by round, until nothing is left. -/
def fillPending (limit : Nat) : Nat → Assemble Unit
  | 0 => throw .endless
  | rounds + 1 => do
    let tasks := (← get).pending
    if !tasks.isEmpty then
      modify fun s => { s with pending := #[] }
      tasks.toList.forM fun (v, address) => fill v address limit
      fillPending limit rounds

/-! ## Reading data out of cells -/

def piecesIn : Cell → List Piece
  | .date _ => []
  | .seq _ items => items.toList.map (·.2)
  | .map _ entries _ =>
    entries.toList.flatMap fun e => (e.1.cell.map Piece.cell).toList ++ [e.2.2]
  | .set _ members => members.toList.filterMap fun m => m.cell.map Piece.cell

/-- How often each cell is used, starting from pieces; at most `fuel` pieces are looked at. -/
def countUses (cells : Array Cell) : Nat → List Piece → Array Nat → Array Nat
  | 0, _, counts => counts
  | _ + 1, [], counts => counts
  | fuel + 1, .node _ :: rest, counts => countUses cells fuel rest counts
  | fuel + 1, .cell a :: rest, counts =>
    let seen := counts[a]?.getD 0
    let counts := counts.modify a (· + 1)
    if seen == 0 then countUses cells fuel ((cells[a]?.map piecesIn).getD [] ++ rest) counts
    else countUses cells fuel rest counts

/-- The identity of a cell: its address, if it is used more than once. -/
def identity? (counts : Array Nat) (address : Nat) : Option Nat :=
  if counts[address]?.getD 0 > 1 then some address else none

def identified (n : Node) (identity : Option Nat) : Node :=
  match n with
  | .date d _ => .date d identity
  | .moment m styled _ => .moment m styled identity
  | n => n

def keyNode (counts : Array Nat) (k : Key) : Node :=
  match k.cell with
  | some a => identified k.node (identity? counts a)
  | none => k.node

/-- How often a collection is told inside itself. -/
def turns : Nat := 3

/-- The data of a piece, inside the cells `around`; `depth` bounds how many there can be. -/
def nodeOf (cells : Array Cell) (counts : Array Nat) : Nat → (around : List Nat) → Piece → Node
  | _, _, .node n => n
  | 0, _, .cell a => .again a
  | depth + 1, around, .cell a =>
    let identity := identity? counts a
    if around.count a ≥ turns then .again a
    else
      match cells[a]? with
      | none => .null
      | some (.date n) => identified n identity
      | some (.seq form items) =>
        .seq { form with identity }
          (items.toList.map fun i => (i.1, nodeOf cells counts depth (a :: around) i.2))
      | some (.map form entries _) =>
        .map { form with identity } (entries.toList.map fun e =>
          (keyNode counts e.1, e.2.1, nodeOf cells counts depth (a :: around) e.2.2))
      | some (.set marked members) => .set marked (members.toList.map (keyNode counts))

def read (cells : Array Cell) (p : Piece) : Node :=
  let edges := cells.foldl (fun n c => n + (piecesIn c).length) 2
  let counts := countUses cells edges [p] (Array.replicate cells.size 0)
  nodeOf cells counts (turns * cells.size + 1) [] p

/-- The data that a map finds under keys it does not list: what it merges and did not take
up, since its sources were not filled yet. -/
def unlisted (cells : Array Cell) (p : Piece) : Node.Entries := Id.run do
  let .cell a := p | return []
  let some (.map _ entries sources) := cells[a]? | return []
  let found := sources.flatMap fun s => ((entriesIn cells s).getD #[]).toList
  let fresh := found.foldl (fun (acc : List (Key × Piece)) e =>
    if entries.any (fun o => sameKey o.1 e.1) || acc.any (fun o => sameKey o.1 e.1) then acc
    else acc ++ [(e.1, e.2.2)]) []
  return fresh.map fun e => (e.1.node, none, read cells e.2)

/-! ## Documents -/

/-- Bounds how deep making a document goes: no node is made inside itself, and a map is gone
through entry by entry. -/
def depthLimit (s : Assembly) : Nat := 16 * s.graph.size + 1024

def document (root : Nat) : Assemble Piece := do
  let limit := (← get).depthLimit
  modify fun s => { s with made := s.made ++ Array.replicate (s.graph.size - s.made.size) none }
  let p ← construct root false limit
  fillPending limit (limit + (← get).pending.size)
  modify fun s => { s with made := #[], making := [], atOnce := false }
  pure p

end Assembly
end CwlService.Yaml

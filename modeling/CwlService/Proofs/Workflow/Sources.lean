import CwlService.Workflow.Connections

/-! # Sources and what is wrong with them

What the problems of a workflow should be, said without going through it: the sources that
are written in it, which of them can be resolved, and which inputs none of them names. -/
namespace CwlService.Workflow

open List

/-! ## Sources as they are written -/

/-- A source with its span. -/
structure Source where
  node : Node
  span : Option Span

/-- The entries of a list or a map. -/
def listing (n : Node) : Listing := (Listing.of n (.str "id")).2.toOption.getD ⟨.neither, n, []⟩

/-- The sources in a list; an item that is nothing is no source. -/
def itemSources (list : Node) (items : Node.Items) (first : Nat) : List Source :=
  ((items.zipIdx first).map fun (i, n) => ⟨i.2, (list.itemSpan n).toOption⟩).filter fun s =>
    !s.node.isNull

/-- A text is one source, and a list has many. -/
def writtenSources (src : Node) (span : Option Span) : List Source :=
  match src with
  | .text _ _ => [⟨src, span⟩]
  | .seq _ items => itemSources src items 0
  | _ => []

/-- The sources of a port, which are written in its place or in its field `field`. -/
def sourcesOf (field : String) (port : Node) (span : Option Span) : List Source :=
  match port with
  | .map _ es =>
    match Node.Entries.field? es field with
    | some src => writtenSources src (port.valueSpan (.str field)).toOption
    | none => []
  | _ => writtenSources port span

/-! ## Sources that can be resolved -/

variable (w : Workflow) (known : Steps) (step : Option Node)

/-- A text names an output of a step, `t/p`, and the step is not the one that takes it. -/
def IsOutput (s : String) : Prop :=
  ∃ t p i, s = t ++ "/" ++ p ∧ (step.any fun id => id.isName t) = false ∧
    known.get? (.str t) = some i ∧ i.outputs.contains (.str p) = true

/-- A source is an input of the workflow or an output of another step. -/
def Resolvable (src : Node) : Prop :=
  w.inputNames.contains src = true ∨ ∃ s, src.text? = some s ∧ IsOutput known step s

/-- Whether a text names an output if it is cut at a position. -/
def isOutputAt (cs : List Char) (n : Nat) : Bool :=
  let t := String.ofList (cs.take n)
  let p := String.ofList (cs.drop (n + 1))
  cs[n]? == some '/' && !(step.any fun id => id.isName t) &&
    (known.get? (.str t)).any fun i => i.outputs.contains (.str p)

theorem isOutput_iff {known step s} : IsOutput known step s ↔
      ((List.range s.toList.length).any fun n => isOutputAt known step s.toList n) = true := by
  simp only [IsOutput, any_eq_true, mem_range, isOutputAt, Bool.and_eq_true, beq_iff_eq,
    Bool.not_eq_true', Option.any_eq_true]
  constructor
  · rintro ⟨t, p, i, rfl, hstep, hi, hp⟩
    refine ⟨t.toList.length, by simp, ⟨⟨by simp, ?_⟩, i, ?_, ?_⟩⟩
    · simpa using hstep
    · simpa using hi
    · simpa using hp
  · rintro ⟨n, hn, ⟨⟨hcut, hstep⟩, i, hi, hp⟩⟩
    refine ⟨_, _, i, ?_, hstep, hi, hp⟩
    obtain ⟨_, hget⟩ := List.getElem?_eq_some_iff.mp hcut
    have hslash : "/".toList = ['/'] := rfl
    refine String.toList_inj.mp ?_
    simp only [String.toList_append, String.toList_ofList, hslash, append_assoc, singleton_append]
    rw [← hget, getElem_cons_drop, take_append_drop]

instance (s : String) : Decidable (IsOutput known step s) :=
  decidable_of_iff _ isOutput_iff.symm

instance (src : Node) : Decidable (Resolvable w known step src) :=
  match h : src.text? with
  | some s => decidable_of_iff (w.inputNames.contains src = true ∨ IsOutput known step s)
      (by simp [Resolvable, h])
  | none => decidable_of_iff (w.inputNames.contains src = true) (by simp [Resolvable, h])

/-- Where sources are that cannot be resolved. -/
def unresolved (sources : List Source) : List (Option Span) :=
  (sources.filter fun s => !decide (Resolvable w known step s.node)).map (·.span)

/-! ## Steps and outputs -/

/-- A step whose interface is known, and its ports. -/
structure Attached where
  id : Node
  interface : Interface
  ports : Listing

/-- A step counts if it is a map and its interface is known. -/
def attached? (e : ListingEntry) : Option Attached :=
  match known.get? e.key, e.value with
  | some i, .map _ es => some ⟨e.key, i, listing ((Node.Entries.field? es "in").getD .null)⟩
  | _, _ => none

/-- The steps that count, in order. -/
def attachedSteps : List Attached :=
  (listing w.steps).entries.filterMap (attached? known)

namespace Attached

/-- The sources of a port; only a port of the interface takes any. -/
def sources (s : Attached) (e : ListingEntry) : List Source :=
  if s.interface.inputs.contains e.key then
    sourcesOf "source" e.value (s.ports.valueSpan e).toOption
  else []

/-- Where the errors of a port are: at its sources, or at itself if it is not in the
interface. -/
def faults (s : Attached) (e : ListingEntry) : List (Option Span) :=
  if s.interface.inputs.contains e.key then unresolved w known (some s.id) (s.sources e)
  else [(s.ports.idSpan e).toOption]

end Attached

def stepSources : List Source :=
  (attachedSteps w known).flatMap fun s => s.ports.entries.flatMap s.sources

def stepFaults : List (Option Span) :=
  (attachedSteps w known).flatMap fun s => s.ports.entries.flatMap (s.faults w known)

def outputSources : List Source :=
  (listing w.outputs).entries.flatMap fun e =>
    sourcesOf "outputSource" e.value ((listing w.outputs).valueSpan e).toOption

def outputFaults : List (Option Span) :=
  unresolved w known none (outputSources w)

/-! ## Inputs that nothing uses -/

/-- Everything that a step or an output takes its value from. -/
def visited : List Node :=
  (stepSources w known ++ outputSources w).map (·.node)

/-- A set without all keys that are the same as one of a list. -/
def without (names : NameSet) (sources : List Node) : NameSet := sources.foldl NameSet.erase names

/-- The inputs, in the order of their keys, that are left over once all sources are taken out. -/
def leftOver : List ListingEntry :=
  (Listing.sorted (listing w.inputs).entries).filter
    (isUnused (without w.inputNames (visited w known)))

/-- The inputs, in the order of their keys, that no source names. -/
def unusedInputs : List ListingEntry :=
  (Listing.sorted (listing w.inputs).entries).filter fun e =>
    !(visited w known).any fun src => e.key.same src

/-! ## What is said of them -/

/-- The error of a source, if it leads nowhere. -/
def sourceErrors (s : Source) : List Diagnostic :=
  if !s.node.isKey || w.inputNames.contains s.node then [] else
  match sourceFault? w known step s.node with
  | .ok (some message) => [.error s.span message]
  | _ => []

/-- The errors of a port of a step. -/
def Attached.errors (s : Attached) (e : ListingEntry) : List Diagnostic :=
  if s.interface.inputs.contains e.key then
    (s.sources e).flatMap (sourceErrors w known (some s.id))
  else
    [.error (s.ports.idSpan e).toOption
      (if s.interface.inputs.isEmpty then "No input ports found for this step"
        else s.interface.inputs.listedIn "Expecting one of: ")]

/-- All problems of the connections of a workflow. -/
def connectionErrors : List Diagnostic :=
  (attachedSteps w known).flatMap (fun s => s.ports.entries.flatMap (s.errors w known)) ++
    (outputSources w).flatMap (sourceErrors w known none) ++
    (unusedInputs w known).map fun e =>
      .warning ((listing w.inputs).idSpan e).toOption "Unused input"

/-! ## What has to be known to check them -/

/-- A source that can be looked up: an input, or something else that is no text or has at most
one slash in it. -/
def Legible (src : Node) : Prop :=
  src.isKey = true ∧
    (w.inputNames.contains src = true ∨ ∀ s ∈ src.text?, (Text.parts '/' s).length ≤ 2)

/-- The items of a list have their places. -/
def WrittenPlaced (src : Node) : Prop :=
  match src with
  | .seq _ items => ∀ i ∈ items.zipIdx, (src.itemSpan i.2).isOk = true
  | _ => True

/-- The sources of a port have their places. -/
def PortPlaced (field : String) (port : Node) : Prop :=
  match port with
  | .map _ es => ∀ src ∈ Node.Entries.field? es field,
      (port.valueSpan (.str field)).isOk = true ∧ WrittenPlaced src
  | _ => WrittenPlaced port

namespace Attached

/-- A port has its place, and so have its sources if it is in the interface. -/
def EntryPlaced (s : Attached) (e : ListingEntry) : Prop :=
  if s.interface.inputs.contains e.key then
    (s.ports.valueSpan e).isOk = true ∧ PortPlaced "source" e.value
  else (s.ports.idSpan e).isOk = true

/-- The ports of a step can be listed and have their places. -/
def Placed (s : Attached) : Prop :=
  (Listing.of s.ports.source (.str "id")).2.isOk = true ∧ ∀ e ∈ s.ports.entries, s.EntryPlaced e

end Attached

/-- Everything that may hold a source can be listed and has its place. -/
structure Located (w : Workflow) (known : Steps) : Prop where
  steps : (Listing.of w.steps (.str "id")).2.isOk = true
  ports : ∀ s ∈ attachedSteps w known, s.Placed
  outputs : (Listing.of w.outputs (.str "id")).2.isOk = true
  sources : ∀ e ∈ (listing w.outputs).entries,
    ((listing w.outputs).valueSpan e).isOk = true ∧ PortPlaced "outputSource" e.value
  inputs : (Listing.of w.inputs (.str "id")).2.isOk = true

end CwlService.Workflow

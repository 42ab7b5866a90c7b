import CwlService.Yaml.Assembly

/-! # Reading documents one after the other

Some things stay with a reader: the version that was declared last; the anchors of a text that
failed, and the collections that were then to be filled, since only a document that was read to
its end clears them; and what the last explicit documents declared. -/
namespace CwlService.Yaml

inductive Readiness where
  | fresh
  | ready
  | unprepared
deriving DecidableEq, Repr

/-- What stays with a reader. -/
structure Memory where
  marked : Bool
  readiness : Readiness := .fresh
  declared : Option Version := none
  version : Option Version := none
  handles : List (String × String) := []
  anchors : List (String × Nat) := []
  assembly : Assembly := { mode := ⟨marked, .latest⟩ }

/-- What a text holds: its data, and what its root finds but does not list. -/
structure Reader.Loaded where
  node : Node
  unlisted : Node.Entries := []

/-- The data with what its root does not list at the end. -/
def Reader.Loaded.full (l : Loaded) : Node :=
  match l.node with
  | .map form es => .map form (es ++ l.unlisted)
  | n => n

/-- A way to read a text. -/
abbrev Loader := String → ExceptT Failure (StateM Memory) Reader.Loaded

namespace Memory

def current (r : Memory) : Version := r.declared.getD .latest

def isAllowed (c : Char) : Bool :=
  let n := c.toNat
  n == 9 || n == 10 || n == 13 || (0x20 ≤ n && n ≤ 0x7E) || n == 0x85 ||
    (0xA0 ≤ n && n ≤ 0xD7FF) || (0xE000 ≤ n && n ≤ 0xFFFD) || (0x10000 ≤ n && (Text.half? c).isNone)

def graphOf (text : String) : ExceptT Failure (StateM Memory) (Option Nat) := do
  let r ← get
  let reading : Reading :=
    { scanner := Scanner.ofText r.marked r.declared text
      limit := text.length + 3
      marked := r.marked
      anchors := r.anchors
      graph := r.assembly.graph
      version := r.version
      declaredHandles := r.handles }
  let (root, done) := (Graph.document (8 * text.length + 64)).run.run reading
  set { r with
    declared := done.scanner.declared
    version := done.version
    handles := done.declaredHandles
    anchors := done.anchors
    assembly.graph := done.graph }
  root

def dataOf (root : Nat) : ExceptT Failure (StateM Memory) Reader.Loaded := do
  let r ← get
  let (p, assembly) := (Assembly.document root).run.run
    { r.assembly with mode := ⟨r.marked, r.current⟩ }
  set { r with assembly }
  let p ← p
  pure ⟨Assembly.read assembly.cells p, Assembly.unlisted assembly.cells p⟩

def loader : Loader := fun text => do
  let before := (← get).readiness
  modify fun r => { r with readiness := .ready }
  if text.toList.any fun c => !isAllowed c then
    modify fun r => { r with readiness := if before == .unprepared then .unprepared else .ready }
    throw .unreadable
  if before == .unprepared then throw .unprepared
  match ← graphOf text with
  | none => pure ⟨.null, []⟩
  | some root => dataOf root

end Memory

structure Reader extends Memory where
  loader : Loader := Memory.loader

namespace Reader

def placed : Reader := { marked := true }

def plain : Reader := { marked := false }

abbrev Read := ExceptT Failure (StateM Reader)

def loadAll (text : String) : Read Loaded := do
  let r ← get
  let (loaded, memory) := (r.loader text).run.run r.toMemory
  set { r with toMemory := memory }
  loaded

def load (text : String) : Read Node := return (← loadAll text).node

def loadNothing : Read α := do
  match (← get).readiness with
  | .ready => throw .exhausted
  | _ =>
    modify fun r => { r with readiness := .unprepared }
    throw .noText

def refuse : Read α := do
  modify fun r => { r with readiness := if r.readiness == .fresh then .ready else r.readiness }
  throw .noText

end Reader

def loadPlain (text : String) : Except Failure Node := ((Reader.load text).run.run Reader.plain).1

end CwlService.Yaml

import CwlService.Document.Reading

/-! # The readers of a service

Every kind of text has a reader of its own, and what one reader keeps does not touch the
others. -/
namespace CwlService

structure Readers where
  documents : Yaml.Reader := .placed
  links : Yaml.Reader := .plain
  types : Yaml.Reader := .plain
  jobs : Yaml.Reader := .plain

end CwlService

/-! # Drawing sample values

The same state gives the same samples. It is kept when a drawing fails. -/
namespace CwlService.Sample

/-- What drawing rests on: the readers of files that are looked into on the way, and a sequence of
numbers, told by how its state moves on and by the number that a state stands for. -/
structure Source extends Readers where
  advance : Nat → Nat := fun state => (state * 1103515245 + 12345) % 0x80000000
  number : Nat → Nat := (· / 0x10000)

/-- What drawing changes: the state of the sequence, and the readers. -/
structure Supply where
  state : Nat
  readers : Source := {}

/-- A drawing: it moves the state on, also when it fails. -/
abbrev Draw := ExceptT Fault (StateM Supply)

def next : Draw Nat := do
  modify fun s => { s with state := s.readers.advance s.state }
  let s ← get
  return s.readers.number s.state

def withLinks {α : Type} (r : Document.Reads α) : Draw α := do
  let s ← get
  let (a, links) := r.run.run s.readers.links
  set { s with readers.links := links }
  a

def withTypes {α : Type} (r : Document.Reads α) : Draw α := do
  let s ← get
  let (a, types) := r.run.run s.readers.types
  set { s with readers.types := types }
  a

def below (count : Nat) : Draw Nat := do
  if count == 0 then throw .badValue
  return (← next) % count

def letter : Draw Char := do
  let n := (← next) % 52
  return Char.ofNat (if n < 26 then 97 + n else 39 + n)

def letters (count : Nat) : Draw String := do
  return String.ofList (← (List.range count).mapM fun _ => letter)

end CwlService.Sample

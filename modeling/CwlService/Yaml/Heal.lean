import CwlService.Yaml.Reader

/-! # Repairing a text that is being typed

While a key is typed its colon is missing. Two problems show that: a key without its colon,
which is repaired on the key's own line, and a value where none may stand, which is repaired on
the nearest line above that is not blank. -/
namespace CwlService.Yaml

/-- A repair names a line that the text does not have. -/
inductive Repair where
  | noSuchLine
deriving DecidableEq, Repr

/-- The index of a line, counted from the end if negative. -/
def lineIndex? (count : Nat) (i : Int) : Option Nat :=
  if 0 ≤ i then (if i.toNat < count then some i.toNat else none)
  else if -i ≤ count then some (count - (-i).toNat) else none

def healKey (text : String) (line : Int) : Except Repair String :=
  let ls := Text.lines text
  match lineIndex? ls.length line with
  | none => .error .noSuchLine
  | some i => .ok (Text.unlines (ls.modify i (· ++ ":")))

/-- The nearest line at or above `line` that is not blank; the first line if there is none. -/
def nearestLine (ls : List String) : Nat → Except Repair Nat
  | 0 => if ls.isEmpty then .error .noSuchLine else .ok 0
  | i + 1 =>
    match ls[i + 1]? with
    | none => .error .noSuchLine
    | some l => if (Text.strip l.toList).isEmpty then nearestLine ls i else .ok (i + 1)

/-- The text with a colon after the nearest line above the given one that is not blank. -/
def healValue (text : String) (line : Int) : Except Repair String :=
  let ls := Text.lines text
  let found := if line - 1 > 0 then nearestLine ls (line - 1).toNat
    else match lineIndex? ls.length (line - 1) with
      | some i => .ok i
      | none => .error .noSuchLine
  found.map fun i => Text.unlines (ls.modify i fun l => if l.isEmpty then l else l ++ ":")

/-- What reading a text came to: data, or a problem of the text that was tried last. -/
inductive Outcome (α : Type) where
  | data (a : α)
  | problem (p : Problem) (tried : String)

/-- The repair that a problem of a text suggests: a text to try next. -/
def repaired? (p : Problem) (text : String) : Option (Except Repair String) :=
  match p.complaint, p.activity with
  | .missingColon, some (_, some m) => some (healKey text m.line)
  | .valueForbidden, _ => some (healValue text p.mark.line)
  | _, _ => none

/-- Reads a text, repairing it up to `retries` times. A failure that is no problem of the text,
and a repair that has no line, end the reading. -/
def readHealing {m : Type → Type} [Monad m] {α : Type} (load : String → m (Except Failure α))
    (retries : Nat) (text : String) : m (Except (Failure ⊕ Repair) (Outcome α)) := do
  match ← load text with
  | .ok a => return .ok (.data a)
  | .error (.problem p) =>
    match retries with
    | 0 => return .ok (.problem p text)
    | retries + 1 =>
      match repaired? p text with
      | some (.ok next) => readHealing load retries next
      | some (.error e) => return .error (.inr e)
      | none => return .ok (.problem p text)
  | .error e => return .error (.inl e)

end CwlService.Yaml

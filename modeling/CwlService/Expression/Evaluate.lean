import CwlService.Expression.Fragments
import CwlService.Fault
import CwlService.Node.Text
import CwlService.Script.Run

/-! # Values of expressions

The value of an expression as the text that is shown. A script that stops gives the text of
its problem, which is logged as well. One that does not end gives nothing at all. -/
namespace CwlService.Expression

/-! ## Programs

The program of an expression names the values that every expression may use and then holds the
expression, a script as the body of a function. Lines of problems count from its first line. -/

def preamble : String :=
  "\nvar runtime = dukpy['runtime'];\nvar inputs = dukpy['inputs'];\nvar self = dukpy['cwl_self'];\n"

def referenceProgram (body : String) : String := preamble ++ body

def scriptProgram (body : String) : String :=
  preamble ++ "function benten_eval_func() \x7b\n    " ++ body ++ " \n\x7d;\nbenten_eval_func()"

/-- The program of an expression after the lines of its library. -/
def program (library : List String) (kind : FragmentKind) (body : String) : String :=
  let own := match kind with
    | .script => scriptProgram body
    | _ => referenceProgram body
  ";\n".intercalate (library ++ [own])

/-! ## Values -/

structure Context where
  library : Node
  runtime : Node
  inputs : Node
  self : Node

def noInputs : String := "Job inputs have not been filled out"

def noResult : String :=
  "Got a 'null' result. Do you have a \x60return\x60 for your JS expression?"

def libraryLines? : Node → Option (List String)
  | .seq _ items => items.mapM fun i => i.2.text?
  | _ => none

/-- The data of a context as the variable that every program reads, with the number of the
last value with parts in it. -/
def given? (c : Context) : Option (Script.Variables × Nat) :=
  let data : StateT Nat Option Script.Variables := do
    let runtime ← Script.Value.ofNode c.runtime
    let inputs ← Script.Value.ofNode c.inputs
    let self ← Script.Value.ofNode c.self
    modify (· + 1)
    return [("dukpy", .object (← get)
      [("runtime", runtime), ("inputs", inputs), ("cwl_self", self)])]
  data.run 0

/-- A text that comes out of a script has to have bytes, which characters above the first
plane have not there. -/
def received (s : String) : Except Fault String :=
  if s.toList.any Text.isBeyond then throw .undecodable else pure s

def firstLine (message : String) : String := (Text.lines message).headD ""

mutual
def hasBytes : Node → Bool
  | .text s _ => !s.toList.any Text.isBeyond
  | .seq _ items => itemsHaveBytes items
  | .map _ entries => entriesHaveBytes entries
  | _ => true

def itemsHaveBytes : Node.Items → Bool
  | [] => true
  | (_, n) :: rest => hasBytes n && itemsHaveBytes rest

def entriesHaveBytes : Node.Entries → Bool
  | [] => true
  | (k, _, n) :: rest => hasBytes k && hasBytes n && entriesHaveBytes rest
end

/-- What is shown for what the engine gives, and logged. -/
def shownFor (kind : FragmentKind) : Except Script.Problem Script.Value → Except Fault (String × List LogEntry)
  | .error p => do
    let said := firstLine (← received p.message)
    return (said, [.error said])
  | .ok v => do
    let data := (Script.Value.toNode? v).getD .null
    if !hasBytes data then throw .undecodable
    match data with
    | .null => return (if kind == .script then noResult else Node.shown .null, [])
    | n => return (n.shown, [])

def evaluate (engine : Script.Engine) (c : Context) (kind : FragmentKind) (body : String) :
    Option (Except Fault (String × List LogEntry)) :=
  if kind == .plain then some (.ok (body, []))
  else if !c.inputs.truthy then some (.ok (noInputs, []))
  else
    match libraryLines? c.library, given? c with
    | some lines, some (given, made) =>
      let source := program lines kind body
      if source.toList.any fun ch => (Text.half? ch).isSome then some (.error .unencodable)
      else (engine source given made).map (shownFor kind)
    | _, _ => some (.error .wrongKind)

/-- The joined values of fragments, if none of them fails, with what was logged before the
first that does. -/
def evaluateAll (engine : Script.Engine) (c : Context) :
    List Fragment → Option (Except Fault String × List LogEntry)
  | [] => some (.ok "", [])
  | f :: rest => do
    match ← evaluate engine c f.kind f.text with
    | .error fault => return (.error fault, [])
    | .ok (value, logs) =>
      let (joined, more) ← evaluateAll engine c rest
      return (joined.map (value ++ ·), logs ++ more)

def evaluateText (engine : Script.Engine) (c : Context) (text : String) :
    Option (Except Fault String × List LogEntry) := evaluateAll engine c (fragments text)

end CwlService.Expression

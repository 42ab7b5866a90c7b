import CwlService.Script.Parse
import CwlService.Script.Value

/-! # Running scripts

Variables and functions of a script exist from its start, functions with their value. The depth
of a run is bounded, so a script that calls itself without end stops with a problem. -/
namespace CwlService.Script

abbrev Variables := List (String × Value)

/-- The variables in sight: those of the function that runs, then those around it, then
those of the whole script. -/
structure Scope where
  own : Variables
  around : Variables
  globals : Variables
  made : Nat

abbrev Run := StateT Scope (Except Problem)

inductive Flow where
  /-- The next statement follows; `value` is that of the last term. -/
  | onward (value : Value)
  | returned (value : Value)

namespace Scope

def find (vs : Variables) (name : String) : Option Value := (vs.find? fun v => v.1 == name).map (·.2)

def get? (s : Scope) (name : String) : Option Value :=
  (find s.own name).or ((find s.around name).or (find s.globals name))

/-- A variable set where it exists, or else for the whole script. -/
def set (s : Scope) (name : String) (v : Value) : Scope :=
  if (find s.own name).isSome then { s with own := Value.setMember s.own name v }
  else if (find s.around name).isSome then { s with around := Value.setMember s.around name v }
  else { s with globals := Value.setMember s.globals name v }

end Scope

/-! ## What exists from the start -/

mutual
/-- The variables that statements declare, at any depth but not inside functions. -/
def declared : List Statement → List String
  | [] => []
  | s :: rest => declaredBy s ++ declared rest

def declaredBy : Statement → List String
  | .declare vs => vs.map (·.1)
  | .branch _ yes none => declaredBy yes
  | .branch _ yes (some no) => declaredBy yes ++ declaredBy no
  | .block body => declared body
  | _ => []
end

/-- The functions among statements, with numbers after the given one. -/
def functionsOf (around : Variables) (made : Nat) : List Statement → Variables
  | [] => []
  | .function name ps b :: rest =>
    (name, .function (made + 1) name ps b around) :: functionsOf around (made + 1) rest
  | _ :: rest => functionsOf around made rest

/-- The variables at the start of a body; those that are given already keep their value. -/
def startingVariables (given around : Variables) (made : Nat) (body : List Statement) : Variables :=
  let names := (declared body).filter fun n => (Scope.find given n).isNone
  let vs := names.foldl (fun acc n => Value.setMember acc n .undefined) given
  (functionsOf around made body).foldl (fun acc f => Value.setMember acc f.1 f.2) vs

/-! ## Terms and statements -/

def assign (name : String) (v : Value) : Run Unit := modify fun s => s.set name v

def newIdentity : Run Nat := do
  modify fun s => { s with made := s.made + 1 }
  return (← get).made

mutual
def runTerm : Nat → Term → Run Value
  | 0, _ => throw .tooDeep
  | fuel + 1, t =>
    match t with
    | .number x => pure (.number x)
    | .text s => pure (.text s)
    | .bool b => pure (.bool b)
    | .null => pure .null
    | .nothing => pure .undefined
    | .variable name => do
      match (← get).get? name with
      | some v => pure v
      | none => throw (.unbound name)
    | .list items => do
      let vs ← runTerms fuel items
      return .list (← newIdentity) vs
    | .object ms => do
      let vs ← runMembers fuel ms []
      return .object (← newIdentity) vs
    | .pattern body flags => return .pattern (← newIdentity) body flags
    | .member base name => do liftM ((← runTerm fuel base).member (.text name))
    | .element base key => do
      let b ← runTerm fuel base
      liftM (b.member (← runTerm fuel key))
    | .call f arguments => do
      let fn ← runTerm fuel f
      let given ← runTerms fuel arguments
      match fn with
      | .function _ _ ps body around => do
        let own := ps.mapIdx fun i p => (p, given[i]?.getD .undefined)
        let s ← get
        set ({ own := startingVariables own around s.made body, around, globals := s.globals,
               made := s.made + body.length } : Scope)
        let flow ← runBody fuel body .undefined
        modify fun after => { s with globals := after.globals, made := after.made }
        match flow with
        | .returned v => pure v
        | .onward _ => pure .undefined
      | v => throw (.notFunction v.readable)
    | .unary .kindName (.variable name) => do
      pure (.text (((← get).get? name).getD .undefined).kindName)
    | .unary op a => do liftM (Value.operateUnary op (← runTerm fuel a))
    | .binary op a b => do
      let x ← runTerm fuel a
      liftM (Value.operate op x (← runTerm fuel b))
    | .both a b => do
      let x ← runTerm fuel a
      if x.truthy then runTerm fuel b else pure x
    | .either a b => do
      let x ← runTerm fuel a
      if x.truthy then pure x else runTerm fuel b
    | .choice c a b => do
      if (← runTerm fuel c).truthy then runTerm fuel a else runTerm fuel b
    | .sequence a b => do
      discard (runTerm fuel a)
      runTerm fuel b
    | .assign name a => do
      let v ← runTerm fuel a
      assign name v
      pure v
    | .function name ps body => do
      let identity ← newIdentity
      let s ← get
      pure (.function identity name ps body (s.own ++ s.around))

def runTerms : Nat → List Term → Run (List Value)
  | 0, _ => throw .tooDeep
  | _, [] => pure []
  | fuel + 1, t :: rest => do
    let v ← runTerm fuel t
    return v :: (← runTerms fuel rest)

/-- The members of an object after those that it has; one that comes again is set anew. -/
def runMembers : Nat → List (String × Term) → List (String × Value) → Run (List (String × Value))
  | 0, _, _ => throw .tooDeep
  | _, [], ms => pure ms
  | fuel + 1, (k, t) :: rest, ms => do
    let v ← runTerm fuel t
    runMembers fuel rest (Value.setMember ms k v)

def runStatement : Nat → Statement → Value → Run Flow
  | 0, _, _ => throw .tooDeep
  | fuel + 1, s, last =>
    match s with
    | .term t => return .onward (← runTerm fuel t)
    | .declare vs => do
      runDeclarations fuel vs
      pure (.onward last)
    | .give none => pure (.returned .undefined)
    | .give (some t) => return .returned (← runTerm fuel t)
    | .branch c yes no => do
      if (← runTerm fuel c).truthy then runStatement fuel yes last
      else match no with
        | some s => runStatement fuel s last
        | none => pure (.onward last)
    | .block body => runBody fuel body last
    | .function .. => pure (.onward last)

def runDeclarations : Nat → List (String × Option Term) → Run Unit
  | 0, _ => throw .tooDeep
  | _, [] => pure ()
  | fuel + 1, (name, value) :: rest => do
    match value with
    | some t => assign name (← runTerm fuel t)
    | none => pure ()
    runDeclarations fuel rest

def runBody : Nat → List Statement → Value → Run Flow
  | 0, _, _ => throw .tooDeep
  | _, [], last => pure (.onward last)
  | fuel + 1, s :: rest, last => do
    match ← runStatement fuel s last with
    | .onward v => runBody fuel rest v
    | .returned v => pure (.returned v)
end

def maxDepth : Nat := 4000

def predefined : Variables :=
  [("undefined", .undefined), ("NaN", .number .nan), ("Infinity", .number .infinity)] ++
    Family.all.map (fun f => (f.name, .builtin (.constructor f))) ++
    Builtin.free.map (fun (name, n) => (name, .builtin (.routine "" name n))) ++
    Builtin.tools.map (fun t => (t.1, .builtin (.toolbox t.1)))

/-- The value of a script with the given variables; `made` is the number of the last value
with parts among them. -/
def run (source : String) (given : Variables) (made : Nat) : Except Problem Value := do
  let body ← parse source
  let globals := startingVariables (predefined ++ given) [] made body
  let (flow, _) ← (runBody maxDepth body .undefined).run ⟨[], [], globals, made + body.length⟩
  match flow with
  | .onward v => pure v
  | .returned v => pure v

/-- What runs scripts: the value of a script with the given variables or its problem, and nothing
if the script does not end. -/
abbrev Engine := String → Variables → Nat → Option (Except Problem Value)

/-- Every script ends. -/
def Engine.Returns (e : Engine) : Prop := ∀ source given made, (e source given made).isSome = true

/-- The engine of the service, for scripts without loops. -/
def engine : Engine := fun source given made => some (run source given made)

end CwlService.Script

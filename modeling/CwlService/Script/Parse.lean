import CwlService.Number.Shortest
import CwlService.Script.Token
import CwlService.Script.Tree

/-! # Reading scripts

A term goes on while the next operator binds stronger than the place where the term stands. A
problem carries the line of the token being looked at when it is noticed, and at a term that
cannot begin so, that is the token after the wrong one. Every call of a reader inside another
takes up a token or goes one level down, so a multiple of the number of tokens bounds the depth. -/
namespace CwlService.Script

/-- Reads from the tokens that are left; the first of them is being looked at. -/
abbrev Reader := StateT (List Token) (Except Problem)

namespace Reader

def look : Reader Token := do
  match ← get with
  | t :: _ => pure t
  | [] => pure ⟨.finish, 0, false⟩

def fail {α : Type} (cause : Malformed) : Reader α := do
  let t ← look
  throw (.malformed cause t.line)

def checkToken : Reader Unit := do
  match (← look).kind with
  | .bad cause => fail cause
  | _ => pure ()

/-- Takes the token that is looked at; the last token stays. -/
def advance : Reader Token := do
  let t ← look
  modify fun
    | _ :: next :: rest => next :: rest
    | ts => ts
  checkToken
  pure t

def sees (symbol : String) : Reader Bool := do
  match (← look).kind with
  | .mark m => pure (m == symbol)
  | _ => pure false

def seesWord (name : String) : Reader Bool := do
  match (← look).kind with
  | .word w => pure (w == name)
  | _ => pure false

def expect (symbol : String) : Reader Unit := do
  if ← sees symbol then discard advance else fail .unexpected

end Reader

open Reader

def variableName (cause : Malformed) : Reader String := do
  match (← look).kind with
  | .word w => if reserved.contains w then fail cause else do discard advance; pure w
  | .escapedName w => do discard advance; pure w
  | _ => fail cause

/-! ## Strength of operators -/

def Operator.ofMark? : String → Option (Operator × Nat)
  | "==" => some (.equal, 9)
  | "!=" => some (.unequal, 9)
  | "===" => some (.identical, 9)
  | "!==" => some (.distinct, 9)
  | "<" => some (.less, 10)
  | ">" => some (.greater, 10)
  | "<=" => some (.atMost, 10)
  | ">=" => some (.atLeast, 10)
  | "+" => some (.add, 12)
  | "-" => some (.subtract, 12)
  | "*" => some (.multiply, 13)
  | "/" => some (.divide, 13)
  | "%" => some (.remainder, 13)
  | _ => none

def Unary.ofMark? : String → Option Unary
  | "-" => some .minus
  | "+" => some .plus
  | "!" => some .negation
  | _ => none

/-- The strength with which a token continues a term; zero ends it. -/
def strength (t : Token) : Nat :=
  match t.kind with
  | .mark "," => 1
  | .mark "=" => 2
  | .mark "?" => 3
  | .mark "||" => 4
  | .mark "&&" => 5
  | .mark "(" => 16
  | .mark "." => 17
  | .mark "[" => 17
  | .mark m => ((Operator.ofMark? m).map (·.2)).getD 0
  | _ => 0

def operandLevel : Nat := 1

def signLevel : Nat := 13

def Term.name? : Term → Option String
  | .variable n => some n
  | _ => none

def memberKey : Reader String := do
  match (← look).kind with
  | .word w => do discard advance; pure w
  | .escapedName w => do discard advance; pure w
  | .text s => do discard advance; pure s
  | .number x => do discard advance; pure (DecimalFormat.text .script x)
  | _ => fail .objectLiteral

def parameters : Nat → Reader (List String)
  | 0 => fail .unexpected
  | fuel + 1 => do
    if ← sees ")" then
      discard advance
      pure []
    else
      let name ← variableName .nameExpected
      if ← sees ")" then
        discard advance
        pure [name]
      else
        expect ","
        return name :: (← parameters fuel)

/-- The end of a statement: a semicolon, a closing brace, the end of the text or of a line. -/
def endStatement : Reader Unit := do
  let t ← look
  match t.kind with
  | .mark ";" => discard advance
  | .mark "\x7d" => pure ()
  | .finish => pure ()
  | _ => if t.fresh then pure () else fail .unterminated

mutual
/-- A term that goes on while operators bind stronger than `level`. A closing bracket or a
semicolon leaves it empty. -/
def term (level : Nat) : Nat → Reader Term
  | 0 => fail .unexpected
  | fuel + 1 => do
    if (← sees ";") || (← sees ")") then pure .nothing
    else
      let t ← advance
      let first ← start t fuel
      continued level first fuel

def start (t : Token) : Nat → Reader Term
  | 0 => fail .unexpected
  | fuel + 1 =>
    match t.kind with
    | .number x => pure (.number x)
    | .text s => pure (.text s)
    | .word "null" => pure .null
    | .word "true" => pure (.bool true)
    | .word "false" => pure (.bool false)
    | .word "typeof" => return .unary .kindName (← term signLevel fuel)
    | .word "function" => do
      let name ← if ← sees "(" then pure "" else variableName .unexpected
      expect "("
      let names ← parameters fuel
      expect "\x7b"
      let body ← statements true "\x7d" fuel
      expect "\x7d"
      pure (.function name names body)
    | .word w => if reserved.contains w then fail .unexpected else pure (.variable w)
    | .escapedName w => pure (.variable w)
    | .pattern body flags => pure (.pattern body flags)
    | .mark "(" => do
      let inside ← term 0 fuel
      expect ")"
      pure inside
    | .mark "[" => return .list (← listItems false fuel)
    | .mark "\x7b" => return .object (← members fuel)
    | .mark m =>
      match Unary.ofMark? m with
      | some op => return .unary op (← term signLevel fuel)
      | none => fail .unexpected
    | _ => fail .unexpected

def continued (level : Nat) (left : Term) : Nat → Reader Term
  | 0 => fail .unexpected
  | fuel + 1 => do
    let t ← look
    if strength t ≤ level then pure left
    else
      discard advance
      let whole ← joined t left fuel
      continued level whole fuel

def joined (t : Token) (left : Term) : Nat → Reader Term
  | 0 => fail .unexpected
  | fuel + 1 =>
    match t.kind with
    | .mark "." => do
      match (← look).kind with
      | .word w => do discard advance; pure (.member left w)
      | .escapedName w => do discard advance; pure (.member left w)
      | _ => fail .nameExpected
    | .mark "[" => do
      let key ← term 0 fuel
      expect "]"
      pure (.element left key)
    | .mark "(" => return .call left (← arguments fuel)
    | .mark "?" => do
      let yes ← term operandLevel fuel
      expect ":"
      return .choice left yes (← term operandLevel fuel)
    | .mark "," => return .sequence left (← term (strength t) fuel)
    | .mark "||" => return .either left (← term (strength t) fuel)
    | .mark "&&" => return .both left (← term (strength t) fuel)
    | .mark "=" => do
      match left.name? with
      | some name => return .assign name (← term operandLevel fuel)
      | none => fail .target
    | .mark m =>
      match Operator.ofMark? m with
      | some (op, n) => return .binary op left (← term n fuel)
      | none => fail .unexpected
    | _ => fail .unexpected

def arguments : Nat → Reader (List Term)
  | 0 => fail .unexpected
  | fuel + 1 => do
    if ← sees ")" then
      discard advance
      pure []
    else
      let first ← term operandLevel fuel
      if ← sees ")" then
        discard advance
        pure [first]
      else
        expect ","
        return first :: (← arguments fuel)

/-- The items of a list after its opening bracket; `comma` asks for a comma first. -/
def listItems (comma : Bool) : Nat → Reader (List Term)
  | 0 => fail .unexpected
  | fuel + 1 => do
    if ← sees "]" then
      discard advance
      pure []
    else if ← sees "," then
      discard advance
      if comma then listItems false fuel
      else return .nothing :: (← listItems false fuel)
    else if comma then fail .listLiteral
    else
      let item ← term operandLevel fuel
      return item :: (← listItems true fuel)

def members : Nat → Reader (List (String × Term))
  | 0 => fail .unexpected
  | fuel + 1 => do
    if ← sees "\x7d" then
      discard advance
      pure []
    else
      let key ← memberKey
      expect ":"
      let value ← term operandLevel fuel
      if ← sees "\x7d" then
        discard advance
        pure [(key, value)]
      else if ← sees "," then
        discard advance
        return (key, value) :: (← members fuel)
      else fail .objectLiteral

def wholeTerm (level : Nat) : Nat → Reader Term
  | 0 => fail .unexpected
  | fuel + 1 => do
    if (← sees ";") || (← sees ")") then fail .emptyExpression
    else term level fuel

def declarations : Nat → Reader (List (String × Option Term))
  | 0 => fail .unexpected
  | fuel + 1 => do
    let name ← variableName .declaration
    let value ← if ← sees "=" then do
        discard advance
        pure (some (← wholeTerm operandLevel fuel))
      else pure none
    if ← sees "," then
      discard advance
      return (name, value) :: (← declarations fuel)
    else pure [(name, value)]

/-- One statement; `inside` says whether it stands in a function. An empty statement is an
empty block. -/
def statement (inside : Bool) : Nat → Reader Statement
  | 0 => fail .unexpected
  | fuel + 1 => do
    match (← look).kind with
    | .mark ";" => do discard advance; pure (.block [])
    | .mark "\x7b" => do
      discard advance
      let body ← statements inside "\x7d" fuel
      expect "\x7d"
      pure (.block body)
    | .word "var" => do
      discard advance
      let declared ← declarations fuel
      endStatement
      pure (.declare declared)
    | .word "function" => do
      discard advance
      let name ← variableName .unexpected
      expect "("
      let names ← parameters fuel
      expect "\x7b"
      let body ← statements true "\x7d" fuel
      expect "\x7d"
      pure (.function name names body)
    | .word "if" => do
      discard advance
      expect "("
      let condition ← wholeTerm 0 fuel
      expect ")"
      let yes ← statement inside fuel
      if ← seesWord "else" then
        discard advance
        return .branch condition yes (some (← statement inside fuel))
      else pure (.branch condition yes none)
    | .word "return" => do
      discard advance
      if !inside then fail .strayReturn
      let t ← look
      if t.fresh || (← sees ";") || (← sees "\x7d") then
        endStatement
        pure (.give none)
      else
        let value ← wholeTerm 0 fuel
        endStatement
        pure (.give (some value))
    | _ => do
      let value ← wholeTerm 0 fuel
      if (← sees ":") && value.name?.isSome then
        discard advance
        statement inside fuel
      else
        endStatement
        pure (.term value)

/-- The statements up to a closing mark, or with no such mark up to the end of the text. -/
def statements (inside : Bool) (closing : String) : Nat → Reader (List Statement)
  | 0 => fail .unexpected
  | fuel + 1 => do
    let t ← look
    let ended := match t.kind with
      | .finish => closing.isEmpty
      | .mark m => m == closing
      | _ => false
    if ended then pure []
    else
      let first ← statement inside fuel
      return first :: (← statements inside closing fuel)
end

def parse (source : String) : Except Problem (List Statement) :=
  let ts := tokens source
  let reading : Reader (List Statement) := do
    checkToken
    statements false "" (8 * ts.length + 8)
  (reading.run ts).map (·.1)

end CwlService.Script

import CwlService.Number.Binary64

/-! # Scripts

The part of a script language that expressions need: literals, members, operators,
variables, functions and branches. -/
namespace CwlService.Script

inductive Unary where
  | minus
  | plus
  | negation
  | kindName
  deriving DecidableEq, Repr

inductive Operator where
  | add | subtract | multiply | divide | remainder
  | less | greater | atMost | atLeast
  | equal | unequal | identical | distinct
  deriving DecidableEq, Repr

mutual
inductive Term where
  | number (value : Binary64)
  | text (value : String)
  | bool (value : Bool)
  | null
  | nothing
  | variable (name : String)
  | list (items : List Term)
  | object (members : List (String × Term))
  | member (base : Term) (name : String)
  | element (base key : Term)
  | call (function : Term) (arguments : List Term)
  | unary (operator : Unary) (operand : Term)
  | binary (operator : Operator) (left right : Term)
  | both (left right : Term)
  | either (left right : Term)
  | choice (condition ifTrue ifFalse : Term)
  | sequence (first second : Term)
  | assign (name : String) (value : Term)
  | function (name : String) (parameters : List String) (body : List Statement)
  | pattern (body flags : String)

inductive Statement where
  | term (value : Term)
  | declare (declared : List (String × Option Term))
  | give (value : Option Term)
  | branch (condition : Term) (ifTrue : Statement) (ifFalse : Option Statement)
  | block (body : List Statement)
  | function (name : String) (parameters : List String) (body : List Statement)
end

end CwlService.Script

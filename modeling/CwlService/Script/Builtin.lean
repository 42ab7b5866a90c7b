/-! # What every script has

A family of values has a constructor, and a prototype in which its values find the functions
that they share. -/
namespace CwlService.Script

inductive Family where
  | object
  | function
  | array
  | string
  | number
  | boolean
  | pattern
  deriving DecidableEq, Repr

inductive Builtin where
  | constructor (family : Family)
  | prototype (family : Family)
  /-- A function, by what it belongs to and its name; `arity` is how many arguments it takes. -/
  | routine (owner name : String) (arity : Nat)
  | toolbox (name : String)
  deriving DecidableEq, Repr

namespace Family

def name : Family → String
  | .object => "Object"
  | .function => "Function"
  | .array => "Array"
  | .string => "String"
  | .number => "Number"
  | .boolean => "Boolean"
  | .pattern => "RegExp"

def arity : Family → Nat
  | .pattern => 2
  | _ => 1

def shared : Family → List (String × Nat)
  | .object => [("toString", 0), ("toLocaleString", 0), ("valueOf", 0), ("hasOwnProperty", 1),
      ("isPrototypeOf", 1), ("propertyIsEnumerable", 1)]
  | .function => [("toString", 0), ("apply", 2), ("call", 1), ("bind", 1)]
  | .array => [("toString", 0), ("toLocaleString", 0), ("concat", 1), ("join", 1), ("pop", 0),
      ("push", 1), ("reverse", 0), ("shift", 0), ("slice", 2), ("sort", 1), ("splice", 2),
      ("unshift", 1), ("indexOf", 1), ("lastIndexOf", 1), ("every", 1), ("some", 1),
      ("forEach", 1), ("map", 1), ("filter", 1), ("reduce", 1), ("reduceRight", 1)]
  | .string => [("toString", 0), ("valueOf", 0), ("charAt", 1), ("charCodeAt", 1), ("concat", 1),
      ("indexOf", 1), ("lastIndexOf", 1), ("localeCompare", 1), ("match", 1), ("replace", 2),
      ("search", 1), ("slice", 2), ("split", 2), ("substring", 2), ("toLowerCase", 0),
      ("toLocaleLowerCase", 0), ("toUpperCase", 0), ("toLocaleUpperCase", 0), ("trim", 0),
      ("substr", 2)]
  | .number => [("toString", 1), ("toLocaleString", 1), ("valueOf", 0), ("toFixed", 1),
      ("toExponential", 1), ("toPrecision", 1)]
  | .boolean => [("toString", 0), ("valueOf", 0)]
  | .pattern => [("exec", 1), ("test", 1), ("toString", 0)]

def own : Family → List (String × Nat)
  | .object => [("getPrototypeOf", 1), ("setPrototypeOf", 2), ("getOwnPropertyDescriptor", 2),
      ("getOwnPropertyNames", 1), ("create", 2), ("defineProperty", 3), ("defineProperties", 2),
      ("seal", 1), ("freeze", 1), ("preventExtensions", 1), ("isSealed", 1), ("isFrozen", 1),
      ("isExtensible", 1), ("keys", 1)]
  | .array => [("isArray", 1)]
  | .string => [("fromCharCode", 1)]
  | _ => []

def all : List Family := [.object, .function, .array, .string, .number, .boolean, .pattern]

end Family

namespace Builtin

def free : List (String × Nat) :=
  [("parseInt", 2), ("parseFloat", 1), ("isNaN", 1), ("isFinite", 1), ("decodeURI", 1),
   ("decodeURIComponent", 1), ("encodeURI", 1), ("encodeURIComponent", 1), ("escape", 1),
   ("unescape", 1), ("eval", 1)]

def tools : List (String × List (String × Nat)) :=
  [("Math", [("abs", 1), ("acos", 1), ("asin", 1), ("atan", 1), ("atan2", 2), ("ceil", 1),
      ("cos", 1), ("exp", 1), ("floor", 1), ("log", 1), ("max", 2), ("min", 2), ("pow", 2),
      ("random", 0), ("round", 1), ("sin", 1), ("sqrt", 1), ("tan", 1)]),
   ("JSON", [("parse", 2), ("stringify", 3)])]

def routine? (owner : String) (routines : List (String × Nat)) (name : String) : Option Builtin :=
  (routines.lookup name).map (.routine owner name)

def isFunction : Builtin → Bool
  | .constructor _ => true
  | .prototype f => f == .function
  | .routine .. => true
  | .toolbox _ => false

def functionName : Builtin → String
  | .constructor f => f.name
  | .routine _ name _ => name
  | _ => ""

def arity : Builtin → Nat
  | .constructor f => f.arity
  | .routine _ _ n => n
  | _ => 0

end Builtin
end CwlService.Script

import CwlService.Json.Write
import CwlService.Script.Builtin
import CwlService.Script.Token
import CwlService.Script.Tree

/-! # Values of a script

Texts are measured and compared in units of sixteen bits. A value with parts is itself and no
other, however alike they are. -/
namespace CwlService.Script

inductive Value where
  | undefined
  | null
  | bool (value : Bool)
  | number (value : Binary64)
  | text (value : String)
  | list (identity : Nat) (items : List Value)
  | object (identity : Nat) (members : List (String × Value))
  | function (identity : Nat) (name : String) (parameters : List String) (body : List Statement)
      (around : List (String × Value))
  | pattern (identity : Nat) (body flags : String)
  | builtin (b : Builtin)

namespace Value

/-! ## Units of a text -/

def charUnits (c : Char) : List Nat :=
  let n := Text.codeOf c
  if n < 0x10000 then [n] else [0xD800 + (n - 0x10000) / 0x400, 0xDC00 + (n - 0x10000) % 0x400]

def units (s : String) : List Nat := s.toList.flatMap charUnits

def unitText (n : Nat) : String := String.singleton (Text.charOf n)

/-- Two texts in a row: halves that meet become a character. -/
def append (s t : String) : String := String.ofList (Text.joinHalves (s.toList ++ t.toList))

/-! ## As a truth, a text, a number -/

def truthy : Value → Bool
  | .undefined => false
  | .null => false
  | .bool b => b
  | .number x => !(x.isZero || x.isNaN)
  | .text s => !s.isEmpty
  | _ => true

def isFunction : Value → Bool
  | .function .. => true
  | .builtin b => b.isFunction
  | _ => false

def kindName (v : Value) : String :=
  match v with
  | .undefined => "undefined"
  | .bool _ => "boolean"
  | .number _ => "number"
  | .text _ => "string"
  | v => if v.isFunction then "function" else "object"

def numberText (x : Binary64) : String := DecimalFormat.script.text (if x.isZero then .zero else x)

def functionText (name note : String) : String :=
  "function " ++ name ++ "() \x7b/* " ++ note ++ " */\x7d"

/-- What exists already without parts: a prototype is the empty value of its family. -/
def simpleBuiltin (b : Builtin) : Value :=
  match b with
  | .prototype .array => .text ""
  | .prototype .string => .text ""
  | .prototype .number => .number .zero
  | .prototype .boolean => .bool false
  | .prototype .pattern => .text "/(?:)/"
  | .toolbox name => .text ("[object " ++ name ++ "]")
  | b => .text (if b.isFunction then functionText b.functionName "native" else "[object Object]")

def simpleText : Value → String
  | .undefined => "undefined"
  | .null => "null"
  | .bool b => if b then "true" else "false"
  | .number x => numberText x
  | .text s => s
  | _ => ""

/-- Whether the text of an object is not to be had: it has a member of its own in the place of
the function that gives the text, and that is none. -/
def hidesText (members : List (String × Value)) : Bool :=
  (members.find? fun m => m.1 == "toString").any fun m => !m.2.isFunction

mutual
def text? : Value → Option String
  | .list _ items => (itemTexts? items).map fun ts => ",".intercalate ts
  | .object _ ms => if hidesText ms then none else some "[object Object]"
  | .function _ name .. => some (functionText name "ecmascript")
  | .pattern _ body flags => some ("/" ++ body ++ "/" ++ flags)
  | .builtin b => some (simpleBuiltin b).simpleText
  | v => some v.simpleText

def itemTexts? : List Value → Option (List String)
  | [] => some []
  | .undefined :: rest => (itemTexts? rest).map ("" :: ·)
  | .null :: rest => (itemTexts? rest).map ("" :: ·)
  | v :: rest => do
    let t ← text? v
    let ts ← itemTexts? rest
    some (t :: ts)
end

def asText (v : Value) : Except Problem String :=
  match v.text? with
  | some s => pure s
  | none => throw .notSimple

def isPadding (c : Char) : Bool := isSpace c || isLineEnd c

/-- The number of digits with a fraction and an exponent, of which the digits may be missing
where nothing else is there. -/
def decimalNumber? (cs : List Char) : Option Binary64 :=
  match cs with
  | [] => some .zero
  | _ =>
    if cs.all fun c => c.isDigit || "+-.eE".toList.contains c then Number.unsigned? cs else none

/-- The number that a text is; white space around it does not count, and an empty text is
zero. -/
def textNumber (s : String) : Binary64 :=
  let trimmed := ((s.toList.dropWhile isPadding).reverse.dropWhile isPadding).reverse
  let (negative, rest) := Number.sign trimmed
  let hex (digits : List Char) : Option Binary64 :=
    (Number.natural? 16 digits).map fun n => Binary64.ofInt n
  let size := match rest with
    | '0' :: 'x' :: digits => hex digits
    | '0' :: 'X' :: digits => hex digits
    | _ => if rest == "Infinity".toList then some Binary64.infinity else decimalNumber? rest
  match size with
  | some x => if negative then x.neg else x
  | none => .nan

/-- A value without parts: a list or an object is its text. -/
def simple (v : Value) : Except Problem Value :=
  match v with
  | .builtin b => pure (simpleBuiltin b)
  | .list .. | .object .. | .function .. | .pattern .. => v.asText.map .text
  | v => pure v

def simpleNumber : Value → Binary64
  | .undefined => .nan
  | .null => .zero
  | .bool b => .ofInt (if b then 1 else 0)
  | .number x => x
  | .text s => textNumber s
  | _ => .nan

def asNumber (v : Value) : Except Problem Binary64 := v.simple.map simpleNumber

/-! ## Members -/

def familyName : Value → String
  | .list .. => Family.name .array
  | .pattern .. => Family.name .pattern
  | .builtin (.prototype f) => f.name
  | .builtin (.toolbox name) => name
  | v => if v.isFunction then Family.name .function else Family.name .object

/-- How a value is named in a problem: a text in quotes, cut after 32 units. -/
def readable (v : Value) : String :=
  match v with
  | .text s =>
    let us := units s
    let quoted := (us.take 32).flatMap fun u =>
      if u < 32 || u == 0x7f || u == 0x27 || u == 0x5c then '\\' :: 'x' :: Text.hexDigits 2 u
      else [Text.charOf u]
    "'" ++ String.ofList quoted ++ (if us.length > 32 then "..." else "") ++ "'"
  | .list .. | .object .. | .function .. | .pattern .. | .builtin _ =>
    "[object " ++ v.familyName ++ "]"
  | v => v.simpleText

def place? (key : String) : Option Nat :=
  if key.isNat && toString (key.toNat?.getD 0) == key then key.toNat? else none

def constant? : Builtin → String → Option Float
  | .constructor .number, "MAX_VALUE" => some 1.7976931348623157e308
  | .constructor .number, "MIN_VALUE" => some 5e-324
  | .constructor .number, "NaN" => some (0.0 / 0.0)
  | .constructor .number, "POSITIVE_INFINITY" => some (1.0 / 0.0)
  | .constructor .number, "NEGATIVE_INFINITY" => some (-1.0 / 0.0)
  | .toolbox "Math", "E" => some 2.718281828459045
  | .toolbox "Math", "LN10" => some 2.302585092994046
  | .toolbox "Math", "LN2" => some 0.6931471805599453
  | .toolbox "Math", "LOG2E" => some 1.4426950408889634
  | .toolbox "Math", "LOG10E" => some 0.4342944819032518
  | .toolbox "Math", "PI" => some 3.141592653589793
  | .toolbox "Math", "SQRT1_2" => some 0.7071067811865476
  | .toolbox "Math", "SQRT2" => some 1.4142135623730951
  | _, _ => none

def whole (n : Nat) : Value := .number (.ofInt n)

def builtinMember? (b : Builtin) (key : String) : Option Value :=
  let named (owner : String) (routines : List (String × Nat)) : Option Value :=
    (Builtin.routine? owner routines key).map .builtin
  let functionMember : Option Value :=
    if key == "length" then some (whole b.arity)
    else if key == "name" then some (.text b.functionName)
    else none
  match constant? b key with
  | some x => some (.number (.ofFloat x))
  | none =>
    match b with
    | .constructor f =>
      if key == "prototype" then some (.builtin (.prototype f))
      else functionMember.or (named f.name f.own)
    | .prototype f =>
      if key == "constructor" then some (.builtin (.constructor f))
      else match named (f.name ++ ".prototype") f.shared with
        | some r => some r
        | none =>
          if f == .function then functionMember
          else if key == "length" && (f == .array || f == .string) then some (whole 0)
          else none
    | .routine .. => functionMember
    | .toolbox name => named name ((Builtin.tools.lookup name).getD [])

def own? (base : Value) (key : String) : Option Value :=
  match base with
  | .text s =>
    if key == "length" then some (whole (units s).length)
    else ((place? key).bind fun i => (units s)[i]?).map fun u => .text (unitText u)
  | .list _ items =>
    if key == "length" then some (whole items.length) else (place? key).bind fun i => items[i]?
  | .object _ ms => (ms.find? fun m => m.1 == key).map (·.2)
  | .function _ name ps _ _ =>
    if key == "length" then some (whole ps.length)
    else if key == "name" then some (.text name)
    else none
  | .pattern _ body flags =>
    let flag (c : Char) : Option Value := some (.bool (flags.toList.contains c))
    match key with
    | "source" => some (.text body)
    | "global" => flag 'g'
    | "ignoreCase" => flag 'i'
    | "multiline" => flag 'm'
    | "lastIndex" => some (whole 0)
    | _ => none
  | .builtin b => builtinMember? b key
  | _ => none

def prototype? : Value → Option Family
  | .undefined => none
  | .null => none
  | .bool _ => some .boolean
  | .number _ => some .number
  | .text _ => some .string
  | .list .. => some .array
  | .object .. => some .object
  | .function .. => some .function
  | .pattern .. => some .pattern
  | .builtin (.prototype .object) => none
  | .builtin (.prototype _) => some .object
  | .builtin (.toolbox _) => some .object
  | .builtin _ => some .function

def inherited? (base : Value) (key : String) : Option Value :=
  let family := base.prototype?
  if key == "__proto__" then some (family.elim .null fun f => .builtin (.prototype f))
  else match family.bind fun f => builtinMember? (.prototype f) key with
    | some v => some v
    | none => if family.isSome then builtinMember? (.prototype .object) key else none

/-- The member of a value under a key. What is missing has no members. -/
def member (base key : Value) : Except Problem Value :=
  match base with
  | .undefined | .null => throw (.noProperties key.readable base.simpleText)
  | _ => do
    let name ← key.asText
    pure (((base.own? name).or (base.inherited? name)).getD .undefined)

/-! ## Operators -/

def ofFloat (x : Float) : Value := .number (Binary64.ofFloat x)

def add (a b : Value) : Except Problem Value := do
  match ← a.simple, ← b.simple with
  | .text s, v => pure (.text (append s v.simpleText))
  | v, .text s => pure (.text (append v.simpleText s))
  | v, w => pure (ofFloat (v.simpleNumber.toFloat + w.simpleNumber.toFloat))

def remainder (a b : Binary64) : Binary64 :=
  if a.isNaN || b.isNaN || a.isInfinite || b.isZero then .nan
  else if b.isInfinite || a.isZero then a
  else
    let (m, p) := a.magnitude
    let (n, q) := b.magnitude
    let low := min p q
    let left := (m * Nat.pow 2 (p - low).toNat) % (n * Nat.pow 2 (q - low).toNat)
    let size := if low < 0 then Binary64.ofRatio left (Nat.pow 2 (-low).toNat)
      else Binary64.ofRatio (left * Nat.pow 2 low.toNat) 1
    if a.isNegative then size.neg else size

/-- Texts compare unit by unit, all else as numbers; what is no number is never in order. -/
def ordered (texts : Bool → Bool → Bool) (numbers : Float → Float → Bool) (a b : Value) :
    Except Problem Value := do
  match ← a.simple, ← b.simple with
  | .text s, .text t =>
    pure (.bool (texts (decide (units s < units t)) (decide (units t < units s))))
  | v, w => pure (.bool (numbers v.simpleNumber.toFloat w.simpleNumber.toFloat))

def identity? : Value → Option Nat
  | .list i _ => some i
  | .object i _ => some i
  | .function i .. => some i
  | .pattern i .. => some i
  | _ => none

/-- The same kind and the same value; values with parts are the same only as themselves. -/
def identical : Value → Value → Bool
  | .undefined, .undefined => true
  | .null, .null => true
  | .bool a, .bool b => a == b
  | .number x, .number y => x.toFloat == y.toFloat
  | .text s, .text t => s == t
  | .builtin a, .builtin b => a == b
  | a, b => a.identity?.isSome && a.identity? == b.identity?

def hasParts : Value → Bool
  | .builtin _ => true
  | v => v.identity?.isSome

/-- Equality that lets a value become a number or a text. -/
def equal (a b : Value) : Except Problem Bool :=
  match a, b with
  | .undefined, .null => pure true
  | .null, .undefined => pure true
  | .undefined, _ => pure (identical a b)
  | .null, _ => pure (identical a b)
  | _, .undefined => pure false
  | _, .null => pure false
  | _, _ =>
    if a.hasParts && b.hasParts then pure (identical a b)
    else do
      match ← a.simple, ← b.simple with
      | .text s, .text t => pure (s == t)
      | v, w => pure (v.simpleNumber.toFloat == w.simpleNumber.toFloat)

def onNumbers (f : Float → Float → Float) (a b : Value) : Except Problem Value := do
  let x ← a.asNumber
  let y ← b.asNumber
  pure (ofFloat (f x.toFloat y.toFloat))

def operate (op : Operator) (a b : Value) : Except Problem Value :=
  match op with
  | .add => add a b
  | .subtract => onNumbers (· - ·) a b
  | .multiply => onNumbers (· * ·) a b
  | .divide => onNumbers (· / ·) a b
  | .remainder => do
    let x ← a.asNumber
    return .number (remainder x (← b.asNumber))
  | .less => ordered (fun l _ => l) (fun x y => x < y) a b
  | .greater => ordered (fun _ g => g) (fun x y => x > y) a b
  | .atMost => ordered (fun _ g => !g) (fun x y => x ≤ y) a b
  | .atLeast => ordered (fun l _ => !l) (fun x y => x ≥ y) a b
  | .equal => (equal a b).map .bool
  | .unequal => (equal a b).map fun e => .bool (!e)
  | .identical => pure (.bool (identical a b))
  | .distinct => pure (.bool (!identical a b))

def operateUnary (op : Unary) (a : Value) : Except Problem Value :=
  match op with
  | .minus => a.asNumber.map fun x => .number x.neg
  | .plus => a.asNumber.map .number
  | .negation => pure (.bool (!a.truthy))
  | .kindName => pure (.text a.kindName)

/-! ## Data -/

/-- A member set anew: the last value stays at the place of the first. -/
def setMember (ms : List (String × Value)) (key : String) (v : Value) : List (String × Value) :=
  if ms.any fun m => m.1 == key then ms.map fun m => if m.1 == key then (key, v) else m
  else ms ++ [(key, v)]

mutual
/-- The value that data are in a script; dates and the like are none. Every collection gets a
number of its own. -/
def ofNode : Node → StateT Nat Option Value
  | .null => pure .null
  | .bool b => pure (.bool b)
  | .int n _ => pure (.number (.ofInt n))
  | .float x _ => pure (.number x)
  | .text s _ => pure (.text (append s ""))
  | .seq _ items => do
    let vs ← ofItems items
    modify (· + 1)
    return .list (← get) vs
  | .map _ entries => do
    let ms ← ofEntries entries
    modify (· + 1)
    return .object (← get) (ms.foldl (fun acc m => setMember acc m.1 m.2) [])
  | _ => failure

def ofItems : Node.Items → StateT Nat Option (List Value)
  | [] => pure []
  | (_, n) :: rest => do
    let v ← ofNode n
    let vs ← ofItems rest
    pure (v :: vs)

def ofEntries : Node.Entries → StateT Nat Option (List (String × Value))
  | [] => pure []
  | (k, _, n) :: rest => do
    let some key := Json.keyText? k | failure
    let v ← ofNode n
    let ms ← ofEntries rest
    pure ((append key "", v) :: ms)
end

/-- A number as data: a whole number where its text has neither fraction nor exponent. -/
def numberNode (x : Binary64) : Node :=
  if x.isNaN || x.isInfinite then .null
  else match (numberText x).toInt? with
    | some n => .num n
    | none => .float x false

/-- The data of what exists already: of a prototype, those of the empty value of its family. -/
def builtinNode? : Builtin → Option Node
  | .prototype .array => some (.list [])
  | .prototype .string => some (.str "")
  | .prototype .number => some (.num 0)
  | .prototype .boolean => some (.bool false)
  | b => if b.isFunction then none else some (.record [])

mutual
def toNode? : Value → Option Node
  | .undefined => none
  | .null => some .null
  | .bool b => some (.bool b)
  | .number x => some (numberNode x)
  | .text s => some (.str s)
  | .list _ items => some (.list (itemNodes items))
  | .object _ ms => some (.record (memberNodes ms))
  | .function .. => none
  | .pattern .. => some (.record [])
  | .builtin b => builtinNode? b

/-- In a list, null stands for what is missing. -/
def itemNodes : List Value → List Node
  | [] => []
  | v :: rest => (toNode? v).getD .null :: itemNodes rest

/-- A member that is missing is left out. -/
def memberNodes : List (String × Value) → List (String × Node)
  | [] => []
  | (k, v) :: rest =>
    match toNode? v with
    | some n => (k, n) :: memberNodes rest
    | none => memberNodes rest
end

end Value

end CwlService.Script

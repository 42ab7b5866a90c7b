import CwlService.Node.Basic

/-! # The order of keys

Numbers and truth values compare by value, texts by code points. Keys of different kinds have
no order. -/
namespace CwlService

namespace Binary64

/-- A finite number scaled to an integer: the number is `scaled / 2 ^ 1074`. -/
def scaled (x : Binary64) : Int :=
  let (m, q) := x.magnitude
  let n : Nat := m * Nat.pow 2 (q + 1074).toNat
  if x.isNegative then -(n : Int) else n

end Binary64

namespace Node

/-- A number as a multiple of the smallest step; infinity is above all finite ones. -/
def rank : Int ⊕ Binary64 → Int
  | .inl n => n * Nat.pow 2 1074
  | .inr x =>
    if x.isInfinite then (if x.isNegative then -(Nat.pow 2 4096) else Nat.pow 2 4096)
    else x.scaled

def compareDates (a b : Date) : Ordering :=
  (compare a.year b.year).then ((compare a.month b.month).then (compare a.day b.day))

def compareMoments (a b : Moment) : Ordering :=
  (compareDates a.date b.date).then <| (compare a.hour b.hour).then <|
    (compare a.minute b.minute).then <| (compare a.second b.second).then (compare a.micro b.micro)

def compareBytes : List UInt8 → List UInt8 → Ordering
  | [], [] => .eq
  | [], _ => .lt
  | _, [] => .gt
  | a :: as, b :: bs => (compare a.toNat b.toNat).then (compareBytes as bs)

/-- Whether one number is less than another. What is no number is less than none. -/
def lessNumber (x y : Int ⊕ Binary64) : Bool :=
  let isNumber : Int ⊕ Binary64 → Bool
    | .inl _ => true
    | .inr z => !z.isNaN
  isNumber x && isNumber y && rank x < rank y

mutual
/-- Whether one key comes before another, if they can be compared. Sequences are compared at
the first place where they differ. -/
def less? : Node → Node → Option Bool
  | .text a _, .text b _ => some (compare a b == .lt)
  | .date a _, .date b _ => some (compareDates a b == .lt)
  | .moment a _ _, .moment b _ _ => some (compareMoments a b == .lt)
  | .bytes a, .bytes b => some (compareBytes a b == .lt)
  | .seq form items, .seq form' items' =>
    if (form.kind == .fixed) == (form'.kind == .fixed) then lessItems? items items' else none
  | a, b =>
    match a.number?, b.number? with
    | some x, some y => some (lessNumber x y)
    | _, _ => none

def lessItems? : Items → Items → Option Bool
  | _, [] => some false
  | [], _ => some true
  | (_, a) :: as, (_, b) :: bs => if a.same b then lessItems? as bs else less? a b
end

/-! ## Putting in order -/

section
variable (before? : α → α → Option Bool)

/-- Where an element belongs between the positions `lo` and `hi` of elements in order: behind
those that are not after it. -/
def position? (x : α) (xs : Array α) (lo hi : Nat) : Option Nat :=
  if lo < hi then
    let mid := lo + (hi - lo) / 2
    match xs[mid]? with
    | none => some lo
    | some y => do
      if ← before? x y then position? x xs lo mid else position? x xs (mid + 1) hi
  else some lo
termination_by hi - lo

/-- Inserts elements one after the other among those that are in order. -/
def insertAll? : List α → Array α → Option (List α)
  | [], xs => some xs.toList
  | x :: rest, xs => do
    let i ← position? before? x xs 0 xs.size
    insertAll? rest (xs.insertIdxIfInBounds i x)

/-- Takes the elements as long as each is (`falling`) or is not (otherwise) before the last
one: those in reverse, and the rest. -/
def run? (falling : Bool) : α → List α → List α → Option (List α × List α)
  | _, acc, [] => some (acc, [])
  | last, acc, x :: rest => do
    if (← before? x last) == falling then run? falling x (x :: acc) rest
    else some (acc, x :: rest)

/-- The elements in order, if all that have to be compared can be. Elements of which neither
is before the other keep their places. -/
def inOrder? : List α → Option (List α)
  | x :: y :: rest => do
    let falling ← before? y x
    let (taken, others) ← run? before? falling y [y, x] rest
    insertAll? before? others (if falling then taken else taken.reverse).toArray
  | xs => some xs

end

/-- The entries by key if their keys can be compared, in the given order otherwise. -/
def sortByKey (key : α → Node) (es : List α) : List α :=
  (inOrder? (fun a b => (key a).less? (key b)) es).getD es

def sorted? (ns : List Node) : Option (List Node) := inOrder? less? ns

end Node
end CwlService

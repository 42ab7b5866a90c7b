import CwlService.Text.Basic
import CwlService.Text.CharClass

/-! # Shortened texts

A text is shortened by leaving out whole pieces at its end and putting dots in their place.
Pieces are words, blanks, the parts of a hyphenated word, and dashes. A piece longer than the
width is cut, after its last hyphen if it has one. -/
namespace CwlService.Text

def words (cs : List Char) : List (List Char) :=
  (cs.foldr (fun c (acc : List (List Char)) =>
    if isBlank c then [] :: acc
    else match acc with
      | w :: rest => (c :: w) :: rest
      | [] => [[c]]) [[]]).filter (!·.isEmpty)

/-! ## Pieces -/

def isWordOrPoint (c : Char) : Bool := isWordChar c || "!\x22\x27&.,?".toList.contains c

/-- Whether a dash between words starts here: two or more hyphens and then a word. -/
def dashLength? (cs : List Char) : Option Nat :=
  let n := (cs.takeWhile (· == '-')).length
  if 2 ≤ n && (cs.drop n).head?.any isWordChar then some n else none

/-- Whether a word may be broken after a hyphen: `before` holds the characters in front of
the hyphen, the nearest first, and `after` those behind it. -/
def breaksAtHyphen (before after : List Char) : Bool :=
  let left := match before with
    | a :: b :: rest =>
      isLetter a && (isLetter b || (b == '-' && rest.head?.any isLetter))
    | _ => false
  let right := match after with
    | a :: b :: rest => isLetter a && (isLetter b || (b == '-' && rest.head?.any isLetter))
    | _ => false
  left && right

/-- How many more characters belong to a word; `before` is what stands in front, the nearest
character first. -/
def wordLength (before : List Char) : List Char → Nat
  | [] => 0
  | c :: rest =>
    if c == ' ' then 0
    else if c == '-' && breaksAtHyphen before rest then 1
    else if before.head?.any isWordOrPoint && (dashLength? (c :: rest)).isSome then 0
    else 1 + wordLength (c :: before) rest

/-- How many characters after the first belong to the piece that it starts. -/
def pieceLength (before : List Char) (c : Char) (rest : List Char) : Nat :=
  if c == ' ' then (rest.takeWhile (· == ' ')).length
  else
    match dashLength? (c :: rest) with
    | some n => if before.head?.any isWordOrPoint then n - 1 else wordLength (c :: before) rest
    | none => wordLength (c :: before) rest

def pieces (before : List Char) : List Char → List (List Char)
  | [] => []
  | c :: rest =>
    let n := pieceLength before c rest
    (c :: rest.take n) :: pieces ((c :: rest.take n).reverse ++ before) (rest.drop n)
termination_by cs => cs.length
decreasing_by simp only [List.length_drop, List.length_cons]; omega

/-! ## Filling a line -/

/-- The pieces that fit into the room, backwards, the room left, and the other pieces. -/
def fill : Nat → List (List Char) → List (List Char) → List (List Char) × Nat × List (List Char)
  | room, [], acc => (acc, room, [])
  | room, p :: rest, acc =>
    if p.length ≤ room then fill (room - p.length) rest (p :: acc) else (acc, room, p :: rest)

def cutAt (room : Nat) (p : List Char) : Nat :=
  let head := p.take room
  let hyphen := head.length - (head.reverse.takeWhile (· != '-')).length
  if 2 ≤ hyphen && (p.take (hyphen - 1)).any (· != '-') then hyphen else room

def dots : List Char := ['.', '.', '.']

/-- Leaves out pieces at the end, given backwards, until the dots fit. -/
def withDots (width : Nat) : List (List Char) → List Char
  | [] => dots
  | p :: rest =>
    if p != [' '] && !p.isEmpty && ((p :: rest).map List.length).sum + dots.length ≤ width then
      (p :: rest).reverse.flatten ++ dots
    else withDots width rest

def shorten (width : Nat) (s : String) : String :=
  let cs := [' '].intercalate (words s.toList)
  let (line, room, rest) := fill width (pieces [] cs) []
  let line := match rest with
    | p :: _ => if p.length > width then p.take (cutAt room p) :: line else line
    | [] => line
  let line := line.dropWhile fun p => p == [' '] || p.isEmpty
  match rest with
  | [] => String.ofList line.reverse.flatten
  | _ => String.ofList (withDots width line)

end CwlService.Text

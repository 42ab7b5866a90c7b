/-! # Words of a command line

Quotes keep blanks, a backslash keeps the next character, and a number sign starts a comment. -/
namespace CwlService.Text

inductive WordState where
  | between
  | inside
  | quoted (quote : Char)
  | escaped (quote : Option Char)
  | comment
  deriving DecidableEq, Repr

def isWordGap (c : Char) : Bool := c == ' ' || c == '\t' || c == '\r' || c == '\n'

def isQuoteMark (c : Char) : Bool := c == '\x27' || c == '\x22'

/-- Adds a finished word; an empty one only if it had quotes. -/
def finishWord (word : List Char) (marked : Bool) (rest : List String) : List String :=
  if word.isEmpty && !marked then rest else String.ofList word.reverse :: rest

/-- The words from a place on; `word` is the one that is read, backwards, and `marked` says
whether it has quotes. -/
def commandWordsFrom : WordState → List Char → Bool → List Char → Option (List String)
  | .quoted _, _, _, [] => none
  | .escaped _, _, _, [] => none
  | _, word, marked, [] => some (finishWord word marked [])
  | .between, word, marked, c :: rest =>
    if isWordGap c then commandWordsFrom .between word marked rest
    else if c == '#' then commandWordsFrom .comment word marked rest
    else if c == '\\' then commandWordsFrom (.escaped none) word marked rest
    else if isQuoteMark c then commandWordsFrom (.quoted c) word true rest
    else commandWordsFrom .inside (c :: word) marked rest
  | .inside, word, marked, c :: rest =>
    if isWordGap c then (commandWordsFrom .between [] false rest).map (finishWord word marked)
    else if c == '#' then (commandWordsFrom .comment [] false rest).map (finishWord word marked)
    else if isQuoteMark c then commandWordsFrom (.quoted c) word true rest
    else if c == '\\' then commandWordsFrom (.escaped none) word marked rest
    else commandWordsFrom .inside (c :: word) marked rest
  | .quoted q, word, marked, c :: rest =>
    if c == q then commandWordsFrom .inside word marked rest
    else if c == '\\' && q == '\x22' then commandWordsFrom (.escaped (some q)) word marked rest
    else commandWordsFrom (.quoted q) (c :: word) marked rest
  | .escaped none, word, marked, c :: rest => commandWordsFrom .inside (c :: word) marked rest
  | .escaped (some q), word, marked, c :: rest =>
    if c == q || c == '\\' then commandWordsFrom (.quoted q) (c :: word) marked rest
    else commandWordsFrom (.quoted q) (c :: '\\' :: word) marked rest
  | .comment, word, marked, c :: rest =>
    commandWordsFrom (if c == '\n' then .between else .comment) word marked rest

def commandWords? (s : String) : Option (List String) := commandWordsFrom .between [] false s.toList

end CwlService.Text

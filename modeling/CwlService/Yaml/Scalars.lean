import CwlService.Yaml.Token

/-! # Reading scalars

Every loop is bounded by the number of characters left, since each turn consumes one. -/
namespace CwlService.Yaml

def tokenProblem (activity : Option (Activity × Option Mark)) (complaint : Complaint) (mark : Mark) :
    Failure := .problem ⟨.tokens, activity, complaint, mark⟩

structure ScalarRead where
  text : String
  /-- End of the scalar itself; reading may have gone on over white space. -/
  stop : Mark
  cursor : Cursor
  remark : Option Remark

/-! ## Plain scalars -/

def plainLength (flow old : Bool) : List Char → Nat
  | [] => 0
  | ch :: rest =>
    if ch == ':' && !isGap rest.head? then plainLength flow old rest + 1
    else if ch == '?' && !old then plainLength flow old rest + 1
    else if isGap (some ch) || (!flow && ch == ':') ||
        (flow && (ch == ',' || ch == ':' || ch == '?' || ch == '[' || ch == ']' ||
          ch == '\x7b' || ch == '\x7d')) then 0
    else plainLength flow old rest + 1

/-- Blank lines after a line break: the breaks, or nothing before a document marker. -/
def plainBreaks : Nat → Cursor → List String → Option (List String) × Cursor
  | 0, c, acc => (some acc.reverse, c)
  | fuel + 1, c, acc =>
    match c.head with
    | some ' ' => plainBreaks fuel c.next acc
    | some ch =>
      if isBreak ch then
        let (b, c) := c.lineBreak
        if c.atSeparator then (none, c) else plainBreaks fuel c (b :: acc)
      else (some acc.reverse, c)
    | none => (some acc.reverse, c)

/-- White space inside a plain scalar: the texts that replace it, and whether a line ended. -/
def plainGap (c : Cursor) : List String × Bool × Cursor :=
  let (blanks, c) := c.span (· == ' ')
  match c.head with
  | none => (if blanks.isEmpty then [] else [blanks], false, c)
  | some ch =>
    if isBreak ch then
      let (b, c) := c.lineBreak
      if c.atSeparator then ([], true, c)
      else
        match plainBreaks (c.left + 1) c [] with
        | (none, c) => ([], true, c)
        | (some breaks, c) =>
          let lead := if b != "\n" then [b] else if breaks.isEmpty then [" "] else []
          (lead ++ breaks, true, c)
    else (if blanks.isEmpty then [] else [blanks], false, c)

/-- Lines of a plain scalar. `keys` says whether a key may follow. -/
def plainLoop (indent : Int) (flow old : Bool) :
    Nat → Cursor → (text : String) → (gap : List String) → (keys : Bool) → Mark →
      String × List String × Bool × Mark × Cursor
  | 0, c, text, gap, keys, stop => (text, gap, keys, stop, c)
  | fuel + 1, c, text, gap, keys, stop =>
    if c.head == some '#' then (text, gap, keys, stop, c)
    else
      let n := plainLength flow old c.rest
      if n = 0 then (text, gap, keys, stop, c)
      else
        let text := text ++ String.join gap ++ c.ahead n
        let c := c.forward n
        let stop := c.mark
        let (gap, keys, c) := plainGap c
        if gap.isEmpty || c.head == some '#' || (!flow && (c.mark.column : Int) < indent) then
          (text, gap, keys, stop, c)
        else plainLoop indent flow old fuel c text gap keys stop

def readPlain (indent : Int) (flow old : Bool) (c : Cursor) : ScalarRead × Bool :=
  let (text, gap, keys, stop, c) := plainLoop indent flow old (c.left + 1) c "" [] false c.mark
  let remark := if gap.head? == some "\n" then some ⟨true, false⟩ else none
  (⟨text, stop, c, remark⟩, keys)

/-! ## Quoted scalars -/

def shortEscape : Char → Option Char
  | '0' => some '\x00'
  | 'a' => some '\x07'
  | 'b' => some '\x08'
  | 't' => some '\t'
  | '\t' => some '\t'
  | 'n' => some '\n'
  | 'v' => some '\x0b'
  | 'f' => some '\x0c'
  | 'r' => some '\r'
  | 'e' => some '\x1b'
  | ' ' => some ' '
  | '\x22' => some '\x22'
  | '/' => some '/'
  | '\\' => some '\\'
  | 'N' => some '\u0085'
  | '_' => some '\u00a0'
  | 'L' => some '\u2028'
  | 'P' => some '\u2029'
  | _ => none

def longEscape : Char → Option Nat
  | 'x' => some 2
  | 'u' => some 4
  | 'U' => some 8
  | _ => none

def hexValue (c : Char) : Option Nat :=
  if '0' ≤ c && c ≤ '9' then some (c.toNat - 48)
  else if 'A' ≤ c && c ≤ 'F' then some (c.toNat - 55)
  else if 'a' ≤ c && c ≤ 'f' then some (c.toNat - 87)
  else none

def hexNumber : List (Option Char) → Nat → Except (Option Char) Nat
  | [], n => .ok n
  | none :: _, _ => .error none
  | some c :: rest, n =>
    match hexValue c with
    | some d => hexNumber rest (n * 16 + d)
    | none => .error (some c)

def quotedBreaks (start : Mark) : Nat → Cursor → List String → Except Failure (List String × Cursor)
  | 0, c, acc => .ok (acc.reverse, c)
  | fuel + 1, c, acc =>
    if c.atSeparator then .error (tokenProblem (some (.quoted, some start)) .unexpectedSeparator c.mark)
    else
      let c := c.skip fun ch => ch == ' ' || ch == '\t'
      match c.head with
      | some ch =>
        if isBreak ch then
          let (b, c) := c.lineBreak
          quotedBreaks start fuel c (b :: acc)
        else .ok (acc.reverse, c)
      | none => .ok (acc.reverse, c)

def quotedGap (start : Mark) (c : Cursor) : Except Failure (String × Cursor) :=
  let (blanks, c) := c.span fun ch => ch == ' ' || ch == '\t'
  match c.head with
  | none => .error (tokenProblem (some (.quoted, some start)) .unexpectedEnd c.mark)
  | some ch =>
    if isBreak ch then
      let (b, c) := c.lineBreak
      match quotedBreaks start (c.left + 1) c [] with
      | .error e => .error e
      | .ok (breaks, c) =>
        let lead := if b != "\n" then b else if breaks.isEmpty then " " else ""
        .ok (lead ++ String.join breaks, c)
    else .ok (blanks, c)

def isQuotedSpecial (c : Char) : Bool :=
  c == ' ' || c == '\t' || c == '\x27' || c == '\x22' || c == '\\' || isBreak c

def quotedRun (double : Bool) (start : Mark) : Nat → Cursor → String → Except Failure (String × Cursor)
  | 0, c, text => .ok (text, c)
  | fuel + 1, c, text =>
    let (run, c) := c.span fun ch => !isQuotedSpecial ch
    let text := text ++ run
    match c.head with
    | none => .ok (text, c)
    | some ch =>
      if !double && ch == '\x27' && c.peek 1 == some '\x27' then
        quotedRun double start fuel (c.forward 2) (text.push '\x27')
      else if (double && ch == '\x27') || (!double && (ch == '\x22' || ch == '\\')) then
        quotedRun double start fuel c.next (text.push ch)
      else if double && ch == '\\' then
        let c := c.next
        match c.head with
        | none => .error (tokenProblem (some (.doubleQuoted, some start)) (.unknownEscape none) c.mark)
        | some e =>
          match shortEscape e with
          | some r => quotedRun double start fuel c.next (text.push r)
          | none =>
            match longEscape e with
            | some n =>
              let c := c.next
              match hexNumber ((List.range n).map c.peek) 0 with
              | .error found =>
                .error (tokenProblem (some (.doubleQuoted, some start)) (.expectedEscape n found) c.mark)
              | .ok code =>
                if code > 0x7FFFFFFF then .error .outOfRange
                else if code > 0x10FFFF then .error .badScalar
                else quotedRun double start fuel (c.forward n) (text.push (Text.charOf code))
            | none =>
              if isBreak e then
                let (_, c) := c.lineBreak
                match quotedBreaks start (c.left + 1) c [] with
                | .error err => .error err
                | .ok (breaks, c) => quotedRun double start fuel c (text ++ String.join breaks)
              else .error (tokenProblem (some (.doubleQuoted, some start)) (.unknownEscape (some e)) c.mark)
      else .ok (text, c)

def quotedLoop (double : Bool) (start : Mark) : Nat → Cursor → String → Except Failure (String × Cursor)
  | 0, c, text => .ok (text, c)
  | fuel + 1, c, text =>
    if c.head == some (if double then '\x22' else '\x27') then .ok (text, c)
    else
      match quotedGap start c with
      | .error e => .error e
      | .ok (gap, c) =>
        match quotedRun double start (c.left + 1) c (text ++ gap) with
        | .error e => .error e
        | .ok (text, c) => quotedLoop double start fuel c text

def readQuoted (double : Bool) (c : Cursor) : Except Failure ScalarRead :=
  let start := c.mark
  let c := c.next
  match quotedRun double start (c.left + 1) c "" with
  | .error e => .error e
  | .ok (text, c) =>
    match quotedLoop double start (c.left + 1) c text with
    | .error e => .error e
    | .ok (text, c) =>
      let c := c.next
      .ok ⟨text, c.mark, c, none⟩

/-! ## Block scalars -/

inductive Chomping where
  | clip
  | strip
  | keep
deriving DecidableEq, Repr

def indentDigit (start : Mark) (c : Cursor) : Except Failure (Option Nat × Cursor) :=
  match c.head with
  | some ch =>
    if '0' ≤ ch && ch ≤ '9' then
      if ch == '0' then .error (tokenProblem (some (.blockScalar, some start)) .zeroIndent c.mark)
      else .ok (some (ch.toNat - 48), c.next)
    else .ok (none, c)
  | none => .ok (none, c)

def chompingSign (c : Cursor) : Option Chomping × Cursor :=
  match c.head with
  | some '+' => (some .keep, c.next)
  | some '-' => (some .strip, c.next)
  | _ => (none, c)

/-- The header after `|` or `>`: a sign and a digit in either order. -/
def blockHeader (start : Mark) (c : Cursor) : Except Failure (Chomping × Option Nat × Cursor) := do
  let (chomping, increment, c) ← match chompingSign c with
    | (some s, c) => do
      let (d, c) ← indentDigit start c
      pure (s, d, c)
    | (none, c) => do
      match ← indentDigit start c with
      | (some d, c) =>
        let (s, c) := chompingSign c
        pure (s.getD .clip, some d, c)
      | (none, c) => pure (Chomping.clip, none, c)
  if isStop c.head then pure (chomping, increment, c)
  else throw (tokenProblem (some (.blockScalar, some start)) (.expectedIndicators c.head) c.mark)

/-- The rest of the header line: blanks and a comment. Gives whether there was a comment. -/
def blockHeaderLine (start : Mark) (c : Cursor) : Except Failure (Bool × Cursor) :=
  let c := c.skip (· == ' ')
  let (commented, c) := if c.head == some '#' then (true, c.skip fun ch => !isEnd (some ch))
    else (false, c)
  if isEnd c.head then .ok (commented, c.lineBreak.2)
  else .error (tokenProblem (some (.blockScalar, some start)) (.expectedCommentOrBreak c.head) c.mark)

/-- Leading blank lines when the indentation is not given: the breaks, the widest column. -/
def blockLead : Nat → Cursor → List String → Nat → Mark → List String × Nat × Mark × Cursor
  | 0, c, acc, widest, stop => (acc.reverse, widest, stop, c)
  | fuel + 1, c, acc, widest, stop =>
    match c.head with
    | some ch =>
      if ch == ' ' then
        let c := c.next
        blockLead fuel c acc (max widest c.mark.column) stop
      else if isBreak ch then
        let (b, c) := c.lineBreak
        blockLead fuel c (b :: acc) widest c.mark
      else (acc.reverse, widest, stop, c)
    | none => (acc.reverse, widest, stop, c)

def skipIndent (indent : Nat) : Nat → Cursor → Cursor
  | 0, c => c
  | fuel + 1, c =>
    if c.mark.column < indent && c.head == some ' ' then skipIndent indent fuel c.next else c

def blockBreaksLoop (indent : Nat) : Nat → Cursor → List String → Mark → List String × Mark × Cursor
  | 0, c, acc, stop => (acc.reverse, stop, c)
  | fuel + 1, c, acc, stop =>
    match c.head with
    | some ch =>
      if isBreak ch then
        let (b, c) := c.lineBreak
        blockBreaksLoop indent fuel (skipIndent indent indent c) (b :: acc) c.mark
      else (acc.reverse, stop, c)
    | none => (acc.reverse, stop, c)

def blockBreaks (indent : Nat) (c : Cursor) : List String × Mark × Cursor :=
  let stop := c.mark
  blockBreaksLoop indent (c.left + 1) (skipIndent indent indent c) [] stop

structure BlockRead where
  text : String
  lastBreak : String
  breaks : List String
  stop : Mark
  cursor : Cursor

/-- The mark of a folded line break in a text that remembers where its lines ended. -/
def foldMark : Char := '\x07'

def withoutFolds (s : String) : String := String.ofList (s.toList.filter (· != foldMark))

/-- Lines of a block scalar. Folding joins two lines that both start with a character other
than white space, and `marks` says that it leaves marks; `topLevel` scalars end at a document
marker. -/
def blockLines (folded marks topLevel : Bool) (indent : Nat) :
    Nat → Cursor → String → List String → Mark → BlockRead
  | 0, c, text, breaks, stop => ⟨text, "", breaks, stop, c⟩
  | fuel + 1, c, text, breaks, _ =>
    let text := text ++ String.join breaks
    let inset := c.head == some ' ' || c.head == some '\t'
    let (line, c) := c.span fun ch => !isEnd (some ch)
    let text := text ++ line
    let (b, c) := c.lineBreak
    let (breaks, stop, c) := blockBreaks indent c
    if topLevel && c.mark.column == 0 && c.atSeparator then ⟨text, b, breaks, stop, c⟩
    else if c.mark.column == indent && c.head.isSome then
      let nextInset := c.head == some ' ' || c.head == some '\t'
      let glue :=
        if folded && b == "\n" && !inset && !nextInset then (if breaks.isEmpty then " " else "")
        else b
      let text := if marks && folded && b == "\n" then text.push foldMark else text
      blockLines folded marks topLevel indent fuel c (text ++ glue) breaks stop
    else ⟨text, b, breaks, stop, c⟩

/-- Reads a block scalar from its indicator, inside a collection at `level`. The blank lines
left over at its end are in `remark`. -/
def readBlock (folded marks : Bool) (level : Int) (c : Cursor) : Except Failure ScalarRead := do
  let start := c.mark
  let (chomping, increment, c) ← blockHeader start c.next
  let (commented, c) ← blockHeaderLine start c
  let least := (level + 1).toNat
  let (indent, breaks, stop, c) := match increment with
    | none =>
      let (breaks, widest, stop, c) := blockLead (c.left + 1) c [] 0 c.mark
      (max least widest, breaks, stop, c)
    | some n =>
      let indent := max least 1 + n - 1
      let (breaks, stop, c) := blockBreaks indent c
      (indent, breaks, stop, c)
  let topLevel := increment.isNone && least == 0
  let read :=
    if c.mark.column == indent && c.head.isSome then
      blockLines folded marks topLevel indent (c.left + 1) c "" breaks stop
    else ⟨"", "", breaks, stop, c⟩
  let text := match chomping with
    | .strip => read.text
    | .clip => read.text ++ read.lastBreak
    | .keep => read.text ++ read.lastBreak ++ String.join read.breaks
  let left := chomping != .keep && !read.breaks.isEmpty
  let remark := if left || commented then some ⟨left, commented⟩ else none
  pure ⟨text, read.stop, read.cursor, remark⟩

end CwlService.Yaml

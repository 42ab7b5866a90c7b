import CwlService.Number.Reading
import CwlService.Yaml.Scalars

/-! # From text to tokens

A scalar may turn out to be a key only when its colon is seen, so tokens wait in a queue until
no *candidate key* among them is open: a candidate is dropped once its line is left or it grows
too long, and if a key had to stand there, that is a problem.

With `comments`, comments are tokens too: they are attached to their neighbours. A failure
keeps what was read before it, since the version that a text declares counts from the line that
declares it. -/
namespace CwlService.Yaml

structure CandidateKey where
  number : Nat
  required : Bool
  mark : Mark

structure Scanner where
  cursor : Cursor
  comments : Bool
  done : Bool := false
  /-- Open flow collections, innermost first: `true` for a sequence. -/
  flow : List Bool := []
  queue : List Token := []
  taken : Nat := 0
  indent : Int := -1
  indents : List Int := []
  keysAllowed : Bool := true
  candidates : List (Nat × CandidateKey) := []
  declared : Option Version := none

/-- Work of the scanner. What was read stays read, also when reading on fails. -/
abbrev Scan := ExceptT Failure (StateM Scanner)

namespace Scanner

def mark (s : Scanner) : Mark := s.cursor.mark

def inFlow (s : Scanner) : Bool := !s.flow.isEmpty

def version (s : Scanner) : Version := s.declared.getD .latest

def old (s : Scanner) : Bool := s.version == .older

def push (s : Scanner) (t : Token) : Scanner := { s with queue := s.queue ++ [t] }

def pushHere (s : Scanner) (kind : TokenKind) : Scanner := s.push (.make kind s.mark s.mark)

def pushChars (s : Scanner) (kind : TokenKind) (n : Nat) : Scanner :=
  let c := s.cursor.forward n
  { s with cursor := c, queue := s.queue ++ [.make kind s.mark c.mark] }

/-! ## Candidate keys -/

def missingColon (key : CandidateKey) (s : Scanner) : Failure :=
  tokenProblem (some (.simpleKey, some key.mark)) .missingColon s.mark

def isStale (s : Scanner) (key : CandidateKey) : Bool :=
  key.mark.line != s.mark.line || s.mark.index - key.mark.index > 1024

def dropStale : Scan Unit := do
  let s ← get
  match s.candidates.find? fun k => s.isStale k.2 && k.2.required with
  | some k => throw (missingColon k.2 s)
  | none => set { s with candidates := s.candidates.filter fun k => !s.isStale k.2 }

def dropCandidate : Scan Unit := do
  let s ← get
  match s.candidates.lookup s.flow.length with
  | none => pure ()
  | some key =>
    if key.required then throw (missingColon key s)
    set { s with candidates := s.candidates.filter fun k => k.1 != s.flow.length }

def saveCandidate : Scan Unit := do
  if (← get).keysAllowed then
    dropCandidate
    modify fun s =>
      let required := !s.inFlow && s.indent == s.mark.column
      let key : CandidateKey := ⟨s.taken + s.queue.length, required, s.mark⟩
      { s with candidates := s.candidates ++ [(s.flow.length, key)] }

def firstCandidate (s : Scanner) : Option Nat :=
  s.candidates.foldl (fun acc k => match acc with
    | none => some k.2.number
    | some n => some (min n k.2.number)) none

/-! ## Indentation -/

/-- Closes the block collections that are indented more than `column`. -/
def unwindLoop (column : Int) : List Int → Scanner → Scanner
  | [], s => s
  | outer :: rest, s =>
    if s.indent > column then
      unwindLoop column rest { (s.pushHere .blockEnd) with indent := outer, indents := rest }
    else s

def unwind (s : Scanner) (column : Int) : Scanner :=
  if s.inFlow then s else unwindLoop column s.indents s

/-- Opens a block collection at `column`, if that is further in; whether it did. -/
def addIndent (s : Scanner) (column : Nat) : Bool × Scanner :=
  if s.indent < column then (true, { s with indents := s.indent :: s.indents, indent := column })
  else (false, s)

/-! ## White space and comments -/

/-- Past line breaks, and past blanks too if `blanks`. -/
def skipBreaks (blanks : Bool) : Nat → Cursor → Cursor
  | 0, c => c
  | fuel + 1, c =>
    let (b, d) := c.lineBreak
    if !b.isEmpty then skipBreaks blanks fuel d
    else if blanks && (c.head == some ' ' || c.head == some '\t') then skipBreaks blanks fuel c.next
    else c

def skipComment (c : Cursor) : Cursor :=
  let c := c.skip fun ch => !isEnd (some ch)
  let c := c.next
  skipBreaks false (c.left + 1) c

/-- Past white space; stops after a comment and gives its mark when comments are kept. -/
def toNextLoop (s : Scanner) : Nat → Cursor → Bool → Option Mark × Cursor × Bool
  | 0, c, keys => (none, c, keys)
  | fuel + 1, c, keys =>
    let c := c.skip (· == ' ')
    if s.comments then
      if c.head == some '#' then (some c.mark, skipComment c, keys || !s.inFlow)
      else
        let (b, d) := c.lineBreak
        if b.isEmpty then (none, c, keys)
        else
          let keys := keys || !s.inFlow
          if d.head == some '\n' then (some d.mark, skipBreaks true (d.left + 1) d, keys)
          else toNextLoop s fuel d keys
    else
      let c := if c.head == some '#' then c.skip fun ch => !isEnd (some ch) else c
      let (b, d) := c.lineBreak
      if b.isEmpty then (none, c, keys) else toNextLoop s fuel d (keys || !s.inFlow)

def toNext (s : Scanner) : Option Mark × Scanner :=
  let c := s.cursor
  let c := if c.mark.index == 0 && c.head == some '\ufeff' then c.next else c
  let (comment, c, keys) := s.toNextLoop (c.left + 1) c s.keysAllowed
  (comment, { s with cursor := c, keysAllowed := keys })

def skipAll : Nat → Scanner → Scanner
  | 0, s => s
  | fuel + 1, s =>
    match s.toNext with
    | (none, s) => s
    | (some _, s) => skipAll fuel s

/-! ## Directives, tags and anchors -/

def isNameChar (c : Char) : Bool := c.isAlphanum || c == '-' || c == '_'

def inDirective (start : Mark) (complaint : Complaint) (c : Cursor) : Failure :=
  tokenProblem (some (.directive, some start)) complaint c.mark

def directiveName (start : Mark) (c : Cursor) : Except Failure (String × Cursor) :=
  let (name, d) := c.span fun ch => isNameChar ch || ch == ':' || ch == '.'
  if name.isEmpty then .error (inDirective start (.expectedName c.head) c)
  else if isStop d.head then .ok (name, d)
  else .error (inDirective start (.expectedName d.head) d)

def directiveNumber (start : Mark) (c : Cursor) : Except Failure (Nat × Cursor) :=
  let (digits, d) := c.span Char.isDigit
  if digits.isEmpty then .error (inDirective start (.expectedDigit c.head) c)
  else if digits.length > Number.maxDigits then .error .badScalar
  else .ok (digits.toList.foldl (fun n ch => n * 10 + (ch.toNat - 48)) 0, d)

def tagHandle (activity : Activity) (start : Mark) (c : Cursor) : Except Failure (String × Cursor) :=
  let fail := fun (c : Cursor) =>
    tokenProblem (some (activity, some start)) (.expectedBang c.head) c.mark
  if c.head != some '!' then .error (fail c)
  else if c.peek 1 == some ' ' then .ok ("!", c.next)
  else
    let (name, d) := c.next.span isNameChar
    if d.head != some '!' then .error (fail d) else .ok ("!" ++ name ++ "!", d.next)

/-- The characters of addresses; `hash` adds the number sign. -/
def isUriChar (hash : Bool) (c : Char) : Bool :=
  c.isAlphanum || "-;/?:@&=+$,_.!~*'()[]%".toList.contains c || (hash && c == '#')

def uriBytes (activity : Activity) (start : Mark) :
    Nat → Cursor → List UInt8 → Except Failure (List UInt8 × Cursor)
  | 0, c, acc => .ok (acc.reverse, c)
  | fuel + 1, c, acc =>
    if c.head == some '%' then
      let c := c.next
      match hexNumber [c.peek 0, c.peek 1] 0 with
      | .error found =>
        .error (tokenProblem (some (activity, some start)) (.expectedUriEscape found) c.mark)
      | .ok n => uriBytes activity start fuel (c.forward 2) (n.toUInt8 :: acc)
    else .ok (acc.reverse, c)

def uriLoop (activity : Activity) (start : Mark) (hash : Bool) :
    Nat → Cursor → String → Except Failure (String × Cursor)
  | 0, c, text => .ok (text, c)
  | fuel + 1, c, text =>
    let (run, c) := c.span fun ch => isUriChar hash ch && ch != '%'
    if c.head == some '%' then
      let before := c.mark
      match uriBytes activity start (c.left + 1) c [] with
      | .error e => .error e
      | .ok (bytes, c) =>
        match Text.byteFault? bytes with
        | none => uriLoop activity start hash fuel c (text ++ run ++ Text.ofBytes bytes)
        | some f => .error (tokenProblem (some (activity, some start)) (.undecodable f) before)
    else .ok (text ++ run, c)

def tagUri (activity reading : Activity) (start : Mark) (hash : Bool) (c : Cursor) :
    Except Failure (String × Cursor) := do
  let (text, d) ← uriLoop activity start hash (c.left + 1) c ""
  if d.mark.index == c.mark.index then
    throw (tokenProblem (some (reading, some start)) (.expectedUri d.head) d.mark)
  pure (text, d)

/-- Reads what a directive says: its version, its handle or nothing that counts. -/
def directiveBody (s : Scanner) : Except Failure (TokenKind × Cursor) := do
  let start := s.mark
  let (name, c) ← directiveName start s.cursor.next
  if name == "YAML" then
    let (major, c) ← directiveNumber start (c.skip (· == ' '))
    if c.head != some '.' then throw (inDirective start (.expectedDigitOrDot c.head) c)
    let (minor, c) ← directiveNumber start c.next
    if !isStop c.head then throw (inDirective start (.expectedDigitOrDot c.head) c)
    pure (.version ⟨major, minor⟩, c)
  else if name == "TAG" then
    let (handle, c) ← tagHandle .directiveName start (c.skip (· == ' '))
    if c.head != some ' ' then throw (inDirective start (.expectedSpace c.head) c)
    let (target, c) ←
      tagUri .directiveName .directiveAddress start s.version.isAfterOlder (c.skip (· == ' '))
    if !isStop c.head then throw (inDirective start (.expectedSpace c.head) c)
    pure (.handle handle target, c)
  else pure (.directive, c.skip fun ch => !isEnd (some ch))

/-- Past the end of a directive's line, which may hold a comment. -/
def directiveEnd (start : Mark) (c : Cursor) : Except Failure Cursor :=
  let c := c.skip (· == ' ')
  let c := if c.head == some '#' then c.skip fun ch => !isEnd (some ch) else c
  if isEnd c.head then .ok c.lineBreak.2
  else .error (inDirective start (.expectedCommentOrBreak c.head) c)

def isAnchorChar (c : Char) : Bool :=
  let n := c.toNat
  !(c == ',' || c == '[' || c == ']' || c == '\x7b' || c == '\x7d') &&
    ((0x21 ≤ n && n ≤ 0x7E) || (0xA0 ≤ n && n ≤ 0xD7FF) ||
      (0xE000 ≤ n && n ≤ 0xFFFD && n != 0xFEFF) || 0x10000 ≤ n)

def readAnchor (activity : Activity) (s : Scanner) : Except Failure (String × Cursor) :=
  let start := s.mark
  let c := s.cursor.next
  let (name, d) := c.span isAnchorChar
  let fail := fun (c : Cursor) =>
    tokenProblem (some (activity, some start)) (.expectedName c.head) c.mark
  if name.isEmpty then .error (fail c)
  else
    match d.head with
    | none => .ok (name, d)
    | some ch =>
      if ch == ' ' || ch == '\t' || isBreak ch || "?:,[]%@".toList.contains ch ||
          ch == '\x7b' || ch == '\x7d' || ch == '\x60' then .ok (name, d)
      else .error (fail d)

def readTag (s : Scanner) : Except Failure (Option String × String × Cursor) := do
  let start := s.mark
  let c := s.cursor
  let (handle, suffix, c) ←
    if c.peek 1 == some '<' then do
      let (suffix, c) ← tagUri .tagName .tagAddress start s.version.isAfterOlder (c.forward 2)
      if c.head != some '>' then
        throw (tokenProblem (some (.tagBrackets, some start)) (.expectedCloseTag c.head) c.mark)
      pure (none, suffix, c.next)
    else if isGap (c.peek 1) then pure (none, "!", c.next)
    else do
      let word := c.next.rest.takeWhile fun ch => !isStop (some ch)
      let (handle, c) ←
        if word.contains '!' then tagHandle .tagName start c else pure ("!", c.next)
      let (suffix, c) ← tagUri .tagName .tagAddress start s.version.isAfterOlder c
      pure (some handle, suffix, c)
  if !isStop c.head then throw (tokenProblem (some (.tag, some start)) (.expectedSpace c.head) c.mark)
  pure (handle, suffix, c)

/-! ## One token -/

def fetchEnd : Scan Unit := do
  modify (·.unwind (-1))
  dropCandidate
  modify fun s => { s with keysAllowed := false, candidates := [], done := true }.pushHere .streamEnd

def fetchDirective : Scan Unit := do
  modify (·.unwind (-1))
  dropCandidate
  modify fun s => { s with keysAllowed := false }
  let s ← get
  let start := s.mark
  let (kind, c) ← s.directiveBody
  if let .version v := kind then modify fun s => { s with declared := some v }
  let after ← directiveEnd start c
  modify fun s => { s.push (.make kind start c.mark) with cursor := after }

def fetchMarker (kind : TokenKind) : Scan Unit := do
  modify (·.unwind (-1))
  dropCandidate
  modify fun s => { s with keysAllowed := false }.pushChars kind 3

def fetchFlowStart (isSeq : Bool) (kind : TokenKind) : Scan Unit := do
  saveCandidate
  modify fun s => { s with flow := isSeq :: s.flow, keysAllowed := true }.pushChars kind 1

def fetchFlowEnd (kind : TokenKind) : Scan Unit := do
  dropCandidate
  modify fun s => { s with flow := s.flow.tail, keysAllowed := false }.pushChars kind 1

def fetchFlowEntry : Scan Unit := do
  modify fun s => { s with keysAllowed := true }
  dropCandidate
  modify (·.pushChars .flowEntry 1)

def openHere (kind : TokenKind) (forbidden : Complaint) : Scan Unit := do
  let s ← get
  if !s.inFlow then
    if !s.keysAllowed then throw (tokenProblem none forbidden s.mark)
    let (opened, s) := s.addIndent s.mark.column
    set (if opened then s.pushHere kind else s)

def fetchBlockEntry : Scan Unit := do
  openHere .blockSeqStart .entryForbidden
  modify fun s => { s with keysAllowed := true }
  dropCandidate
  modify (·.pushChars .blockEntry 1)

def fetchKey : Scan Unit := do
  openHere .blockMapStart .keyForbidden
  modify fun s => { s with keysAllowed := !s.inFlow }
  dropCandidate
  modify (·.pushChars .key 1)

def insertAt (s : Scanner) (number : Nat) (t : Token) : Scanner :=
  let i := number - s.taken
  { s with queue := s.queue.take i ++ t :: s.queue.drop i }

def acceptKey (s : Scanner) (key : CandidateKey) : Scanner :=
  let s := { s with candidates := s.candidates.filter fun k => k.1 != s.flow.length }
  let s := s.insertAt key.number (.make .key key.mark key.mark)
  if s.inFlow then s
  else
    let (opened, s) := s.addIndent key.mark.column
    if opened then s.insertAt key.number (.make .blockMapStart key.mark key.mark) else s

def fetchValue : Scan Unit := do
  let s ← get
  match s.candidates.lookup s.flow.length with
  | some key => set ({ s.acceptKey key with keysAllowed := false }.pushChars .value 1)
  | none =>
    openHere .blockMapStart .valueForbidden
    modify fun s => { s with keysAllowed := !s.inFlow }
    dropCandidate
    modify (·.pushChars .value 1)

def fetchAnchor (activity : Activity) (kind : String → TokenKind) : Scan Unit := do
  saveCandidate
  modify fun s => { s with keysAllowed := false }
  let s ← get
  let (name, c) ← readAnchor activity s
  set { s.push (.make (kind name) s.mark c.mark) with cursor := c }

def fetchTag : Scan Unit := do
  saveCandidate
  modify fun s => { s with keysAllowed := false }
  let s ← get
  let (handle, suffix, c) ← s.readTag
  set { s.push (.make (.tag handle suffix) s.mark c.mark) with cursor := c }

def fetchBlock (folded : Bool) : Scan Unit := do
  modify fun s => { s with keysAllowed := true }
  dropCandidate
  let s ← get
  let read ← readBlock folded s.comments s.indent s.cursor
  let style := if folded then ScalarStyle.folded else .literal
  let t : Token := ⟨.scalar read.text style, s.mark, read.stop, read.remark⟩
  let s := { s.push t with cursor := read.cursor }
  let left := (read.remark.map (·.after)).getD false
  set (if left then skipAll (s.cursor.left + 1) s else s)

def fetchQuoted (double : Bool) : Scan Unit := do
  saveCandidate
  modify fun s => { s with keysAllowed := false }
  let s ← get
  let read ← readQuoted double s.cursor
  let style := if double then ScalarStyle.double else .single
  set { s.push (.make (.scalar read.text style) s.mark read.stop) with cursor := read.cursor }

def fetchPlain : Scan Unit := do
  saveCandidate
  let s ← get
  let (read, keys) := readPlain (s.indent + 1) s.inFlow s.old s.cursor
  let t : Token := ⟨.scalar read.text .plain, s.mark, read.stop, read.remark⟩
  set { s.push t with cursor := read.cursor, keysAllowed := keys }

def atValue (s : Scanner) : Bool :=
  let spaced := isGap (s.cursor.peek 1)
  match s.flow with
  | [] => spaced
  | inSeq :: _ =>
    if s.old then true
    else if inSeq then spaced
    else
      match s.queue.getLast? with
      | some t => if t.kind == .value then spaced else true
      | none => true

def atPlain (s : Scanner) (ch : Char) : Bool :=
  let after := s.cursor.peek 1
  let ordinary := !(ch == ' ' || ch == '\t' || isBreak ch ||
    "-?:,[]#&*!|>'%@".toList.contains ch || ch == '\x22' || ch == '\x60' ||
    ch == '\x7b' || ch == '\x7d')
  ordinary ||
    (ch == '-' && !isGap after) ||
    (!s.old && ch == ':' && s.inFlow && after != some ' ' && after != some '\t') ||
    (!s.inFlow && (ch == '?' || ch == ':') && !isGap after)

def fetchAt : Scan Unit := do
  let s ← get
  match s.cursor.head with
  | none => fetchEnd
  | some ch =>
    let first := s.mark.column == 0
    let spaced := isGap (s.cursor.peek 1)
    if ch == '%' && first then fetchDirective
    else if first && s.cursor.atMarker "---" then fetchMarker .documentStart
    else if first && s.cursor.atMarker "..." then fetchMarker .documentEnd
    else if ch == '[' then fetchFlowStart true .flowSeqStart
    else if ch == '\x7b' then fetchFlowStart false .flowMapStart
    else if ch == ']' then fetchFlowEnd .flowSeqEnd
    else if ch == '\x7d' then fetchFlowEnd .flowMapEnd
    else if ch == ',' then fetchFlowEntry
    else if ch == '-' && spaced then fetchBlockEntry
    else if ch == '?' && (s.inFlow || spaced) then fetchKey
    else if ch == ':' && s.atValue then fetchValue
    else if ch == '*' then fetchAnchor .alias .alias
    else if ch == '&' then fetchAnchor .anchor .anchor
    else if ch == '!' then fetchTag
    else if ch == '|' && !s.inFlow then fetchBlock false
    else if ch == '>' && !s.inFlow then fetchBlock true
    else if ch == '\x27' then fetchQuoted false
    else if ch == '\x22' then fetchQuoted true
    else if s.atPlain ch then fetchPlain
    else throw (tokenProblem (some (.nextToken, none)) (.strayCharacter (some ch)) s.mark)

def fetch : Scan Unit := do
  match (← get).toNext with
  | (some start, s) => set (s.push (.make .comment start s.mark))
  | (none, s) =>
    set s
    dropStale
    modify fun s => s.unwind s.mark.column
    fetchAt

/-! ## Handing out tokens -/

def needsMore : Scan Bool := do
  let s ← get
  if s.done then return false
  if s.queue.isEmpty then return true
  dropStale
  let s ← get
  return s.firstCandidate == some s.taken

/-- Reads until the first token of the queue need not wait. -/
def ensure : Nat → Scan Unit
  | 0 => pure ()
  | fuel + 1 => do
    if ← needsMore then
      fetch
      ensure fuel

def popComment : Scan Bool := do
  let s ← get
  match s.queue with
  | t :: rest =>
    if t.kind.isComment then
      set { s with queue := rest, taken := s.taken + 1 }
      return true
    else return false
  | [] => return false

/-- Takes comments off the front of the queue; whether there were any. -/
def dropComments : Nat → Bool → Scan Bool
  | 0, found => pure found
  | fuel + 1, found => do
    if ← needsMore then
      fetch
      if (← get).queue.isEmpty then return found
      dropComments fuel (found || (← popComment))
    else return found

/-- Attaches the comments at the front of the queue to the token after them, and looks one
token further. -/
def gather (fuel : Nat) : Scan Unit := do
  if (← get).queue.isEmpty then return
  let found ← popComment
  let found ← dropComments fuel found
  if found then
    modify fun s => match s.queue with
      | t :: rest => { s with queue := t.addBefore :: rest }
      | [] => s
  let s ← get
  if !s.done && s.queue.length < 2 then fetch

/-- Makes the first token of the queue ready to be looked at. -/
def settle (fuel : Nat) : Scan Unit := do
  ensure fuel
  if (← get).comments then gather fuel

def look (fuel : Nat) : Scan Token := do
  settle fuel
  match (← get).queue with
  | t :: _ => pure t
  | [] => throw .endless

def replace (t : Token) : Scan Unit :=
  modify fun s => { s with queue := t :: s.queue.tail }

/-- Takes the comments right behind the first token; whether there were any. -/
def takeTrailing : Nat → Bool → Scan Bool
  | 0, found => pure found
  | fuel + 1, found => do
    let s ← get
    match s.queue with
    | t :: c :: rest =>
      if c.kind.isComment then
        set { s with queue := t :: rest, taken := s.taken + 1 }
        fetch
        takeTrailing fuel true
      else return found
    | _ => return found

def claimsComment (t c : Token) : Bool :=
  match t.kind with
  | .scalar _ _ => true
  | .value => t.stop.line == c.start.line
  | .flowSeqEnd => t.stop.line == c.start.line
  | .flowMapEnd => t.stop.line == c.start.line
  | _ => false

def take (fuel : Nat) : Scan Token := do
  settle fuel
  let s ← get
  let trailing ← match s.queue with
    | t :: c :: _ =>
      if s.comments && c.kind.isComment && claimsComment t c then takeTrailing fuel false
      else pure false
    | _ => pure false
  let s ← get
  match s.queue with
  | [] => throw .endless
  | t :: rest =>
    set { s with queue := rest, taken := s.taken + 1 }
    pure (if trailing then t.addAfter else t)

/-- The start of a text, with the version that counts until the text declares one. -/
def ofText (comments : Bool) (declared : Option Version) (text : String) : Scanner :=
  let s : Scanner := { cursor := Cursor.ofText text, comments, declared }
  s.pushHere .streamStart

end Scanner
end CwlService.Yaml

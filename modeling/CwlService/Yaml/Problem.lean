import CwlService.Text.Quoted
import CwlService.Yaml.Cursor

/-! # What can be wrong with a document text

`Problem.message` is the one place with the wording. The text of a mark shows its line, cut to
a window around it, with a caret below. -/
namespace CwlService.Yaml

inductive Activity where
  | simpleKey
  | nextToken
  | directive
  | alias
  | anchor
  | tag
  | directiveName
  | directiveAddress
  | tagName
  | tagAddress
  | tagBrackets
  | blockScalar
  | doubleQuoted
  | quoted
  | blockMapping
  | blockCollection
  | flowMapping
  | flowSequence
  | node
  | blockNode
  | flowNode
  | singleDocument
deriving DecidableEq, Repr

inductive Complaint where
  | missingColon
  | entryForbidden
  | keyForbidden
  | valueForbidden
  | strayCharacter (found : Option Char)
  | expectedName (found : Option Char)
  | expectedDigit (found : Option Char)
  | expectedDigitOrDot (found : Option Char)
  | expectedSpace (found : Option Char)
  | expectedCommentOrBreak (found : Option Char)
  | expectedBang (found : Option Char)
  | expectedCloseTag (found : Option Char)
  | expectedUri (found : Option Char)
  | expectedUriEscape (found : Option Char)
  | undecodable (fault : Text.ByteFault)
  | zeroIndent
  | expectedIndicators (found : Option Char)
  | expectedEscape (length : Nat) (found : Option Char)
  | unknownEscape (found : Option Char)
  | unexpectedEnd
  | unexpectedSeparator
  | duplicateVersion
  | unsupportedVersion
  | duplicateHandle (handle : String)
  | undefinedHandle (handle : String)
  | expectedDocument (found : String)
  | expectedBlockEnd (found : String)
  | expectedFlowMapNext (found : String)
  | expectedFlowSeqNext (found : String)
  | expectedContent (found : String)
  | undefinedAlias (name : String)
  | anotherDocument
deriving DecidableEq, Repr

inductive Stage where
  | tokens
  | shape
  | references
deriving DecidableEq, Repr

/-- A problem: the part that found it, what was being read from where, what is wrong where. -/
structure Problem where
  stage : Stage
  activity : Option (Activity × Option Mark)
  complaint : Complaint
  mark : Mark
deriving DecidableEq, Repr

def Activity.message : Activity → String
  | .simpleKey => "while scanning a simple key"
  | .nextToken => "while scanning for the next token"
  | .directive => "while scanning a directive"
  | .alias => "while scanning an alias"
  | .anchor => "while scanning an anchor"
  | .tag => "while scanning a tag"
  | .directiveName => "while scanning an directive"
  | .directiveAddress => "while parsing an directive"
  | .tagName => "while scanning an tag"
  | .tagAddress => "while parsing an tag"
  | .tagBrackets => "while parsing a tag"
  | .blockScalar => "while scanning a block scalar"
  | .doubleQuoted => "while scanning a double-quoted scalar"
  | .quoted => "while scanning a quoted scalar"
  | .blockMapping => "while parsing a block mapping"
  | .blockCollection => "while parsing a block collection"
  | .flowMapping => "while parsing a flow mapping"
  | .flowSequence => "while parsing a flow sequence"
  | .node => "while parsing a node"
  | .blockNode => "while parsing a block node"
  | .flowNode => "while parsing a flow node"
  | .singleDocument => "expected a single document in the stream"

/-- A character in quotes; the end of the text shows as a zero character. -/
def foundText (c : Option Char) : String := Text.quote (String.singleton (c.getD '\x00'))

def byteProblemText : Text.ByteProblem → String
  | .start => "invalid start byte"
  | .continuation => "invalid continuation byte"
  | .cut => "unexpected end of data"

def byteFaultText (f : Text.ByteFault) : String :=
  let found :=
    if f.stop == f.start + 1 then
      "byte 0x" ++ String.ofList (Text.hexDigits 2 f.first.toNat) ++ " in position " ++ toString f.start
    else "bytes in position " ++ toString f.start ++ "-" ++ toString (f.stop - 1)
  "'utf-8' codec can't decode " ++ found ++ ": " ++ byteProblemText f.problem

def Complaint.message : Complaint → String
  | .missingColon => "could not find expected ':'"
  | .entryForbidden => "sequence entries are not allowed here"
  | .keyForbidden => "mapping keys are not allowed here"
  | .valueForbidden => "mapping values are not allowed here"
  | .strayCharacter c => "found character " ++ foundText c ++ " that cannot start any token"
  | .expectedName c => "expected alphabetic or numeric character, but found " ++ foundText c
  | .expectedDigit c => "expected a digit, but found " ++ foundText c
  | .expectedDigitOrDot c => "expected a digit or '.', but found " ++ foundText c
  | .expectedSpace c => "expected ' ', but found " ++ foundText c
  | .expectedCommentOrBreak c => "expected a comment or a line break, but found " ++ foundText c
  | .expectedBang c => "expected '!', but found " ++ foundText c
  | .expectedCloseTag c => "expected '>', but found " ++ foundText c
  | .expectedUri c => "expected URI, but found " ++ foundText c
  | .expectedUriEscape c =>
    "expected URI escape sequence of 2 hexdecimal numbers, but found " ++ foundText c
  | .undecodable f => byteFaultText f
  | .zeroIndent => "expected indentation indicator in the range 1-9, but found 0"
  | .expectedIndicators c =>
    "expected chomping or indentation indicators, but found " ++ foundText c
  | .expectedEscape n c =>
    "expected escape sequence of " ++ toString n ++ " hexdecimal numbers, but found " ++ foundText c
  | .unknownEscape c => "found unknown escape character " ++ foundText c
  | .unexpectedEnd => "found unexpected end of stream"
  | .unexpectedSeparator => "found unexpected document separator"
  | .duplicateVersion => "found duplicate YAML directive"
  | .unsupportedVersion => "found incompatible YAML document (version 1.* is required)"
  | .duplicateHandle h => "duplicate tag handle " ++ Text.quote h
  | .undefinedHandle h => "found undefined tag handle " ++ Text.quote h
  | .expectedDocument t => "expected '<document start>', but found " ++ Text.quote t
  | .expectedBlockEnd t => "expected <block end>, but found " ++ Text.quote t
  | .expectedFlowMapNext t => "expected ',' or '\x7d', but got " ++ Text.quote t
  | .expectedFlowSeqNext t => "expected ',' or ']', but got " ++ Text.quote t
  | .expectedContent t => "expected the node content, but found " ++ Text.quote t
  | .undefinedAlias name => "found undefined alias " ++ Text.quote name
  | .anotherDocument => "but found another document"

/-- The part of the line before a mark: at most 36 characters, the first ones then
replaced by dots. `seen` are the characters before the mark, nearest first. -/
def snippetBefore (seen : List Char) : String × List Char :=
  let line := seen.takeWhile fun c => !isBreak c
  if line.length > 36 then (" ... ", (line.take 32).reverse) else ("", line.reverse)

def snippetAfter (rest : List Char) : List Char × String :=
  let line := rest.takeWhile fun c => !isBreak c
  if line.length > 36 then (line.take 32, " ... ") else (line, "")

def Mark.shown (m : Mark) (source : List Char) : String :=
  let (lead, before) := snippetBefore (source.take m.index).reverse
  let (after, tail) := snippetAfter (source.drop m.index)
  "  in \"<unicode string>\", line " ++ toString (m.line + 1) ++ ", column " ++
    toString (m.column + 1) ++ ":\n    " ++ lead ++ String.ofList (before ++ after) ++ tail ++ "\n" ++
    String.ofList (List.replicate (4 + before.length + lead.length) ' ') ++ "^ (line: " ++
    toString (m.line + 1) ++ ")"

/-- The message of a problem. The first mark is left out when it is the second one. -/
def Problem.message (p : Problem) (source : String) : String :=
  let cs := source.toList
  let context := match p.activity with
    | none => []
    | some (a, none) => [a.message]
    | some (a, some m) =>
      if m.line == p.mark.line && m.column == p.mark.column then [a.message]
      else [a.message, m.shown cs]
  "\n".intercalate (context ++ [p.complaint.message, p.mark.shown cs])

/-! ## Versions of the language

The latest version is meant if a document declares none. -/

structure Version where
  major : Nat
  minor : Nat
deriving DecidableEq, Repr, Inhabited

namespace Version

def latest : Version := ⟨1, 2⟩

def older : Version := ⟨1, 1⟩

def isKnown (v : Version) : Bool := v == latest || v == older

def isAfterOlder (v : Version) : Bool := v.major > 1 || (v.major == 1 && v.minor > 1)

def pair (v : Version) : String := "(" ++ toString v.major ++ ", " ++ toString v.minor ++ ")"

end Version

/-! ## Why a text gives no data -/

inductive Failure where
  | noText
  /-- A reader that was given no text at first cannot read the next one. -/
  | unprepared
  | exhausted
  | problem (p : Problem)
  /-- The text has a character that no document may have. -/
  | unreadable
  | commentClash
  | unknownVersion (version : Version)
  | badScalar
  | emptyScalar
  /-- A moment lies outside the calendar, or a character outside every range. -/
  | outOfRange
  | unknownWord (word : String)
  | wrongShape
  | deepKey
  | notMergeable
  | duplicateKey
  | repeatedEntry
  | endless
deriving DecidableEq, Repr

end CwlService.Yaml

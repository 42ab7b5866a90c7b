/-! # What stops a script

A script stops with one problem. The first line of its text is what is shown where the
value of an expression would stand. -/
namespace CwlService.Script

inductive Malformed where
  | unexpected
  | nameExpected
  | unterminated
  | emptyExpression
  | strayReturn
  | listLiteral
  | objectLiteral
  | declaration
  | target
  | openText
  | openComment
  | openPattern
  | numeral
  | escapeDigits
  | escapeNumber
  | nameEscape
  | nameCharacter
  | unknownCharacter
  deriving DecidableEq, Repr

inductive Problem where
  /-- The text is not a script; `line` is that of the token being looked at. -/
  | malformed (cause : Malformed) (line : Nat)
  | unbound (name : String)
  /-- A property of a value that has none; both are already shown. -/
  | noProperties (key base : String)
  | notFunction (shown : String)
  | notSimple
  | tooDeep
  deriving DecidableEq, Repr

def Malformed.message : Malformed → String
  | .unexpected => "parse error"
  | .nameExpected => "expected identifier"
  | .unterminated => "unterminated statement"
  | .emptyExpression => "empty expression not allowed"
  | .strayReturn => "invalid return"
  | .listLiteral => "invalid array literal"
  | .objectLiteral => "invalid object literal"
  | .declaration => "invalid variable declaration"
  | .target => "invalid lvalue"
  | .openText => "eof or line terminator while parsing string literal"
  | .openComment => "eof while parsing multiline comment"
  | .openPattern => "eof or line terminator while parsing regexp"
  | .numeral => "invalid numeric literal"
  | .escapeDigits => "decode error"
  | .escapeNumber => "invalid escape while parsing string literal"
  | .nameEscape => "invalid unicode escape while parsing identifier"
  | .nameCharacter => "invalid unicode escaped character while parsing identifier"
  | .unknownCharacter => "error parsing token"

def Problem.message : Problem → String
  | .malformed cause line => "SyntaxError: " ++ cause.message ++ " (line " ++ toString line ++ ")"
  | .unbound name => "ReferenceError: identifier '" ++ name ++ "' undefined"
  | .noProperties key base => "TypeError: cannot read property " ++ key ++ " of " ++ base
  | .notFunction shown => "TypeError: " ++ shown ++ " not callable"
  | .notSimple => "TypeError: [[DefaultValue]] coerce failed"
  | .tooDeep => "RangeError: callstack limit"

end CwlService.Script

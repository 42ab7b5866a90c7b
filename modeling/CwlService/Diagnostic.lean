/-! # Places in a text and problems shown to the user

Lines and characters are integers, since an outline may end one line before the text begins. -/
namespace CwlService

structure Place where
  line : Int
  column : Int
deriving DecidableEq, Repr, Inhabited

/-- From a first place to a last one, both included. -/
structure Span where
  start : Place
  stop : Place
deriving DecidableEq, Repr, Inhabited

namespace Place

def le (p q : Place) : Bool := p.line < q.line || (p.line == q.line && p.column ≤ q.column)

end Place

namespace Span

def at_ (p : Place) : Span := ⟨p, p⟩

def contains (s : Span) (p : Place) : Bool := s.start.le p && p.le s.stop

end Span
inductive Severity where
  | error
  | warning
  | information
  | hint
deriving DecidableEq, Repr

namespace Severity

def code : Severity → Nat
  | .error => 1
  | .warning => 2
  | .information => 3
  | .hint => 4

def ofCode? : Int → Option Severity
  | 1 => some .error
  | 2 => some .warning
  | 3 => some .information
  | 4 => some .hint
  | _ => none

end Severity

/-- What a problem says: a text, and the names of a set if it ends with one. A set has no order of
its own; its names stand in that of texts until they are shown. -/
structure Message where
  text : String
  names : Option (List String) := none
deriving DecidableEq, Repr

namespace Message

instance : Coe String Message := ⟨fun text => { text }⟩

/-- The text that is shown, where `listed` puts the names of a set in order. -/
def shown (listed : List String → List String) (m : Message) : String :=
  match m.names with
  | none => m.text
  | some [] => m.text ++ "set()"
  | some names => m.text ++ "\x7b" ++ ", ".intercalate (listed names) ++ "\x7d"

end Message

/-- A problem of a document. It has no span if none is known where it was found. -/
structure Diagnostic where
  span : Option Span
  message : Message
  severity : Option Severity := none
  code : Option String := none
  source : Option String := none
deriving DecidableEq, Repr

namespace Diagnostic

def error (span : Option Span) (message : Message) : Diagnostic := ⟨span, message, some .error, none, none⟩

def warning (span : Option Span) (message : Message) : Diagnostic :=
  ⟨span, message, some .warning, none, none⟩

def same (a b : Diagnostic) : Bool := a.span == b.span && a.message == b.message

end Diagnostic
end CwlService

import CwlService.Node.Basic
import CwlService.Yaml.Problem

/-! # Why an operation gives no answer

Documents are read while they are being typed, so any value can turn up anywhere. -/
namespace CwlService

inductive Fault where
  /-- The operation does not take values of this kind. -/
  | wrongKind
  | noMember
  | missingKey (key : Node)
  | outOfRange
  /-- The value is of the right kind but not a usable one. -/
  | badValue
  | unattached
  | text (failure : Yaml.Failure)
  | unwritable
  | unreachable
  | undecodable
  | unencodable
  | nameTooLong
  | isDirectory
  | notDirectory
  | endless
deriving Repr

/-! ## Log entries

What the service tells its operator: warnings and errors, in order. -/

inductive LogLevel where
  | warning
  | error
deriving DecidableEq, Repr

structure LogEntry where
  level : LogLevel
  message : String
deriving DecidableEq, Repr

namespace LogEntry

def error (message : String) : LogEntry := ⟨.error, message⟩

def warning (message : String) : LogEntry := ⟨.warning, message⟩

end LogEntry
end CwlService

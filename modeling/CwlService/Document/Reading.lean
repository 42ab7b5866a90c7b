import CwlService.Fault
import CwlService.Yaml.Heal

/-! # Reading a document text

A text is read with repairs. If it cannot be read, there is no data and one problem. -/
namespace CwlService.Document

def repairs : Nat := 3

def unreadable (p : Yaml.Problem) (tried : String) : Diagnostic :=
  { span := some (Span.at_ ⟨p.mark.line, p.mark.column⟩), message := p.message tried,
    severity := some .error, code := some "YAML err", source := some "Benten" }

/-- Reading with a reader, which stays as it is when reading fails. -/
abbrev Reads := ExceptT Fault (StateM Yaml.Reader)

def reading {α : Type} (r : Yaml.Reader.Read α) : Reads α :=
  ExceptT.mk (do return (← r.run).mapError .text)

/-- What comes of reading: data, or no data and one problem. -/
def outcome : Except (Yaml.Failure ⊕ Yaml.Repair) (Yaml.Outcome Yaml.Reader.Loaded) →
    Except Fault (Yaml.Reader.Loaded × List Diagnostic)
  | .ok (.data l) => .ok (l, [])
  | .ok (.problem p tried) => .ok (⟨.null, []⟩, [unreadable p tried])
  | .error (.inl e) => .error (.text e)
  | .error (.inr .noSuchLine) => .error .outOfRange

/-- Reads a text with repairs, whichever way texts are loaded. -/
def readBy {m : Type → Type} [Monad m] (load : String → m (Except Yaml.Failure Yaml.Reader.Loaded))
    (retries : Nat) (text : String) : ExceptT Fault m (Yaml.Reader.Loaded × List Diagnostic) :=
  ExceptT.mk (outcome <$> Yaml.readHealing load retries text)

def read (retries : Nat) (text : String) : Reads (Yaml.Reader.Loaded × List Diagnostic) :=
  readBy (fun text => (Yaml.Reader.loadAll text).run) retries text

def readNode (retries : Nat) (text : Node) : Reads (Yaml.Reader.Loaded × List Diagnostic) :=
  match text with
  | .text s _ => read retries s
  | .null => reading Yaml.Reader.loadNothing
  | _ => reading Yaml.Reader.refuse

/-- The data of a linked text, or something else for one that is wrong at a place; only an
alias without an anchor, or a second document, is a fault. -/
def readOr (other : Node) (text : String) : Reads Node := do
  match ← (Yaml.Reader.load text).run with
  | .ok n => pure n
  | .error (.problem p) => if p.stage == .references then throw (.text (.problem p)) else pure other
  | .error e => throw (.text e)

/-- The data of a linked text. One that is wrong at a place counts as having none. -/
def readLinked (text : String) : Reads Node := readOr .null text

def readLinkedNode (text : Node) : Reads Node :=
  match text with
  | .text s _ => readLinked s
  | .null => reading Yaml.Reader.loadNothing
  | _ => reading Yaml.Reader.refuse

end CwlService.Document

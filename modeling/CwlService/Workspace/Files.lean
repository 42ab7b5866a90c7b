import CwlService.Document.Reading
import CwlService.Uri

/-! # Files and addresses within reach

A directory exists if it is listed or if a file stands below it. -/
namespace CwlService

inductive Reply where
  | body (bytes : List UInt8)
  | refused
deriving Repr

structure Workspace where
  /-- Texts of files by the names of their paths from the root; a directory has none. -/
  files : List (List String × Option String)
  replies : List (String × Reply)
  /-- The directory that relative paths are seen from. -/
  cwd : Path := ⟨"/", ["cwd"]⟩
  /-- The directory for files of the service itself. -/
  scratch : Path := ⟨"/", ["scratch"]⟩
  halves : Text.Halves := Text.half?

namespace Workspace

inductive Entry where
  | file (text : String)
  | directory
  | nothing
deriving DecidableEq, Repr

def entryAt (w : Workspace) (names : List String) : Entry :=
  match w.files.find? fun f => f.1 == names with
  | some (_, some text) => .file text
  | some (_, none) => .directory
  | none => if names.isEmpty || w.files.any fun f => names.isPrefixOf f.1 then .directory else .nothing

/-- Whether names lead on from a directory: a path goes back only out of directories that are
there. -/
def passes (w : Workspace) : (dir names : List String) → Bool
  | _, [] => true
  | dir, n :: rest =>
    (n != ".." || match w.entryAt dir with
      | .directory => true
      | _ => false) && w.passes (Path.step dir n) rest

def look (w : Workspace) (p : Path) : Entry :=
  if w.passes [] p.names then w.entryAt p.flat else .nothing

def write (w : Workspace) (p : Path) (text : String) : Workspace :=
  { w with files := (w.files.filter fun f => f.1 != p.flat) ++ [(p.flat, some text)] }

/-- Writes bytes over those of a file, from a position on. What stands at a path that is no
file stays. -/
def overwrite (w : Workspace) (p : Path) (position : Nat) (bytes : List UInt8) : Workspace :=
  match w.entryAt p.flat with
  | .file text => w.write p (Text.ofFile (Text.overlay (Text.fileBytes w.halves text) position bytes))
  | _ => w

/-! ## Long paths -/

def longestName : Nat := 255

def longestPath : Nat := 4095

def isLong (name : String) : Bool := (Text.bytes name).length > longestName

/-- Whether looking for names below a directory meets one that is too long. -/
def meetsLongName (w : Workspace) (dir : List String) : List String → Bool
  | [] => false
  | n :: rest =>
    match w.look ⟨"/", dir⟩ with
    | .directory => isLong n || meetsLongName w (dir ++ [n]) rest
    | _ => false

def find (w : Workspace) (p : Path) : Except Fault Entry :=
  if (Text.bytes p.text).length > longestPath || w.meetsLongName [] p.names then throw .nameTooLong
  else pure (w.look p)

def ensure (w : Workspace) (names : List String) : Workspace :=
  match w.entryAt names with
  | .nothing => { w with files := w.files ++ [(names, none)] }
  | _ => w

/-- Makes the directories that names lead through, and into, from a directory on. No directory
can be where a file is. -/
def makeThrough (w : Workspace) : (dir names : List String) → Workspace × Except Fault Unit
  | dir, [] =>
    match w.entryAt dir with
    | .file _ => (w, .error .notDirectory)
    | _ => (w.ensure dir, .ok ())
  | dir, n :: rest =>
    match w.entryAt dir with
    | .file _ => (w, .error .notDirectory)
    | _ => makeThrough (if n == ".." then w.ensure dir else w) (Path.step dir n) rest

def makeDirectory (w : Workspace) (names : List String) : Workspace × Except Fault Unit :=
  let made := names.takeWhile fun n => !isLong n
  let (w, r) := w.makeThrough [] made
  (w, do r; if made.length == names.length then .ok () else .error .nameTooLong)

/-! ## Links -/

/-- The path that the address of a document names. An address that is not there is empty; what
else is no text has no path. -/
def documentPath (doc : Node) : Except Fault Path :=
  match doc with
  | .text s _ =>
    match Uri.path? s with
    | some p => pure p
    | none => throw .badValue
  | n => if n.truthy then throw .noMember else pure (Path.ofText "")

def isUnencodable (w : Workspace) (c : Char) : Bool :=
  (w.halves c).any fun n => !(0xDC80 ≤ n && n ≤ 0xDCFF)

/-- The path of a link in a document: seen from the directory of the document. -/
def resolve (w : Workspace) (doc : Node) (target : String) : Except Fault Path := do
  let t := Path.ofText target
  let base ← if t.isAbsolute then pure (Path.ofText ".") else (documentPath doc).map (·.parent)
  let p := base.join t
  match (w.cwd.join p).names.find? fun n => n.toList.any fun c => c == '\x00' || w.isUnencodable c with
  | some n => throw (if n.toList.any w.isUnencodable then .unencodable else .badValue)
  | none => pure (p.resolve w.cwd)

structure Linked where
  path : String
  file : Option Path
  contents : String
  node : Node

/-- Follows a link; a link that leads nowhere is a problem at `loc`. -/
def follow (w : Workspace) (doc : Node) (target : String) (loc : Option Span) :
    Document.Reads (Linked × List Diagnostic) := do
  match Uri.hasScheme? target with
  | none => throw .badValue
  | some true =>
    match w.replies.lookup target with
    | none => throw .unreachable
    | some .refused =>
      pure (⟨target, none, "", .map .plain []⟩, [.error loc ("Missing URL: " ++ target)])
    | some (.body bytes) =>
      match Text.ofBytes? bytes with
      | none => throw .undecodable
      | some contents => pure (⟨target, none, contents, ← Document.readLinked contents⟩, [])
  | some false =>
    let p ← w.resolve doc target
    match ← w.find p with
    | .nothing =>
      pure (⟨p.text, some p, "", .map .plain []⟩, [.error loc ("Missing document: " ++ target)])
    | .directory =>
      pure (⟨p.text, some p, "", .map .plain []⟩, [.error loc ("Linked document must be file: " ++ target)])
    | .file text =>
      let contents := Text.newlinesText text
      pure (⟨p.text, some p, contents, ← Document.readLinked contents⟩, [])

/-- Follows a link that a document holds. What is no text leads nowhere; bytes are looked at
like an address first. -/
def followNode (w : Workspace) (doc target : Node) (loc : Option Span) :
    Document.Reads (Linked × List Diagnostic) :=
  match target with
  | .text s _ => w.follow doc s loc
  | .bytes bs =>
    if bs.any (· ≥ 128) then throw .undecodable
    else if (Uri.hasScheme? (String.ofList (bs.map fun b => Char.ofNat b.toNat))).isNone then
      throw .badValue
    else throw .unreachable
  | .seq _ [] | .map _ [] | .set _ [] => throw .wrongKind
  | n => if n.truthy then throw .noMember else throw .unreachable

end Workspace
end CwlService

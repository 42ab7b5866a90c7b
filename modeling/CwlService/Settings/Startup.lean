import CwlService.Language.Build
import CwlService.Path
import CwlService.Schema.Reading
import CwlService.Settings.CommandLine
import CwlService.Settings.Ini

/-! # Starting the service

The schemas of the published versions are put into the directory of the settings if they are
missing there. -/
namespace CwlService.Settings

/-! ## Directories -/

structure Homes where
  config : Path
  data : Path
  home : Path
  users : List (String × Path) := []

namespace Homes

def place (base : Path) (more : List String) : Path :=
  ⟨base.root, base.names ++ ["sevenbridges", "benten"] ++ more⟩

def settings (h : Homes) : Path := place h.config []

def logs (h : Homes) : Path := place h.data ["logs"]

def scratch (h : Homes) : Path := place h.data ["scratch"]

/-- Whether making the directories for data makes the one for settings. -/
def settingsMade (h : Homes) : Bool :=
  h.config.root == h.data.root && h.settings.names.isPrefixOf h.logs.names

def homeOf? (h : Homes) (name : String) : Option Path :=
  if name == "~" then some h.home else h.users.lookup (name.drop 1).toString

/-- A path of a settings file: a tilde is a home, and a relative path starts at the
settings. Nothing if there is no such home. -/
def resolve? (h : Homes) (value : String) : Option Path :=
  let p := Path.ofText value
  match p.isAbsolute, p.names with
  | false, first :: rest =>
    if first.startsWith "~" then (h.homeOf? first).map fun home => ⟨home.root, home.names ++ rest⟩
    else some (h.settings.join p)
  | _, _ => some (h.settings.join p)

end Homes
/-! ## Log files

The files of the last five starts are kept under numbers; a start moves every one on by one. -/

def logName : String := "benten-ls.log"

def keptLogs : Nat := 5

/-- The log files that there are: zero is the last one, the others are earlier. -/
abbrev LogFiles := List Nat

namespace LogFiles

def name : Nat → String
  | 0 => logName
  | n => logName ++ "." ++ toString n

def started (files : LogFiles) : LogFiles :=
  if files.contains 0 then 0 :: (files.map (· + 1)).filter (· ≤ keptLogs) else 0 :: files

end LogFiles
/-! ## Schemas and starts -/

def version : String := "2019.11.27"

abbrev SettingsFiles := Option (List (String × Node))

inductive CatalogFault where
  | noDirectory
  | schema (fault : Fault)

def schemaFile (version : String) : String := "schema-" ++ version ++ ".json"

def schemaVersion? (file : String) : Option String :=
  let cs := file.toList
  let version := String.ofList ((cs.drop 7).take (cs.length - 12))
  if file == schemaFile version then some version else none

def loadCatalog (files : SettingsFiles) : Except CatalogFault Language.Catalog := do
  let some files := files | throw .noDirectory
  let missing := Language.publishedCatalog.filter fun p => !files.any (·.1 == schemaFile p.1)
  let own ← files.filterMapM fun (file, n) =>
    match schemaVersion? file with
    | none => pure none
    | some v =>
      match Language.ofSchema (Schema.ofNode n) with
      | .ok (l, _) => pure (some (v, l))
      | .error f => throw (.schema f)
  pure (own ++ missing)

inductive Startup where
  | refused
  | failed (fault : CatalogFault)
  | standardStreams (catalog : Language.Catalog)
  | listening (port : Int) (catalog : Language.Catalog)
  | nothing

def listenHost : String := "0.0.0.0"

namespace Startup

def of (words : List String) (files : SettingsFiles) : Startup :=
  match CommandLine.read? words with
  | none => .refused
  | some c =>
    match loadCatalog files with
    | .error f => .failed f
    | .ok catalog =>
      if c.mode == "stdio" then .standardStreams catalog
      else if c.mode == "tcp" then .listening c.port catalog
      else .nothing

end Startup
end CwlService.Settings

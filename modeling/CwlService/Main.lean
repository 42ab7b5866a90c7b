import CwlService.Server.Handle
import CwlService.Settings.Startup

/-! # The command

Files are read before a message is served and written after it. -/
namespace CwlService.Command

/-! ## Files -/

def onDisk (p : Path) := (do return (← IO.currentDir) / p.text : IO _)

def searchDepth : Nat := 4

/-- The files and directories below a directory. Hidden ones are left out. -/
def gather : Nat → Path → IO (List (List String × Option String))
  | 0, _ => pure []
  | depth + 1, dir => do
    try
      let entries ← (← onDisk dir).readDir
      let found ← entries.toList.mapM fun e => do
        let p : Path := ⟨dir.root, dir.names ++ [e.fileName]⟩
        if e.fileName.startsWith "." then pure []
        else if ← e.path.isDir then return (p.names, none) :: (← gather depth p)
        else
          try
            let text ← IO.FS.readFile e.path
            pure [(p.names, some text)]
          catch _ => pure []
      pure found.flatten
    catch _ => pure []

def workspace (scratch : Path) : IO Workspace := do
  let cwd := Path.ofText (← IO.currentDir).toString
  let files ← gather searchDepth cwd
  let own ← gather searchDepth scratch
  pure { files := files ++ own, replies := [], cwd, scratch }

def save (before after : Workspace) : IO Unit := do
  for (names, text) in after.files do
    match text with
    | none => pure ()
    | some text =>
      if (before.files.lookup names).join != some text then
        let p : Path := ⟨"/", names⟩
        IO.FS.createDirAll p.parent.text
        IO.FS.writeFile p.text text

/-! ## Settings -/

/-- A directory of the user, given by the environment or else below the home. -/
def userDirectory (name : String) (home : Path) (below : List String) : IO Path := do
  match ← IO.getEnv name with
  | some p => pure (Path.ofText p)
  | none => pure ⟨home.root, home.names ++ below⟩

def homes : IO Settings.Homes := do
  let home := Path.ofText ((← IO.getEnv "HOME").getD "/")
  let config ← userDirectory "XDG_CONFIG_HOME" home [".config"]
  let data ← userDirectory "XDG_DATA_HOME" home [".local", "share"]
  pure { config, data, home }

def settingsFiles (dir : Path) : IO Settings.SettingsFiles := do
  let place ← onDisk dir
  if !(← place.isDir) then return none
  let files ← gather 1 dir
  pure (some (files.filterMap fun f =>
    (f.2.bind Json.read?).map fun n => (f.1.getLast?.getD "", n)))

def beginLog (dir : Path) : IO Path := do
  let file (n : Nat) : Path := ⟨dir.root, dir.names ++ [Settings.LogFiles.name n]⟩
  if ← (← onDisk (file 0)).pathExists then
    for n in (List.range Settings.keptLogs).reverse do
      if ← (← onDisk (file n)).pathExists then
        IO.FS.rename (file n).text (file (n + 1)).text
  IO.FS.writeFile (file 0).text ""
  pure (file 0)

/-! ## Messages -/

partial def readLine (input : IO.FS.Stream) (line : List UInt8) : IO (List UInt8) := do
  match (← input.read 1).toList with
  | [] => pure line.reverse
  | b :: _ => if b == 10 then pure (b :: line).reverse else readLine input (b :: line)

partial def readBody (input : IO.FS.Stream) (length : Option Nat) (body : List UInt8) :
    IO (List UInt8) := do
  if length.any (· ≤ body.length) then pure body
  else
    let wanted := (length.map (· - body.length)).getD 4096
    match (← input.read wanted.toUSize).toList with
    | [] => pure body
    | more => readBody input length (body ++ more)

partial def readHeader (input : IO.FS.Stream) (read : List UInt8) : IO (List UInt8) := do
  let line ← readLine input []
  if line.isEmpty || line == Text.bytes Rpc.lineEnd then pure (read ++ line)
  else readHeader input (read ++ line)

def readFrame (input : IO.FS.Stream) : IO (List UInt8) := do
  let first ← readLine input []
  match (Text.ofBytes? first).map Rpc.contentLength? with
  | some (.ok length) =>
    let header ← if first == Text.bytes Rpc.lineEnd then pure first else readHeader input first
    let body ← readBody input ((length.filter (0 ≤ ·)).map Int.toNat) []
    pure (header ++ body)
  | _ => pure first

def levelName : LogLevel → String
  | .warning => "WARNING"
  | .error => "ERROR"

def logLine : Event → String
  | .log e => "[" ++ levelName e.level ++ "] " ++ e.message ++ "\n"
  | .unexpected (.link (.frame f)) => "[ERROR] Unexpected error: " ++ f.message ++ "\n"
  | .unexpected _ => "[ERROR] Unexpected error\n"

partial def serve (log : Path) (input output : IO.FS.Stream) (server : Server) : IO Unit := do
  let bytes ← readFrame input
  if bytes.isEmpty then return
  let before ← workspace server.site.workspace.scratch
  let s := Server.run { stream := bytes } { server with site.workspace := before }
  save before s.server.site.workspace
  for m in s.sent do
    output.putStr (Rpc.frame ((Json.text? m).getD ""))
  output.flush
  let handle ← IO.FS.Handle.mk log.text .append
  for e in s.events do
    handle.putStr (logLine e)
  if s.server.running then serve log input output s.server

end CwlService.Command

open CwlService Command in
def main (words : List String) : IO UInt32 := do
  let h ← homes
  IO.FS.createDirAll h.logs.text
  IO.FS.createDirAll h.scratch.text
  let log ← beginLog h.logs
  match Settings.Startup.of words (← settingsFiles h.settings) with
  | .refused =>
    IO.eprintln "usage: [-h] [--mode MODE] [--addr ADDR] [--debug]"
    return 2
  | .failed _ =>
    IO.eprintln "The language schemas cannot be loaded."
    return 1
  | .nothing => return 0
  | .listening .. =>
    IO.eprintln ("Nothing listens on " ++ Settings.listenHost ++ " here: use --mode stdio.")
    return 1
  | .standardStreams catalog =>
    let w ← workspace h.scratch
    let site : Site := { workspace := w, draws := ← IO.monoMsNow }
    serve log (← IO.getStdin) (← IO.getStdout) { site, catalog }
    return 0

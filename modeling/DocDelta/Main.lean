import DocDelta.Command.Run

/-! The command line program.

It looks up the files that the words of its command line name, runs the command on them, and
then writes what the run wrote and prints what it printed. -/
namespace DocDelta.Command

/-- Nanoseconds since the epoch. -/
def nanoseconds (t : IO.FS.SystemTime) : Int := t.sec * 1000000000 + t.nsec.toNat

/-- The text of a settings file, if it is there. -/
def settingsIn (place : String) : IO (List (Except Fault String)) := do
  try
    let bytes ← IO.FS.readBinFile (place ++ "/" ++ Settings.fileName)
    return [(Content.bytes bytes.toList).readText]
  catch _ => return []

/-- The settings files outside the current folder, in rising priority. -/
def outerSettings : IO (List (Except Fault String)) := do
  let home := (← IO.getEnv "HOME").getD ""
  let own := (← IO.getEnv "JUPYTER_CONFIG_DIR").getD (home ++ "/.jupyter")
  let shared := ((← IO.getEnv "JUPYTER_CONFIG_PATH").getD "").splitOn ":"
  let mut found ← settingsIn own
  for place in (shared.filter (· ≠ "")).reverse do
    found := found ++ (← settingsIn place)
  return found

/-- Adds what is found at a path to a folder. -/
def lookUp (d : Folder) (s : String) : IO Folder := do
  let path := (← IO.currentDir) / s
  if ← path.isDir then return { d with folders := d.folders ++ [.ofText s] }
  else
    try
      let modified := nanoseconds (← path.metadata).modified
      let content ← if s = Path.nullDevice then pure ByteArray.empty else IO.FS.readBinFile path
      return d.put (.ofText s) ⟨.bytes content.toList, modified⟩
    catch _ => return d

/-- The paths a word may name: itself, what stands behind its equals sign, and the folders
they are in. -/
def pathsOf (word : String) : List String :=
  let (lead, attached) := cutAtEquals word.toList
  let names := lead :: word :: match attached with
    | .equals value => [String.ofList value]
    | _ => []
  names.flatMap fun s => [s, "/".intercalate (s.splitOn "/").dropLast]

/-- The part of the current folder that a command line can reach. -/
def reachable (words : List String) : IO Folder := do
  let mut d := Folder.empty
  for s in Settings.fileName :: words.flatMap pathsOf do
    if s ≠ "" then d ← lookUp d s
  return d

/-- The name of a path. -/
def nameOf (p : Path) : String := (if p.absolute then "/" else "") ++ "/".intercalate p.names

def writeBack (p : Path) (f : File) : IO Unit :=
  match f.content with
  | .text s => IO.FS.writeFile (nameOf p) s
  | .bytes bs => IO.FS.writeBinFile (nameOf p) bs.toByteArray

/-- Runs a command line in the current folder and gives the exit status. -/
def runHere (words : List String) : IO UInt32 := do
  let before ← reachable words
  let (exit, console) := runWith (dispatch words) (.start before (← outerSettings) 0)
  for (p, f) in console.folder.changedSince before do writeBack p f
  IO.print console.out
  IO.eprint console.err
  for m in console.log do IO.eprintln ("[" ++ (m.level.name.take 1).toString ++ "] " ++ m.text)
  match exit with
  | .status n | .quit n => return n.toUInt32
  | .message s =>
    IO.eprintln s
    return 1
  | .fault f =>
    IO.eprintln ((f.message? Heap.empty).getD "the command failed")
    return 1

end DocDelta.Command

def main (words : List String) : IO UInt32 := DocDelta.Command.runHere words

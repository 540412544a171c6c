import CilEdit.Command.Run

namespace CilEdit.Main

open Command

/-- The paths that a run may read: the target and the reference modules beside it. -/
def wanted (arguments : List String) : List String :=
  match Request.ofArguments arguments with
  | .run { path := some path, .. } =>
    path :: PatchSet.referenceNames.map (Path.below (Path.folder here path))
  | _ => []

/-- The contents of an open file; a directory can be opened but has none. -/
def contents (handle : IO.FS.Handle) : IO Entry := do
  try
    return .file (← handle.readBinToEnd).toList
  catch _ => return .directory

def look (path : String) : IO (Option Entry) := do
  try
    let handle ← IO.FS.Handle.mk path .read
    return some (← contents handle)
  catch _ => return none

def load (paths : List String) : IO Directory :=
  (paths.flatMap Path.ways).eraseDups.foldlM (fun (d : Directory) (path : String) => do
    return ((← look path).bind (d.add? path)).getD d) .empty

/-- Replaces a file by way of a second one beside it. -/
def replaceFile (path : String) (data : Bytes) : IO Unit := do
  let staged := path ++ ".tmp"
  IO.FS.writeBinFile staged ⟨data.toArray⟩
  IO.FS.rename staged path

def store (paths : List String) (old new : Directory) : IO Unit :=
  paths.forM fun path =>
    match new.find? path with
    | some (.file data) =>
      unless old.find? path == some (.file data) do replaceFile path data
    | _ => pure ()

end CilEdit.Main

def main (arguments : List String) : IO UInt32 := do
  let paths := CilEdit.Main.wanted arguments
  let d ← CilEdit.Main.load paths
  let result := CilEdit.Command.run d arguments
  CilEdit.Main.store paths d result.directory
  result.output.forM fun line => IO.println line
  result.failure.forM fun line => IO.eprintln line
  return UInt32.ofNat result.exitCode

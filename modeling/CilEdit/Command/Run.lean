import CilEdit.Command.Arguments
import CilEdit.Session.Basic
import CilEdit.Text.Json
import CilEdit.Text.Table

namespace CilEdit.Command

open Text (Json Table)

structure Result where
  exitCode : Nat
  output : List String
  failure : Option String
  directory : Directory
  deriving DecidableEq, Repr

def usageHint : String :=
  "Pass the path of the game's 'Assembly-CSharp.dll' module image (CILM, not PE) "
    ++ "as the first argument."

def versionLine : String := "ilpatch 0.1.0"

def helpLine : String :=
  "Usage: ilpatch [--json] [-v|--verbose] [--dry-run] [FILE] | --list | --version"

def successLine : String :=
  "Success! Don't forget to run patcher again when game updates."

def chain : Error → String
  | .patchFailed patch source => (Error.patchFailed patch source).message ++ ": " ++ chain source
  | e => e.message

def listTable (s : PatchSet) : Table where
  columns := [("Patch", .left), ("Description", .left)]
  rows := s.patches.map fun p => [p.name, p.description]

def listJson (s : PatchSet) : Json :=
  .array (s.patches.map fun p =>
    .object [("name", .string p.name), ("description", .string p.description)])

def reportTable (r : Report) : Table where
  columns := [("Patch", .left), ("Method", .left), ("Replaced", .right), ("Inserted", .right)]
  rows := r.outcomes.map fun o => [o.name, o.method, toString o.replaced, toString o.inserted]

def reportJson (r : Report) : Json :=
  .object [
    ("target", .string r.target),
    ("module", .string r.module),
    ("sha1_before", .string r.before),
    ("sha1_after", .string r.after),
    ("written", .bool r.written),
    ("patches", .array (r.outcomes.map fun o =>
      .object [
        ("name", .string o.name),
        ("method", .string o.method),
        ("replaced", .number o.replaced),
        ("inserted", .number o.inserted)]))]

def reportLines (r : Report) : List String :=
  s!"{r.target} ({r.module})" :: (reportTable r).lines.map ("  " ++ ·)
    ++ [s!"  sha1 {r.before} -> {r.after}",
      if r.written then successLine else s!"Dry run complete, {r.target} left unchanged."]

/-- The last line on standard error; a path in the text can hold line breaks. -/
def Result.lastLine (r : Result) : Option String :=
  r.failure.map fun text => ((text.splitOn "\n").getLast?).getD ""

def Result.of (d : Directory) (exitCode : Nat) (output : List String) (failure : Option String) :
    Result :=
  ⟨exitCode, output, failure, d⟩

def context {σ α : Type} (doing : String) (step : Step Error σ α) : Step String σ α :=
  step.mapError fun e => doing ++ ": " ++ chain e

def here : String := "./"

def checkFile (path : String) (d : Directory) : Except String Unit :=
  if d.isFile path then .ok () else .error "Invalid file provided."

/-- Opens the file at a path and applies the built-in patches in memory. -/
def prepare (path : String) : Step String Directory Session := do
  Step.read (checkFile path)
  let set ← Step.ofExcept (PatchSet.builtin.mapError chain)
  let session ← context s!"Error opening '{path}'"
    (Step.read fun d => Session.start 0 d here path PatchSet.referenceNames)
  let (outcomes, session) := session.apply set
  let _ ← context "Patching error" (Step.ofExcept outcomes)
  return session

def patch (path : String) (dryRun : Bool) : Step String Directory Report := do
  let session ← prepare path
  if dryRun then
    context "Patching error" (Step.ofExcept session.dryRun)
  else
    context s!"Unable to save patched game assembly to {path}" session.commit

def execute (d : Directory) (a : Arguments) : Result :=
  let printed (json : Json) (table : List String) : List String :=
    if a.json then [json.render 0] else table
  if a.list then
    match PatchSet.builtin with
    | .ok set => .of d 0 (printed (listJson set) (listTable set).lines) none
    | .error e => .of d 1 [] (some (chain e))
  else
    match a.path with
    | none => .of d 1 [] (some usageHint)
    | some path =>
      match patch path a.dryRun d with
      | (.ok report, d) => .of d 0 (printed (reportJson report) (reportLines report)) none
      | (.error e, d) => .of d 1 [] (some e)

def run (d : Directory) (arguments : List String) : Result :=
  match Request.ofArguments arguments with
  | .version => .of d 0 [versionLine] none
  | .help => .of d 0 [helpLine] none
  | .invalid => .of d 2 [] none
  | .run a => execute d a

end CilEdit.Command

import CilEdit.Bytes.Sha1
import CilEdit.Patch.Set
import CilEdit.Session.Directory

namespace CilEdit

/-- One run against one file, which stays as it is until `commit`. -/
structure Session where
  target : String
  module : Module
  references : References
  before : String
  /-- The outcomes of all patch sets that were applied without failure. -/
  outcomes : List Outcome
  deriving DecidableEq, Repr

structure Report where
  target : String
  module : String
  outcomes : List Outcome
  before : String
  after : String
  written : Bool
  deriving DecidableEq, Repr

namespace Session

/-- Opens a target. The reference modules lie beside it; `here` is the front of their paths when
the target's path names no folder. -/
def start (origin : Nat) (d : Directory) (here target : String) (references : List String) :
    Except Error Session := do
  if !d.isFile target then throw (.fileNotFound target)
  let data ← d.read target
  let module ← Image.read origin data
  let references ← References.open (origin + 1) d (Path.folder here target) references
  return { target, module, references, before := Sha1.hex data, outcomes := [] }

/-- Applies a patch set. A failure keeps what was done to the module and adds no outcome. -/
def apply (s : Session) (set : PatchSet) : Except Error (List Outcome) × Session :=
  match set.apply s.references s.module with
  | (.ok outcomes, m) =>
    let s := { s with module := m, outcomes := s.outcomes ++ outcomes }
    (.ok s.outcomes, s)
  | (.error e, m) => (.error e, { s with module := m })

def report (s : Session) (stored : Bytes) (written : Bool) : Report :=
  ⟨s.target, s.module.name, s.outcomes, s.before, Sha1.hex stored, written⟩

def commit (s : Session) : Step Error Directory Report := do
  let stored ← Step.ofExcept s.module.toBytes
  Directory.write s.target stored
  return s.report stored true

/-- The report that a commit would give, without writing. -/
def dryRun (s : Session) : Except Error Report := do
  return s.report (← s.module.toBytes) false

end Session

end CilEdit

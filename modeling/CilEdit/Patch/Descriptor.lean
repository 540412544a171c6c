import CilEdit.Body.Edit
import CilEdit.Body.Lookup
import CilEdit.Metadata.ModuleStep
import CilEdit.Patch.Outcome

/-!
Declarative patches.

A descriptor lists the sites of one method that it inspects, each with the shape that it expects
and with what it does there. All sites are checked before anything is changed, and every mismatch
is reported at once.
-/

namespace CilEdit

inductive SiteAction
  | check
  | replace (operand : Operand Handle)
  deriving DecidableEq, Repr

structure Site where
  locator : Locator
  expect : Pattern
  action : SiteAction
  deriving DecidableEq, Repr

namespace Site

def replacement? (s : Site) : Option (Operand Handle) :=
  match s.action with
  | .check => none
  | .replace operand => some operand

def holdsReplacement (s : Site) (i : Instruction Handle) : Bool :=
  match s.replacement? with
  | some operand =>
    operand.fits s.expect.opcode && i.opcode == s.expect.opcode && i.operand == operand
  | none => false

end Site

structure Descriptor where
  name : String
  description : String
  typeName : String
  methodName : String
  sites : List Site
  deriving DecidableEq, Repr

namespace Descriptor

def method (d : Descriptor) : String :=
  qualifiedName d.typeName d.methodName

def replacementFault? (s : Site) : Option Misuse :=
  match s.replacement? with
  | none => none
  | some operand =>
    if !operand.targets.isEmpty then some (.branchOperand s.locator)
    else if !operand.fits s.expect.opcode then
      some (.operandMismatch s.locator s.expect.opcode s.expect.opcode.operand)
    else none

def siteFault? (seen : List Locator) : List Site → Option Misuse
  | [] => none
  | s :: rest =>
    if s.locator ∈ seen then some (.listedTwice s.locator)
    else
      match replacementFault? s with
      | some fault => some fault
      | none => siteFault? (s.locator :: seen) rest

/-- Fails unless the descriptor has sites, no two at one place, and every replacement fits the
expected opcode and is not a branch. -/
def validate (d : Descriptor) : Except Error Unit :=
  let fault := if d.sites.isEmpty then some .noSites else siteFault? [] d.sites
  match fault with
  | some cause => .error (.invalidDescriptor d.name cause)
  | none => .ok ()

def offsets (d : Descriptor) : List Nat :=
  d.sites.filterMap fun s =>
    match s.locator with
    | .offset n => some n
    | .index _ => none

def locate (d : Descriptor) (b : Body) : Except Error (List (Option Handle)) :=
  if !d.offsets.isEmpty ∧ b.shifted then .error .staleOffsets
  else
    let sorted := d.offsets.mergeSort
    let found := sorted.zip (b.scan sorted)
    .ok (d.sites.map fun s =>
      match s.locator with
      | .offset n => (found.lookup n).join
      | .index n => b.at? n)

inductive Finding
  | matched (handle : Handle)
  /-- Something else; `applied` tells whether it is what the site would leave behind. -/
  | drifted (drift : Drift) (applied : Bool)
  deriving DecidableEq, Repr

def inspect (b : Body) (s : Site) (located : Option Handle) : Except Error Finding :=
  match located with
  | none =>
    .ok (.drifted ((Drift.between s.expect.describe "no instruction").locate s.locator) false)
  | some h => do
    let i ← b.instruction h
    match s.expect.drift? i with
    | none => return .matched h
    | some drift =>
      let drift := match s.locator with
        | .index _ => drift.locate s.locator
        | .offset _ => drift
      return .drifted drift (s.holdsReplacement i)

def findings (d : Descriptor) (b : Body) : Except Error (List Finding) := do
  let located ← d.locate b
  (d.sites.zip located).mapM fun (s, h) => inspect b s h

def matched (findings : List Finding) : List Handle :=
  findings.filterMap fun
    | .matched h => some h
    | .drifted .. => none

def drifts (findings : List Finding) : List Drift :=
  findings.filterMap fun
    | .matched _ => none
    | .drifted d _ => some d

def appliedCount (findings : List Finding) : Nat :=
  findings.countP fun
    | .matched _ => false
    | .drifted _ applied => applied

def replaceCount (d : Descriptor) : Nat :=
  d.sites.countP fun s => s.replacement?.isSome

/-- The handles of the sites if all match. The patch counts as applied if exactly the sites that
change their operand mismatch, and each holds its replacement. -/
def resolve (d : Descriptor) (b : Body) : Except Error (List Handle) := do
  let findings ← d.findings b
  let drifts := drifts findings
  if drifts.isEmpty then return matched findings
  let applied := appliedCount findings
  if applied = drifts.length ∧ applied = d.replaceCount then throw (.alreadyApplied d.name)
  throw (.incompletePatch d.method (matched findings).length d.sites.length drifts)

def edits (d : Descriptor) (handles : List Handle) :
    Except Error (List (Site × Handle × Instruction Handle)) :=
  ((d.sites.zip handles).filterMap fun (s, h) =>
    s.replacement?.map fun operand => (s, h, operand)).mapM fun (s, h, operand) =>
      (Instruction.make s.expect.opcode operand).map fun i => (s, h, i)

end Descriptor

def Module.patchedBody (m : Module) (typeName methodName : String) :
    Except Error (Module.MethodPlace × Body) := do
  let place ← m.placeMethod typeName ⟨methodName, none⟩
  match (m.methodAt? place).bind MethodDef.body with
  | some b => return (place, b)
  | none =>
    throw (.versionDrift (qualifiedName typeName methodName) [.between "method body" "none"])

namespace Descriptor

def plan (d : Descriptor) (m : Module) :
    Except Error (Module.MethodPlace × Body × List (Site × Handle × Instruction Handle)) := do
  d.validate
  let (place, b) ← m.patchedBody d.typeName d.methodName
  let handles ← d.resolve b
  return (place, b, ← d.edits handles)

/-- Carries out replacements one by one; stops at the first that fails and keeps those before. -/
def replaceAll : List (Site × Handle × Instruction Handle) → Step Error Body Unit
  | [] => return
  | (_, h, i) :: rest => do
    Body.replace h i
    replaceAll rest

def apply (d : Descriptor) : ModuleStep Outcome := do
  let (place, b, edits) ← Step.read d.plan
  ModuleStep.editBody place b (replaceAll edits)
  return ⟨d.name, d.method, edits.length, 0⟩

end Descriptor

end CilEdit

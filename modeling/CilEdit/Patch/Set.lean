import CilEdit.Patch.Dialogue
import CilEdit.Patch.Transitions

namespace CilEdit

/-- A named procedure that validates a module and then changes it. -/
inductive Patch
  | sites (descriptor : Descriptor)
  | dialogue
  | procedure (name description : String) (apply : References → ModuleStep Outcome)

namespace Patch

def noDescription : String := "No description available"

def name : Patch → String
  | .sites d => d.name
  | .dialogue => Dialogue.name
  | .procedure name _ _ => name

def description : Patch → String
  | .sites d => if d.description.isEmpty then noDescription else d.description
  | .dialogue => Dialogue.description
  | .procedure _ description _ => description

def apply (p : Patch) (references : References) : ModuleStep Outcome :=
  match p with
  | .sites d => d.apply
  | .dialogue => Dialogue.apply references
  | .procedure _ _ apply => apply references

end Patch

structure PatchSet where
  patches : List Patch

namespace PatchSet

def empty : PatchSet := ⟨[]⟩

/-- Appends a patch, whose name must be new. -/
def push (s : PatchSet) (p : Patch) : Except Error PatchSet :=
  if s.patches.any fun q => q.name == p.name then
    .error (.invalidDescriptor p.name .duplicateName)
  else .ok ⟨s.patches ++ [p]⟩

def ofList (patches : List Patch) : Except Error PatchSet :=
  patches.foldlM push .empty

def names (s : PatchSet) : List String :=
  s.patches.map Patch.name

def describe (s : PatchSet) : String :=
  "[" ++ ", ".intercalate (s.names.map fun n => "\"" ++ n ++ "\"") ++ "]"

/-- Applies patches in order and stops at the first that fails; `done` are the outcomes so far. -/
def applyAll (references : References) (done : List Outcome) :
    List Patch → ModuleStep (List Outcome)
  | [] => return done
  | p :: rest => do
    let outcome ← (p.apply references).mapError (.patchFailed p.name)
    applyAll references (done ++ [outcome]) rest

/-- Applies every patch. Nothing is taken back when one fails. -/
def apply (s : PatchSet) (references : References) : ModuleStep (List Outcome) :=
  applyAll references [] s.patches

def referenceNames : List String :=
  ["mscorlib.dll", "UnityEngine.dll", "UnityEngine.UI.dll"]

def builtin : Except Error PatchSet := do
  Transitions.descriptor.validate
  ofList [.sites Transitions.descriptor, .dialogue]

end PatchSet

end CilEdit

import CilEdit.Patch.Outcome
import CilEdit.Patch.Pattern

namespace CilEdit

inductive Note.Level
  | debug | info | warn
  deriving DecidableEq, Repr

/-- What the library notes down while it works. -/
inductive Note
  -- coding
  | unsupportedVersion (version : Nat)
  | encodingBody (typeName methodName : String)
  | widening (short : Opcode) (position : Nat) (long : Opcode)
  | assumedEffect (opcode : Opcode)
  | stackUnderflow (position : Nat) (opcode : Opcode) (depth pops : Nat)
  | encoded (instructions bytes : Nat) (declared stored : UInt16)
  -- editing
  | replacing (old new : Instruction Handle)
  | removing (instruction : Instruction Handle)
  | splicing (count : Nat) (anchor : Instruction Handle)
  -- importing
  | importedType (scope name : String) (token : Token)
  | importedMember (name : String) (token : Token)
  -- patching
  | patchingSite (site : Locator) (expect : Pattern) (new : Instruction Handle)
  | partlyApplied (patch : String) (applied total : Nat)
  | insertedSkipBlock (first : Handle)
  | applyingPatch (name description : String)
  | appliedPatch (outcome : Outcome)
  deriving Repr

namespace Note

def level : Note → Level
  | .assumedEffect _ | .stackUnderflow .. | .partlyApplied .. => .warn
  | .applyingPatch .. | .appliedPatch _ => .info
  | _ => .debug

def message : Note → String
  | .unsupportedVersion version => s!"Unsupported module image version {version}"
  | .encodingBody typeName methodName => s!"Encoding edited body of {typeName}::{methodName}"
  | .widening short position long =>
    s!"Widening {short.mnemonic} at #{position} to {long.mnemonic}"
  | .assumedEffect opcode => s!"Assuming a stack effect of -1/+1 for {opcode.mnemonic}"
  | .stackUnderflow position opcode depth pops =>
    s!"Stack underflow at #{position} ({opcode.mnemonic}): depth {depth}, pops {pops}"
  | .encoded instructions bytes declared stored =>
    s!"Encoded {instructions} instructions into {bytes} bytes "
      ++ s!"(max stack {declared.toNat} -> {stored.toNat})"
  | .replacing old new => s!"Replacing {old.text} with {new.describe}"
  | .removing instruction => s!"Removing {instruction.text}"
  | .splicing count anchor => s!"Splicing {count} instruction(s) after {anchor.text}"
  | .importedType scope name token => s!"Imported type [{scope}]{name} as {token.text}"
  | .importedMember name token => s!"Imported member {name} as {token.text}"
  | .patchingSite site expect new => s!"{site.text}: {expect.describe} -> {new.describe}"
  | .partlyApplied patch applied total =>
    s!"{patch}: {applied} of {total} sites already hold the patched value"
  | .insertedSkipBlock first => s!"Inserted skip block at {first.text}"
  | .applyingPatch name description => s!"Applying patch \x60{name}\x60: {description}"
  | .appliedPatch outcome => s!"Applied {outcome.text}"

def Level.name : Level → String
  | .debug => "DEBUG"
  | .info => "INFO"
  | .warn => "WARN"

def line (n : Note) : String :=
  n.level.name ++ " " ++ n.message

end Note

/-- Entries in the order in which they are made. -/
abbrev Journal := List Note

end CilEdit

import CilEdit.Code.Opcode
import CilEdit.Drift
import CilEdit.Metadata.Token
import CilEdit.Text.Utf8

namespace CilEdit

open Text (Hex.marked Hex.marked64)

inductive Malformed
  | emptyBuffer
  | emptyFile (path : String)
  -- numbers and strings
  | integerOverflow (bits : Nat)
  | invalidText (start stop : Nat) (fault : Text.Utf8.Fault)
  | textTooLong (length : Nat)
  -- headers and sections
  | emptyBody
  | unknownHeader (first : Nat)
  | shortFatHeader (size : Nat)
  | unsupportedSection (flags : Nat)
  | fatSectionSize (size : Nat)
  | smallSectionSize (size : Nat)
  | tooManyClauses (count : Nat)
  | codeTooLarge (size : Nat)
  -- instructions
  | invalidOpcode (value offset : Nat)
  | switchCount (offset count : Nat)
  | branchTarget (offset : Nat) (target : Int)
  | handlerBoundary (offset : Nat)
  | handlerOverflow
  -- encoding
  | noLongForm (opcode : Opcode)
  | instructionTooLarge (position : Nat)
  | layoutTooLarge
  | shortBranchRange (position : Nat)
  | branchRange (position : Nat)
  | switchTooLarge (position : Nat)
  | switchRange (position : Nat)
  | handlerInverted
  | callWithoutToken (opcode : Opcode)
  | stackTooDeep (depth : Nat)
  -- images
  | memberParent (parent : Token)
  | memberKind (kind : Nat)
  | trailingBytes (count : Nat)
  | tableCount (count remaining : Nat)
  | tableTooLarge (count : Nat)
  | invalidRow (row table : Nat)
  | signatureFlag (flag : Nat)
  | signatureCount (count : Nat)
  | signatureTooLarge
  deriving DecidableEq, Repr

def Malformed.message : Malformed → String
  | .emptyBuffer => "Provided memory buffer is empty"
  | .emptyFile path => s!"File is empty - {path}"
  | .integerOverflow bits =>
    s!"7-bit encoded integer overflow: value exceeds u32 capacity after {bits} bits"
  | .invalidText start stop fault =>
    s!"Invalid UTF-8 string at offset {start}-{stop}: {fault.message}"
  | .textTooLong length => s!"String of {length} bytes is too long"
  | .emptyBody => "Provided data for body parsing is empty"
  | .unknownHeader first => s!"MethodHeader is neither FAT nor TINY - {first}"
  | .shortFatHeader size => s!"Fat method header declares {size} bytes"
  | .unsupportedSection flags =>
    s!"Unsupported method data section kind - {Hex.marked 1 flags}"
  | .fatSectionSize size => s!"Invalid fat section size - {size}"
  | .smallSectionSize size => s!"Invalid small section size - {size}"
  | .tooManyClauses count => s!"Too many exception clauses to encode - {count}"
  | .codeTooLarge size => s!"Method code of {size} bytes is too large"
  | .invalidOpcode value offset =>
    s!"Invalid opcode {Hex.marked 4 value} at offset {Hex.marked 1 offset}"
  | .switchCount offset count =>
    s!"Switch at offset {Hex.marked 1 offset} declares {count} cases"
  | .branchTarget offset target =>
    s!"Branch at offset {Hex.marked 1 offset} targets {Hex.marked64 target}, "
      ++ "which is not an instruction"
  | .handlerBoundary offset =>
    s!"Exception handler boundary {Hex.marked 1 offset} is not an instruction"
  | .handlerOverflow => "Exception handler range overflows"
  | .noLongForm opcode => s!"{opcode.mnemonic} has no long form"
  | .instructionTooLarge position => s!"Instruction at #{position} is too large"
  | .layoutTooLarge => "Method code exceeds 4 GiB"
  | .shortBranchRange position => s!"Short branch at #{position} out of range"
  | .branchRange position => s!"Branch at #{position} out of range"
  | .switchTooLarge position => s!"Switch at #{position} is too large"
  | .switchRange position => s!"Switch case at #{position} out of range"
  | .handlerInverted => "Exception handler range ends before it starts"
  | .callWithoutToken opcode => s!"{opcode.mnemonic} without a method token"
  | .stackTooDeep depth => s!"Stack depth {depth} overflows"
  | .memberParent parent => s!"MemberRef parent {parent.text} is not a TypeRef of this module"
  | .memberKind kind => s!"Invalid MemberRef kind - {kind}"
  | .trailingBytes count => s!"{count} trailing bytes after module image"
  | .tableCount count remaining => s!"Table declares {count} rows with {remaining} bytes left"
  | .tableTooLarge count => s!"Table of {count} rows is too large"
  | .invalidRow row table => s!"Invalid or duplicate row {row} in table {Hex.marked 2 table}"
  | .signatureFlag flag => s!"Invalid signature flag - {flag}"
  | .signatureCount count => s!"Signature declares {count} parameters"
  | .signatureTooLarge => "Signature has too many parameters"

inductive Misuse
  | noSites
  | listedTwice (site : Locator)
  | branchOperand (site : Locator)
  | operandMismatch (site : Locator) (opcode : Opcode) (expected : OperandKind)
  | duplicateName
  | boundTwice (label : Nat)
  | emptySequence
  deriving DecidableEq, Repr

def operandMismatchText (opcode : Opcode) (expected : OperandKind) : String :=
  s!"Operand mismatch for {opcode.mnemonic}: expected {expected.name}"

def Misuse.message : Misuse → String
  | .noSites => "no sites"
  | .listedTwice site => s!"{site.text} is listed twice"
  | .branchOperand site => s!"{site.text}: branch operands cannot be replaced"
  | .operandMismatch site opcode expected =>
    s!"{site.text}: {operandMismatchText opcode expected}"
  | .duplicateName => "duplicate patch name"
  | .boundTwice label => s!"label {label} is bound twice"
  | .emptySequence => "nothing to splice"

inductive Error
  -- files
  | file
  | fileNotFound (path : String)
  | persist (path : String)
  -- data
  | malformed (cause : Malformed)
  | outOfBounds
  | notSupported
  -- symbols
  | typeNotFound (scope name : String)
  | methodNotFound (typeName name : String)
  | fieldNotFound (typeName name : String)
  | ambiguousSymbol (name : String)
  | unresolvedToken (token : Token)
  -- drift
  | versionDrift (context : String) (drifts : List Drift)
  | incompletePatch (method : String) (matched expected : Nat) (drifts : List Drift)
  | alreadyApplied (patch : String)
  -- misuse
  | staleOffsets
  | staleAnchor
  | foreignInstruction
  | unboundLabel (label : Nat)
  | foreignLabel (label : Nat)
  | danglingTarget
  | instructionInUse (referrers : Nat)
  | operandMismatch (opcode : Opcode) (expected : OperandKind)
  | invalidDescriptor (name : String) (cause : Misuse)
  | indexOutOfRange (index : Nat)
  | offsetNotFound (offset : Nat)
  -- runs
  | patchFailed (patch : String) (source : Error)
  deriving DecidableEq, Repr

namespace Error

def message : Error → String
  | .file => "I/O error"
  | .fileNotFound path => s!"File not found - {path}"
  | .persist path => s!"Unable to save patched module to {path}"
  | .malformed cause => s!"Malformed - {cause.message}"
  | .outOfBounds => "Out of Bound read would have occurred!"
  | .notSupported => "This file type is not supported"
  | .typeNotFound scope name => s!"Type \x60{name}\x60 not found in module \x60{scope}\x60"
  | .methodNotFound typeName name => s!"Method \x60{name}\x60 not found on \x60{typeName}\x60"
  | .fieldNotFound typeName name => s!"Field \x60{name}\x60 not found on \x60{typeName}\x60"
  | .ambiguousSymbol name => s!"Lookup for \x60{name}\x60 is ambiguous"
  | .unresolvedToken token => s!"Token {token.text} does not resolve in this module"
  | .versionDrift context drifts => s!"Version drift in {context}: {Drift.join drifts}"
  | .incompletePatch method matched expected drifts =>
    s!"Incomplete patch in {method}: {matched} of {expected} sites matched, "
      ++ s!"target likely updated ({Drift.join drifts})"
  | .alreadyApplied patch => s!"Patch \x60{patch}\x60 is already applied to this module"
  | .staleOffsets => "Offsets of this body are stale after a previous edit"
  | .staleAnchor => "Anchor instruction is no longer attached to the body"
  | .foreignInstruction => "Instruction handle belongs to another method body"
  | .unboundLabel label => s!"Label {label} was referenced but never bound"
  | .foreignLabel label => s!"Label {label} belongs to another sequence"
  | .danglingTarget => "Branch target is not attached to the body"
  | .instructionInUse referrers =>
    s!"Instruction is still referenced by {referrers} branch or handler operand(s)"
  | .operandMismatch opcode expected => operandMismatchText opcode expected
  | .invalidDescriptor name cause => s!"Invalid patch descriptor \x60{name}\x60: {cause.message}"
  | .indexOutOfRange index => s!"Instruction index {index} is out of range"
  | .offsetNotFound offset => s!"No instruction at offset {offsetLabel offset}"
  | .patchFailed patch source => s!"Patch \x60{patch}\x60 failed: {source.message}"

def kind : Error → String
  | .file => "FileError"
  | .fileNotFound _ => "FileNotFound"
  | .persist _ => "Persist"
  | .malformed _ => "Malformed"
  | .outOfBounds => "OutOfBounds"
  | .notSupported => "NotSupported"
  | .typeNotFound .. => "TypeNotFound"
  | .methodNotFound .. => "MethodNotFound"
  | .fieldNotFound .. => "FieldNotFound"
  | .ambiguousSymbol _ => "AmbiguousSymbol"
  | .unresolvedToken _ => "UnresolvedToken"
  | .versionDrift .. => "VersionDrift"
  | .incompletePatch .. => "IncompletePatch"
  | .alreadyApplied _ => "AlreadyApplied"
  | .staleOffsets => "StaleOffsets"
  | .staleAnchor => "StaleAnchor"
  | .foreignInstruction => "ForeignInstruction"
  | .unboundLabel _ => "UnboundLabel"
  | .foreignLabel _ => "ForeignLabel"
  | .danglingTarget => "DanglingTarget"
  | .instructionInUse _ => "InstructionInUse"
  | .operandMismatch .. => "OperandMismatch"
  | .invalidDescriptor .. => "InvalidDescriptor"
  | .indexOutOfRange _ => "IndexOutOfRange"
  | .offsetNotFound _ => "OffsetNotFound"
  | .patchFailed .. => "PatchFailed"

/-- Whether the target is not the build that a patch was written for, or carries it already. -/
def isDrift : Error → Bool
  | .versionDrift .. | .incompletePatch .. | .alreadyApplied _ => true
  | .patchFailed _ source => source.isDrift
  | _ => false

def ofDrift (d : Drift) : Error :=
  .versionDrift "instruction" [d]

def bad {α : Type} (cause : Malformed) : Except Error α :=
  .error (.malformed cause)

end Error

end CilEdit

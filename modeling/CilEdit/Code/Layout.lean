import CilEdit.Code.Instruction
import CilEdit.Method.Clause

/-!
Laying out code: byte offsets for a list of instructions whose targets are list positions.

Every instruction keeps its opcode, except that a short branch whose displacement does not fit a
signed byte takes its long form. Widening moves other instructions apart, so `settle` repeats it
until every short branch fits; each round leaves fewer short branches.
-/

namespace CilEdit

/-- Code and the byte offset of each position; the last offset, one past the last position, is the
size of the code. -/
structure Layout where
  code : List (Instruction Nat)
  offsets : Array Nat
  deriving Repr

namespace Layout

def runningOffsets (code : List (Instruction Nat)) : Array Nat :=
  (code.foldl (fun (offsets, total) i =>
    let total := total + i.size
    (offsets.push total, total)) (#[0], 0)).1

def ofCode (code : List (Instruction Nat)) : Layout :=
  ⟨code, runningOffsets code⟩

def offset (l : Layout) (position : Nat) : Nat :=
  l.offsets[position]?.getD 0

def size (l : Layout) : Nat :=
  l.offset l.code.length

def displacement (l : Layout) (position target : Nat) : Int :=
  l.offset target - l.offset (position + 1)

def fitsByte (displacement : Int) : Bool :=
  -128 ≤ displacement && displacement ≤ 127

def fitsWord (displacement : Int) : Bool :=
  -0x80000000 ≤ displacement && displacement ≤ 0x7FFFFFFF

def overflows (l : Layout) (position : Nat) (i : Instruction Nat) : Bool :=
  match i.opcode.operand, i.operand with
  | .shortTarget, .target t => !fitsByte (l.displacement position t)
  | _, _ => false

def lengthen (i : Instruction Nat) : Instruction Nat :=
  { i with opcode := i.opcode.long?.getD i.opcode }

/-- One round: every short branch that cannot reach its target in this layout is lengthened. -/
def widen (l : Layout) : List (Instruction Nat) :=
  l.code.mapIdx fun position i => if l.overflows position i then lengthen i else i

def shortCount (code : List (Instruction Nat)) : Nat :=
  code.countP fun i => i.opcode.operand == .shortTarget

/-- The layout in which no short branch can be lengthened any more. -/
def settle (code : List (Instruction Nat)) : Layout :=
  let l := ofCode code
  if shortCount l.widen < shortCount code then settle l.widen else l
termination_by shortCount code

def stuck? (l : Layout) : Option Opcode :=
  (l.code.zipIdx.find? fun (i, position) => l.overflows position i).map fun (i, _) => i.opcode

/-- What is too large about code that cannot be laid out. An instruction is blamed only if it does
not fit by itself and everything before it does. -/
def excess (code : List (Instruction Nat)) : Malformed :=
  match code.zipIdx.find? fun (_, p) => UInt32.size ≤ (ofCode code).offset (p + 1) with
  | some (i, p) => if UInt32.size ≤ i.size then .instructionTooLarge p else .layoutTooLarge
  | none => .layoutTooLarge

/-- The layout of a list of instructions. A short branch that is out of reach must have a long form,
and the code must stay below 4 GiB. -/
def make (code : List (Instruction Nat)) : Except Error Layout :=
  let l := settle code
  match l.stuck? with
  | some opcode => Error.bad (.noLongForm opcode)
  | none => if l.size < UInt32.size then .ok l else Error.bad (excess code)

def wordBytes (displacement : Int) (failure : Malformed) : Except Error Bytes :=
  if fitsWord displacement then .ok (Bytes.ofInt 4 displacement) else Error.bad failure

def operandBytes (l : Layout) (position : Nat) (i : Instruction Nat) : Except Error Bytes :=
  match i.operand with
  | .none => .ok []
  | .immediate v => .ok v.bytes
  | .token t => .ok (Bytes.ofNat 4 t.value.toNat)
  | .target t =>
    let d := l.displacement position t
    if i.opcode.operand = .shortTarget then
      if fitsByte d then .ok (Bytes.ofInt 1 d) else Error.bad (.shortBranchRange position)
    else wordBytes d (.branchRange position)
  | .switch ts =>
    if ts.length < UInt32.size then
      (ts.mapM fun t => wordBytes (l.displacement position t) (.switchRange position)).map
        fun cases => Bytes.ofNat 4 ts.length ++ cases.flatten
    else Error.bad (.switchTooLarge position)

def instructionBytes (l : Layout) (position : Nat) (i : Instruction Nat) : Except Error Bytes :=
  (l.operandBytes position i).map (i.opcode.bytes ++ ·)

def emit (l : Layout) : Except Error Bytes :=
  (l.code.zipIdx.mapM fun (i, position) => l.instructionBytes position i).map List.flatten

/-- Start and length of a region in bytes; an absent end is the end of the code. -/
def range (l : Layout) (start : Nat) (stop : Option Nat) : Except Error (UInt32 × UInt32) :=
  let first := l.offset start
  let last := l.offset (stop.getD l.code.length)
  if first ≤ last then .ok (UInt32.ofNat first, UInt32.ofNat (last - first))
  else Error.bad .handlerInverted

def clause (l : Layout) (h : Handler Nat) : Except Error Clause := do
  let (tryOffset, tryLength) ← l.range h.tryStart h.tryEnd
  let (handlerOffset, handlerLength) ← l.range h.handlerStart h.handlerEnd
  let classOrFilter :=
    match h.filterStart with
    | some filter =>
      if h.flags.isFilter then UInt32.ofNat (l.offset filter) else h.classToken.value
    | none => h.classToken.value
  return { flags := h.flags, tryOffset, tryLength, handlerOffset, handlerLength, classOrFilter }

end Layout

end CilEdit

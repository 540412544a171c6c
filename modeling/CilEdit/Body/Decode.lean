import CilEdit.Body.Basic
import CilEdit.Code.Stream
import CilEdit.Method.Header
import Std.Data.HashMap

namespace CilEdit.Body

def slotsByOffset (raws : List RawInstruction) : Std.HashMap Nat Nat :=
  .ofList (raws.zipIdx.map fun (raw, slot) => (raw.offset, slot))

def linkTarget (id : BodyId) (starts : Std.HashMap Nat Nat) (offset : Nat) (target : Int) :
    Except Error Handle :=
  let found := if target < 0 then none else starts[target.toNat]?
  match found with
  | some slot => .ok ⟨id, slot⟩
  | none => Error.bad (.branchTarget offset target)

def linkInstruction (id : BodyId) (starts : Std.HashMap Nat Nat) (raw : RawInstruction) :
    Except Error (Instruction Handle) :=
  (raw.operand.traverse (linkTarget id starts raw.offset)).map fun operand =>
    ⟨raw.opcode, operand, some raw.offset⟩

def linkStart (id : BodyId) (starts : Std.HashMap Nat Nat) (offset : UInt32) :
    Except Error Handle :=
  match starts[offset.toNat]? with
  | some slot => .ok ⟨id, slot⟩
  | none => Error.bad (.handlerBoundary offset.toNat)

/-- The end of a region, absent if it is the end of the code. -/
def linkEnd (id : BodyId) (starts : Std.HashMap Nat Nat) (codeSize : Nat)
    (offset length : UInt32) : Except Error (Option Handle) :=
  let stop := offset.toNat + length.toNat
  if UInt32.size ≤ stop then Error.bad .handlerOverflow
  else if stop = codeSize then .ok none
  else (linkStart id starts (UInt32.ofNat stop)).map some

def linkClause (id : BodyId) (starts : Std.HashMap Nat Nat) (codeSize : Nat) (c : Clause) :
    Except Error (Handler Handle) := do
  let tryStart ← linkStart id starts c.tryOffset
  let tryEnd ← linkEnd id starts codeSize c.tryOffset c.tryLength
  let handlerStart ← linkStart id starts c.handlerOffset
  let handlerEnd ← linkEnd id starts codeSize c.handlerOffset c.handlerLength
  if c.flags.isFilter then
    let filter ← linkStart id starts c.classOrFilter
    return ⟨c.flags, tryStart, tryEnd, handlerStart, handlerEnd, some filter, .null⟩
  return ⟨c.flags, tryStart, tryEnd, handlerStart, handlerEnd, none, ⟨c.classOrFilter⟩⟩

def decode (id : BodyId) (data : Bytes) : Except Error Body := do
  let header ← Header.parse data
  let code ← header.code data
  let raws ← Stream.decode code
  let starts := slotsByOffset raws
  let instructions ← raws.mapM (linkInstruction id starts)
  let handlers ← header.clauses.mapM (linkClause id starts code.length)
  return {
    toArena := .ofInstructions instructions
    id, handlers
    maxStack := header.maxStack
    locals := header.locals
    initLocals := header.initLocals
    shifted := false }

end CilEdit.Body

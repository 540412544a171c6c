import CilEdit.Body.Edit

namespace CilEdit

/-- A name for an instruction of a sequence that may still have to be emitted. -/
structure Label where
  sequence : Nat
  index : Nat
  deriving DecidableEq, Repr

inductive Destination
  | label (label : Label)
  | existing (handle : Handle)
  deriving DecidableEq, Repr

/-- Code that is assembled before it enters a body. Its instructions branch to each other through
labels, and to instructions that a body already has. Building never fails. -/
structure Sequence where
  id : Nat
  pending : Array (Opcode × Operand Destination)
  labels : Array (Option Nat)
  /-- The first misuse of a label. -/
  failure : Option Error
  deriving Repr

namespace Sequence

def empty (id : Nat) : Sequence :=
  ⟨id, #[], #[], none⟩

def length (s : Sequence) : Nat :=
  s.pending.size

def label (s : Sequence) : Label × Sequence :=
  (⟨s.id, s.labels.size⟩, { s with labels := s.labels.push none })

/-- Records a misuse, unless one is recorded already. -/
def fail (s : Sequence) (e : Error) : Sequence :=
  { s with failure := some (s.failure.getD e) }

def bind (s : Sequence) (l : Label) : Sequence :=
  if l.sequence ≠ s.id then s.fail (.foreignLabel l.index)
  else
    match s.labels[l.index]? with
    | some none => { s with labels := s.labels.setIfInBounds l.index (some s.pending.size) }
    | some (some _) => s.fail (.invalidDescriptor "sequence" (.boundTwice l.index))
    | none => s.fail (.unboundLabel l.index)

def emitTo (s : Sequence) (opcode : Opcode) (operand : Operand Destination) : Sequence :=
  { s with pending := s.pending.push (opcode, operand) }

def branch (s : Sequence) (opcode : Opcode) (destination : Destination) : Sequence :=
  s.emitTo opcode (.target destination)

def switch (s : Sequence) (cases : List Destination) : Sequence :=
  s.emitTo .switch (.switch cases)

def existing : Operand Handle → Operand Destination
  | .none => .none
  | .immediate v => .immediate v
  | .token t => .token t
  | .target h => .target (.existing h)
  | .switch hs => .switch (hs.map .existing)

def emit (s : Sequence) (opcode : Opcode) (operand : Operand Handle) : Sequence :=
  s.emitTo opcode (existing operand)

/-- The handle of a destination once the sequence has entered `b`. A label must belong to the
sequence and be bound before an instruction. -/
def resolveTarget (s : Sequence) (b : Body) : Destination → Except Error Handle
  | .label l =>
    if l.sequence ≠ s.id then .error (.foreignLabel l.index)
    else
      match s.labels[l.index]? with
      | some (some position) =>
        if position < s.pending.size then .ok (b.handle (b.slots.size + position))
        else .error (.unboundLabel l.index)
      | _ => .error (.unboundLabel l.index)
  | .existing h => (b.checkTarget h).map fun _ => h

def resolveInstruction (s : Sequence) (b : Body) (pending : Opcode × Operand Destination) :
    Except Error (Instruction Handle) := do
  let operand ← pending.2.traverse (s.resolveTarget b)
  Instruction.make pending.1 operand

def resolve (s : Sequence) (b : Body) : Except Error (List (Instruction Handle)) :=
  match s.failure with
  | some e => .error e
  | none => s.pending.toList.mapM (s.resolveInstruction b)

def toBody (s : Sequence) (id : BodyId) : Except Error Body := do
  let instructions ← s.resolve (.empty id)
  return { instructions.foldl Body.append (.empty id) with shifted := true }

end Sequence

structure Spliced where
  sequence : Nat
  first : Handle
  handles : List Handle
  labels : Array (Option Nat)
  deriving Repr

def Spliced.find? (s : Spliced) (l : Label) : Option Handle := do
  guard (l.sequence = s.sequence)
  let position ← (← s.labels[l.index]?)
  s.handles[position]?

def Sequence.checkFilled (s : Sequence) : Except Error Unit :=
  if s.pending.isEmpty then .error (.invalidDescriptor "sequence" .emptySequence) else .ok ()

def Body.splice (anchor : Handle) (s : Sequence) : Step Error Body Spliced := do
  Step.read (·.checkAttached anchor)
  let position ← Step.read (·.positionOf anchor)
  Step.ofExcept s.checkFilled
  let instructions ← Step.read s.resolve
  let first ← Step.read fun b => .ok b.next
  let handles ← Step.read fun b => .ok (b.nextHandles instructions.length)
  Step.modify (·.insertAfter position instructions)
  return ⟨s.id, first, handles, s.labels⟩

end CilEdit

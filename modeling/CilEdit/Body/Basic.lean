import CilEdit.Body.Arena
import CilEdit.Method.Clause

namespace CilEdit

/-- An editable method body. A slot that is not in the list belongs to a removed instruction. -/
structure Body extends Arena where
  id : BodyId
  maxStack : UInt16
  locals : Token
  initLocals : Bool
  handlers : List (Handler Handle)
  /-- An edit has moved instructions away from the offsets they were decoded from. -/
  shifted : Bool
  deriving DecidableEq, Repr

namespace Body

def empty (id : BodyId) : Body :=
  ⟨.empty, id, 0, .null, false, [], false⟩

def handle (b : Body) (slot : Nat) : Handle :=
  ⟨b.id, slot⟩

def next (b : Body) : Handle :=
  b.handle b.slots.size

def nextHandles (b : Body) (count : Nat) : List Handle :=
  (List.range' b.slots.size count).map b.handle

def length (b : Body) : Nat :=
  b.order.size

def handles (b : Body) : List Handle :=
  b.order.toList.map b.handle

def entries (b : Body) : List (Handle × Instruction Handle) :=
  b.order.toList.filterMap fun slot =>
    b.slots[slot]?.map fun s => (b.handle slot, s.instruction)

/-- Whether the body issued the handle, for an instruction of the list or one removed from it. -/
def owns (b : Body) (h : Handle) : Bool :=
  h.body == b.id && h.slot < b.slots.size

def contains (b : Body) (h : Handle) : Bool :=
  b.owns h && b.attached h.slot

def get? (b : Body) (h : Handle) : Option (Instruction Handle) :=
  if b.contains h then b.slots[h.slot]?.map Slot.instruction else none

def checkAttached (b : Body) (h : Handle) : Except Error Unit :=
  if !b.owns h then .error .foreignInstruction
  else if !b.attached h.slot then .error .staleAnchor
  else .ok ()

def instruction (b : Body) (h : Handle) : Except Error (Instruction Handle) :=
  match b.checkAttached h with
  | .error e => .error e
  | .ok () =>
    match b.slots[h.slot]? with
    | some s => .ok s.instruction
    | none => .error .foreignInstruction

def at? (b : Body) (index : Nat) : Option Handle :=
  b.order[index]?.map b.handle

def handleAt (b : Body) (index : Nat) : Except Error Handle :=
  match b.at? index with
  | some h => .ok h
  | none => .error (.indexOutOfRange index)

def position (b : Body) (h : Handle) : Option Nat :=
  if b.contains h then b.order.idxOf? h.slot else none

def referrers (b : Body) (h : Handle) : Nat :=
  (b.entries.flatMap fun (_, i) => i.operand.targets).count h
    + (b.handlers.flatMap Handler.boundaries).count h

def checkTarget (b : Body) (h : Handle) : Except Error Unit :=
  if !b.owns h then .error .foreignInstruction
  else if !b.attached h.slot then .error .danglingTarget
  else .ok ()

/-- Fails unless every branch target of an operand is an instruction of the list; the first one
that is not decides. -/
def checkTargets (b : Body) (operand : Operand Handle) : Except Error Unit :=
  operand.targets.forM b.checkTarget

end Body

end CilEdit

import CilEdit.Body.Basic
import CilEdit.Step

namespace CilEdit.Body

open Step (read modify)

def markShifted (b : Body) : Body :=
  { b with shifted := true }

/-- Appends an instruction without looking at its targets. -/
def append (b : Body) (i : Instruction Handle) : Body :=
  { b with toArena := b.toArena.push i }

/-- Gives the instruction of a slot another opcode and operand; it keeps its recorded offset. -/
def overwrite (b : Body) (slot : Nat) (opcode : Opcode) (operand : Operand Handle) : Body :=
  { b with toArena := b.toArena.modify slot fun i => { i with opcode, operand } }

def detach (b : Body) (slot : Nat) : Body :=
  { b with toArena := b.toArena.detach slot, shifted := true }

def insertAfter (b : Body) (position : Nat) (instructions : List (Instruction Handle)) : Body :=
  { b with toArena := b.toArena.insertAfter position instructions, shifted := true }

def positionOf (b : Body) (h : Handle) : Except Error Nat :=
  match b.position h with
  | some position => .ok position
  | none => .error .staleAnchor

/-- Appends an instruction whose targets are in the list. One without a recorded offset leaves
the offsets of the body stale. -/
def push (i : Instruction Handle) : Step Error Body Handle := do
  read (·.checkTargets i.operand)
  if i.offset.isNone then modify markShifted
  let h ← read fun b => .ok b.next
  modify (·.append i)
  return h

/-- Replaces opcode and operand of the instruction at `h`. A change of size leaves the offsets of
the body stale. -/
def replace (h : Handle) (i : Instruction Handle) : Step Error Body Unit := do
  let old ← read (·.instruction h)
  read (·.checkTargets i.operand)
  read (·.checkAttached h)
  modify (·.overwrite h.slot i.opcode i.operand)
  if i.size != old.size then modify markShifted

def remove (h : Handle) : Step Error Body Unit := do
  read (·.checkAttached h)
  let referrers ← read fun b => .ok (b.referrers h)
  if referrers > 0 then Step.fail (.instructionInUse referrers)
  else do
    read (·.checkAttached h)
    let _position ← read (·.positionOf h)
    modify (·.detach h.slot)

end CilEdit.Body

import CilEdit.Code.Instruction

namespace CilEdit

inductive OperandPattern
  | any
  /-- Exactly this operand, bit for bit. -/
  | equals (operand : Operand Handle)
  | notEquals (operand : Operand Handle)
  deriving DecidableEq, Repr

def OperandPattern.accepts : OperandPattern → Operand Handle → Bool
  | .any, _ => true
  | .equals expected, operand => operand == expected
  | .notEquals excluded, operand => operand != excluded

structure Pattern where
  opcode : Opcode
  operand : OperandPattern
  deriving DecidableEq, Repr

namespace Pattern

def accepts (p : Pattern) (i : Instruction Handle) : Bool :=
  i.opcode == p.opcode && p.operand.accepts i.operand

def describe (p : Pattern) : String :=
  match p.operand with
  | .any => p.opcode.mnemonic
  | .equals operand => s!"{p.opcode.mnemonic} {operand.text}"
  | .notEquals operand => s!"{p.opcode.mnemonic} != {operand.text}"

def drift? (p : Pattern) (i : Instruction Handle) : Option Drift :=
  if p.accepts i then none
  else some { Drift.between p.describe i.describe with offset := i.offset }

end Pattern

def Pattern.ofOpcode (opcode : Opcode) : Pattern :=
  ⟨opcode, .any⟩

end CilEdit

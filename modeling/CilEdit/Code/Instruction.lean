import CilEdit.Code.Handle
import CilEdit.Error
import CilEdit.Text.FloatLiteral

namespace CilEdit

open Text (FloatFormat)

/-- A float literal is its bit pattern, so equal operands are equally encoded. -/
inductive Immediate
  | int8 (value : Int8)
  | uint8 (value : UInt8)
  | uint16 (value : UInt16)
  | int32 (value : Int32)
  | int64 (value : Int64)
  | float32 (bits : UInt32)
  | float64 (bits : UInt64)
  deriving DecidableEq, Repr

namespace Immediate

def kind : Immediate → OperandKind
  | .int8 _ => .int8
  | .uint8 _ => .uint8
  | .uint16 _ => .uint16
  | .int32 _ => .int32
  | .int64 _ => .int64
  | .float32 _ => .float32
  | .float64 _ => .float64

def bytes : Immediate → Bytes
  | .int8 v => [v.toUInt8]
  | .uint8 v => [v]
  | .uint16 v => Bytes.ofNat 2 v.toNat
  | .int32 v => Bytes.ofNat 4 v.toUInt32.toNat
  | .int64 v => Bytes.ofNat 8 v.toUInt64.toNat
  | .float32 b => Bytes.ofNat 4 b.toNat
  | .float64 b => Bytes.ofNat 8 b.toNat

def text : Immediate → String
  | .int8 v => toString v.toInt
  | .uint8 v => toString v.toNat
  | .uint16 v => toString v.toNat
  | .int32 v => toString v.toInt
  | .int64 v => toString v.toInt
  | .float32 b => FloatFormat.single.text b.toNat
  | .float64 b => FloatFormat.double.text b.toNat

/-- Equality with floats compared as numbers. -/
def equal : Immediate → Immediate → Bool
  | .float32 a, .float32 b => FloatFormat.single.equal a.toNat b.toNat
  | .float64 a, .float64 b => FloatFormat.double.equal a.toNat b.toNat
  | a, b => a == b

end Immediate

/-- What a branch target is differs: a byte offset in code that is being read, a handle in an
editable body, a list position while code is being laid out. -/
inductive Operand (τ : Type)
  | none
  | immediate (value : Immediate)
  | token (token : Token)
  | target (target : τ)
  | switch (targets : List τ)
  deriving DecidableEq, Repr

namespace Operand

variable {τ σ : Type}

def targets : Operand τ → List τ
  | .target t => [t]
  | .switch ts => ts
  | _ => []

/-- Replaces every branch target, from the first to the last; the first failure is the answer. -/
def traverse (f : τ → Except Error σ) : Operand τ → Except Error (Operand σ)
  | .none => .ok .none
  | .immediate v => .ok (.immediate v)
  | .token t => .ok (.token t)
  | .target t => (f t).map .target
  | .switch ts => (ts.mapM f).map .switch

/-- Whether the operand can be encoded with an opcode. String tokens belong to `ldstr`, and
`ldstr` takes no other token. -/
def fits (operand : Operand τ) (opcode : Opcode) : Bool :=
  match opcode.operand, operand with
  | .none, .none => true
  | .shortTarget, .target _ | .target, .target _ => true
  | .switch, .switch _ => true
  | .token, .token t => (opcode == .ldstr) == (t.table == Token.userString)
  | kind, .immediate v => v.kind == kind
  | _, _ => false

def check (operand : Operand τ) (opcode : Opcode) : Except Error Unit :=
  if operand.fits opcode then .ok () else .error (.operandMismatch opcode opcode.operand)

/-- The size of the operand after an opcode: a switch table has its own size, all else the size
that the opcode prescribes. -/
def size (operand : Operand τ) (opcode : Opcode) : Nat :=
  match operand with
  | .switch ts => 4 + 4 * ts.length
  | _ => opcode.operand.size?.getD 0

def equal [DecidableEq τ] : Operand τ → Operand τ → Bool
  | .immediate a, .immediate b => a.equal b
  | a, b => a == b

def text : Operand Handle → String
  | .none => ""
  | .immediate v => v.text
  | .token t => t.text
  | .target t => t.text
  | .switch ts => "(" ++ ", ".intercalate (ts.map Handle.text) ++ ")"

end Operand

/-- One instruction; `offset` is the byte offset it was decoded from, if it was. -/
structure Instruction (τ : Type) where
  opcode : Opcode
  operand : Operand τ
  offset : Option Nat
  deriving DecidableEq, Repr

namespace Instruction

variable {τ : Type}

def make (opcode : Opcode) (operand : Operand τ) : Except Error (Instruction τ) :=
  (operand.check opcode).map fun _ => ⟨opcode, operand, none⟩

def size (i : Instruction τ) : Nat :=
  i.opcode.size + i.operand.size i.opcode

def calls (i : Instruction τ) (method : Token) : Bool :=
  i.opcode.flow == .call &&
    match i.operand with
    | .token t => t == method
    | _ => false

def describe (i : Instruction Handle) : String :=
  match i.operand with
  | .none => i.opcode.mnemonic
  | operand => i.opcode.mnemonic ++ " " ++ operand.text

def text (i : Instruction Handle) : String :=
  (match i.offset with
    | some offset => offsetLabel offset
    | none => "IL_????") ++ ": " ++ i.describe

end Instruction

end CilEdit

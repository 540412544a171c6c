namespace CilEdit

inductive OperandKind
  | none
  | int8 | uint8 | uint16 | int32 | int64 | float32 | float64
  | token
  | shortTarget
  | target
  | switch
  deriving DecidableEq, Repr, Inhabited

namespace OperandKind

def name : OperandKind → String
  | .none => "None"
  | .int8 => "Int8"
  | .uint8 => "UInt8"
  | .uint16 => "UInt16"
  | .int32 => "Int32"
  | .int64 => "Int64"
  | .float32 => "Float32"
  | .float64 => "Float64"
  | .token => "Token"
  | .shortTarget => "ShortTarget"
  | .target => "Target"
  | .switch => "Switch"

/-- The encoded size, except for a switch table, whose size depends on its cases. -/
def size? : OperandKind → Option Nat
  | .none => some 0
  | .int8 | .uint8 | .shortTarget => some 1
  | .uint16 => some 2
  | .int32 | .float32 | .token | .target => some 4
  | .int64 | .float64 => some 8
  | .switch => Option.none

def isTarget : OperandKind → Bool
  | .shortTarget | .target => true
  | _ => false

end OperandKind

inductive Flow
  | sequential
  | conditionalBranch
  | unconditionalBranch
  | call
  | ret
  | switch
  | raise
  | endFinally
  | leave
  deriving DecidableEq, Repr, Inhabited

namespace Flow

def name : Flow → String
  | .sequential => "Sequential"
  | .conditionalBranch => "ConditionalBranch"
  | .unconditionalBranch => "UnconditionalBranch"
  | .call => "Call"
  | .ret => "Return"
  | .switch => "Switch"
  | .raise => "Throw"
  | .endFinally => "EndFinally"
  | .leave => "Leave"

def fallsThrough : Flow → Bool
  | .sequential | .conditionalBranch | .call | .switch => true
  | _ => false

end Flow

inductive StackCount
  | fixed (slots : Nat)
  /-- Depends on the signature of the called or the current method. -/
  | variable
  deriving DecidableEq, Repr, Inhabited

end CilEdit

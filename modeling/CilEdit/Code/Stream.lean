import CilEdit.Bytes.ReaderLemmas
import CilEdit.Code.Instruction

namespace CilEdit

open Reader

def Opcode.readValue (first : UInt8) : Reader Nat :=
  if first = Opcode.wideMark then do
    let second ← byte
    return 0xFE00 + second.toNat
  else pure first.toNat

def Opcode.read : Reader Opcode := do
  let start ← position
  let first ← byte
  let value ← Opcode.readValue first
  match Opcode.ofValue? (UInt16.ofNat value) with
  | some op => return op
  | none => bad (.invalidOpcode value start)

/-- An operand of a given kind. Displacements count from the end of the operand; `start` is the
offset of the instruction, for the report of a table that is too long. -/
def OperandKind.read (start : Nat) : OperandKind → Reader (Operand Int)
  | .none => return .none
  | .int8 => return .immediate (.int8 (← byte).toInt8)
  | .uint8 => return .immediate (.uint8 (← byte))
  | .uint16 => return .immediate (.uint16 (UInt16.ofNat (← nat 2)))
  | .int32 => return .immediate (.int32 (UInt32.ofNat (← nat 4)).toInt32)
  | .int64 => return .immediate (.int64 (UInt64.ofNat (← nat 8)).toInt64)
  | .float32 => return .immediate (.float32 (UInt32.ofNat (← nat 4)))
  | .float64 => return .immediate (.float64 (UInt64.ofNat (← nat 8)))
  | .token => return .token ⟨UInt32.ofNat (← nat 4)⟩
  | .shortTarget => do
    let displacement ← nat 1
    return .target ((← position) + Bytes.signed 1 displacement)
  | .target => do
    let displacement ← nat 4
    return .target ((← position) + Bytes.signed 4 displacement)
  | .switch => do
    let count ← nat 4
    require (4 * count) fun _ => .switchCount start count
    let displacements ← times (nat 4) count
    let base ← position
    return .switch (displacements.map fun d => base + Bytes.signed 4 d)

structure RawInstruction where
  offset : Nat
  size : Nat
  opcode : Opcode
  /-- The operand, with targets as absolute offsets. -/
  operand : Operand Int
  deriving DecidableEq, Repr

namespace RawInstruction

def read : Reader RawInstruction := do
  let start ← position
  let opcode ← Opcode.read
  let operand ← opcode.operand.read start
  return ⟨start, (← position) - start, opcode, operand⟩

theorem forward_readValue (first : UInt8) : (Opcode.readValue first).Forward := by
  unfold Opcode.readValue
  split
  · exact forward_byte.bind fun _ => forward_pure _
  · exact forward_pure _

theorem consumes_readOpcode : Opcode.read.Consumes := by
  refine forward_position.bind_consumes fun start => consumes_byte.bind fun first => ?_
  refine (forward_readValue first).bind fun value => ?_
  split
  · exact forward_pure _
  · exact forward_bad _

theorem forward_readOpcode : Opcode.read.Forward := by
  refine forward_position.bind fun start => forward_byte.bind fun first => ?_
  refine (forward_readValue first).bind fun value => ?_
  split
  · exact forward_pure _
  · exact forward_bad _

theorem forward_readOperand (start : Nat) (kind : OperandKind) : (kind.read start).Forward := by
  cases kind
  case none => exact forward_pure _
  case int8 | uint8 => exact forward_byte.bind fun _ => forward_pure _
  case uint16 | int32 | int64 | float32 | float64 | token =>
    exact (forward_nat _).bind fun _ => forward_pure _
  case shortTarget | target =>
    exact (forward_nat _).bind fun _ => forward_position.bind fun _ => forward_pure _
  case switch =>
    exact (forward_nat _).bind fun count => (forward_require _ _).bind fun _ =>
      (forward_nat 4 |>.times count).bind fun _ => forward_position.bind fun _ => forward_pure _

theorem consumes_read : read.Consumes :=
  forward_position.bind_consumes fun start => consumes_readOpcode.bind fun opcode =>
    (forward_readOperand start opcode.operand).bind fun _ => forward_position.bind fun _ =>
      forward_pure _

theorem forward_read : read.Forward :=
  forward_position.bind fun start => forward_readOpcode.bind fun opcode =>
    (forward_readOperand start opcode.operand).bind fun _ => forward_position.bind fun _ =>
      forward_pure _

end RawInstruction

namespace Stream

def readAll (i : Input) (seen : List RawInstruction) : Except Error (List RawInstruction) :=
  if i.rest.isEmpty then .ok seen.reverse
  else
    match _h : RawInstruction.read i with
    | (.error e, _) => .error e
    | (.ok raw, next) => readAll next (raw :: seen)
termination_by i.rest.length
decreasing_by exact RawInstruction.consumes_read i raw next _h

theorem readAll_of_ok {i next : Input} {raw : RawInstruction}
    (hread : RawInstruction.read i = (.ok raw, next)) (seen : List RawInstruction) :
    readAll i seen = readAll next (raw :: seen) := by
  have hrest : ¬ i.rest.isEmpty = true := by
    intro hempty
    have hlt := RawInstruction.consumes_read i raw next hread
    rw [List.isEmpty_iff.mp hempty] at hlt
    exact Nat.not_lt_zero _ hlt
  rw [readAll, if_neg hrest]
  split <;> rename_i heq <;> rw [hread] at heq <;> cases heq
  rfl

theorem readAll_of_error {i next : Input} {e : Error} (hrest : ¬ i.rest.isEmpty = true)
    (hread : RawInstruction.read i = (.error e, next)) (seen : List RawInstruction) :
    readAll i seen = .error e := by
  rw [readAll, if_neg hrest]
  split <;> rename_i heq <;> rw [hread] at heq <;> cases heq
  rfl

def decode (code : Bytes) : Except Error (List RawInstruction) :=
  readAll (.ofBytes code) []

end Stream

end CilEdit

import CilEdit.Body.Basic
import CilEdit.Code.Layout
import CilEdit.Code.StackDepth
import CilEdit.Method.Header
import Std.Data.HashMap

namespace CilEdit

/-- A body whose branch targets and boundaries are list positions. Its instructions have no recorded
offsets. -/
structure Listing where
  code : List (Instruction Nat)
  handlers : List (Handler Nat)
  maxStack : UInt16
  locals : Token
  initLocals : Bool
  deriving DecidableEq, Repr

namespace Body

def positions (b : Body) : Std.HashMap Nat Nat :=
  .ofList b.order.toList.zipIdx

def place (b : Body) (positions : Std.HashMap Nat Nat) (h : Handle) : Except Error Nat :=
  let found := if h.body = b.id then positions[h.slot]? else none
  match found with
  | some position => .ok position
  | none => .error .danglingTarget

def listing (b : Body) : Except Error Listing := do
  let place := b.place b.positions
  let code ← b.entries.mapM fun (_, i) =>
    (i.operand.traverse place).map fun operand => ⟨i.opcode, operand, none⟩
  let handlers ← b.handlers.mapM (Handler.traverse place)
  return ⟨code, handlers, b.maxStack, b.locals, b.initLocals⟩

end Body

namespace Listing

def assemble (l : Listing) (resolve : Resolver) (returnsValue : Bool) :
    Except Error (Header × Bytes) := do
  let layout ← Layout.make l.code
  let code ← layout.emit
  let depth ← StackDepth.maxStack resolve returnsValue layout.code l.handlers
  let clauses ← l.handlers.mapM layout.clause
  let header : Header := {
    size := 0
    codeSize := code.length
    maxStack := max depth l.maxStack
    locals := l.locals
    isFat := false
    initLocals := l.initLocals
    clauses }
  return (header, code)

end Listing

/-- The stored form of a body. `resolve` knows the signatures of called methods; a method that
returns a value leaves it on the stack for `ret`. -/
def Body.encode (b : Body) (resolve : Resolver) (returnsValue : Bool) : Except Error Bytes := do
  let (header, code) ← (← b.listing).assemble resolve returnsValue
  header.write code

end CilEdit

import CilEdit.Code.Instruction
import CilEdit.Metadata.Signature
import CilEdit.Method.Clause

/-!
The depth of the evaluation stack.

`explore` walks the control flow from the start of the code, the handlers and the filters; it
visits every reachable position once, with the depth of the first way that led there. The greatest
depth before or after a visited instruction is the depth that a header has to declare.
-/

namespace CilEdit

/-- The signature behind the token of a call, if it is known. -/
abbrev Resolver := Token → Option Signature

namespace StackDepth

def calledSignature (resolve : Resolver) (i : Instruction Nat) : Except Error Signature :=
  match i.operand with
  | .token t =>
    match resolve t with
    | some signature => .ok signature
    | none => .error (.unresolvedToken t)
  | _ => Error.bad (.callWithoutToken i.opcode)

/-- The slots that an instruction pops and pushes. A call through a pointer is taken to consume
the pointer and to leave one value. -/
def effect (resolve : Resolver) (returnsValue : Bool) (i : Instruction Nat) :
    Except Error (Nat × Nat) :=
  match i.opcode.pops, i.opcode.pushes with
  | .fixed pops, .fixed pushes => .ok (pops, pushes)
  | _, _ =>
    match i.opcode with
    | .ret => .ok (returnsValue.toNat, 0)
    | .newobj => do return ((← calledSignature resolve i).params.length, 1)
    | .call | .callvirt => do
      let signature ← calledSignature resolve i
      return (signature.callPops, signature.returnsValue.toNat)
    | _ => .ok (1, 1)

structure Visit where
  position : Nat
  opcode : Opcode
  depth : Nat
  pops : Nat
  pushes : Nat
  deriving DecidableEq, Repr

/-- The depth after the visited instruction; the stack never holds less than nothing. -/
def Visit.after (v : Visit) : Nat :=
  v.depth - v.pops + v.pushes

/-- The state of the walk: the depths of the positions found so far, and those still to be
visited, the last found first. -/
structure Frontier where
  depths : Array (Option Nat)
  pending : List Nat

namespace Frontier

/-- Records a way to a position; only the first one counts. -/
def enter (f : Frontier) (position depth : Nat) : Frontier :=
  match f.depths[position]? with
  | some none => ⟨f.depths.setIfInBounds position (some depth), position :: f.pending⟩
  | _ => f

/-- The positions not yet found and those found but not yet visited. -/
def remaining (f : Frontier) : Nat :=
  f.depths.toList.countP Option.isNone + f.pending.length

def enterAll (f : Frontier) (positions : List Nat) (depth : Nat) : Frontier :=
  positions.foldl (fun f p => f.enter p depth) f

theorem remaining_enter (f : Frontier) (position depth : Nat) :
    (f.enter position depth).remaining = f.remaining := by
  unfold enter
  split
  · rename_i h
    have hlt : position < f.depths.size := by
      rw [Array.getElem?_eq_some_iff] at h
      exact h.1
    have hset : (f.depths.toList.set position (some depth)).countP Option.isNone + 1
        = f.depths.toList.countP Option.isNone := by
      have hlist : position < f.depths.toList.length := by simpa using hlt
      have hget : f.depths.toList[position] = none := by
        rw [Array.getElem?_eq_some_iff] at h
        simpa using h.2
      have hpos : 0 < f.depths.toList.countP Option.isNone :=
        List.countP_pos_iff.mpr ⟨none, by rw [← hget]; exact List.getElem_mem _, rfl⟩
      rw [List.countP_set hlist, hget]
      simp only [Option.isNone_none, Option.isNone_some, if_true, Bool.false_eq_true, if_false]
      omega
    simp only [remaining, Array.toList_setIfInBounds, List.length_cons]
    omega
  · rfl

theorem remaining_enterAll (f : Frontier) (positions : List Nat) (depth : Nat) :
    (f.enterAll positions depth).remaining = f.remaining := by
  induction positions generalizing f with
  | nil => rfl
  | cons p rest ih =>
      simp only [enterAll, List.foldl_cons] at ih ⊢
      rw [ih, remaining_enter]

end Frontier

def enterHandler (f : Frontier) (h : Handler Nat) : Frontier :=
  let f := f.enter h.handlerStart h.pushesException.toNat
  match h.filterStart with
  | some filter => f.enter filter 1
  | none => f

def entries (size : Nat) (handlers : List (Handler Nat)) : Frontier :=
  handlers.foldl enterHandler (Frontier.enter ⟨Array.replicate size none, []⟩ 0 0)

/-- The ways on from a visited instruction. A branch out of a protected region empties the
stack. -/
def successors (f : Frontier) (i : Instruction Nat) (v : Visit) : Frontier :=
  let f := f.enterAll i.operand.targets (if i.opcode.flow = .leave then 0 else v.after)
  if i.opcode.flow.fallsThrough then f.enter (v.position + 1) v.after else f

theorem remaining_successors (f : Frontier) (i : Instruction Nat) (v : Visit) :
    (successors f i v).remaining = f.remaining := by
  unfold successors
  dsimp only
  split
  · rw [Frontier.remaining_enter, Frontier.remaining_enterAll]
  · rw [Frontier.remaining_enterAll]

/-- Visits what is pending until nothing is; gives the visits in reverse, and the failure that
stopped the walk, if one did. -/
def walk (resolve : Resolver) (returnsValue : Bool) (code : Array (Instruction Nat))
    (f : Frontier) (visits : List Visit) : List Visit × Option Error :=
  match _h : f.pending with
  | [] => (visits, none)
  | position :: pending =>
    match code[position]? with
    | none => walk resolve returnsValue code ⟨f.depths, pending⟩ visits
    | some i =>
      match effect resolve returnsValue i with
      | .error e => (visits, some e)
      | .ok (pops, pushes) =>
        let v : Visit := ⟨position, i.opcode, (f.depths[position]?.getD none).getD 0, pops, pushes⟩
        walk resolve returnsValue code (successors ⟨f.depths, pending⟩ i v) (v :: visits)
termination_by f.remaining
decreasing_by
  · simp only [Frontier.remaining, _h, List.length_cons]
    omega
  · rw [remaining_successors]
    simp only [Frontier.remaining, _h, List.length_cons]
    omega

def explore (resolve : Resolver) (returnsValue : Bool) (code : List (Instruction Nat))
    (handlers : List (Handler Nat)) : List Visit × Option Error :=
  let (visits, failure) :=
    walk resolve returnsValue code.toArray (entries code.length handlers) []
  (visits.reverse, failure)

def deepest (visits : List Visit) : Nat :=
  visits.foldl (fun depth v => max (max depth v.depth) v.after) 0

def maxStack (resolve : Resolver) (returnsValue : Bool) (code : List (Instruction Nat))
    (handlers : List (Handler Nat)) : Except Error UInt16 :=
  let (visits, failure) := explore resolve returnsValue code handlers
  match failure with
  | some e => .error e
  | none =>
    let depth := deepest visits
    if depth < UInt16.size then .ok (UInt16.ofNat depth) else Error.bad (.stackTooDeep depth)

end StackDepth

end CilEdit

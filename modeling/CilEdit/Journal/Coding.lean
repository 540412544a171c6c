import CilEdit.Journal.Note
import CilEdit.Metadata.Image

namespace CilEdit

namespace Layout

def roundJournal (l : Layout) : Journal :=
  l.code.zipIdx.filterMap fun (i, position) =>
    if l.overflows position i then
      some (.widening i.opcode position (lengthen i).opcode)
    else none

/-- The rounds of `settle`, up to the first whose code is too large. -/
def settleJournal (code : List (Instruction Nat)) : Journal :=
  let l := ofCode code
  if UInt32.size ≤ l.size then []
  else if shortCount l.widen < shortCount code then l.roundJournal ++ settleJournal l.widen
  else []
termination_by shortCount code

end Layout

namespace StackDepth

def Visit.journal (v : Visit) : Journal :=
  let assumed :=
    match v.opcode.pops, v.opcode.pushes with
    | .fixed _, .fixed _ => []
    | _, _ =>
      if v.opcode ∈ [.ret, .newobj, .call, .callvirt] then [] else [.assumedEffect v.opcode]
  assumed ++ if v.depth < v.pops then
    [.stackUnderflow v.position v.opcode v.depth v.pops] else []

end StackDepth

def Listing.journal (l : Listing) (resolve : Resolver) (returnsValue : Bool) : Journal :=
  let widened := Layout.settleJournal l.code
  match Layout.make l.code with
  | .error _ => widened
  | .ok layout =>
    match layout.emit with
    | .error _ => widened
    | .ok code =>
      let visits := (StackDepth.explore resolve returnsValue layout.code l.handlers).1
      let done :=
        match l.assemble resolve returnsValue with
        | .ok (header, _) => [.encoded l.code.length code.length l.maxStack header.maxStack]
        | .error _ => []
      widened ++ visits.flatMap StackDepth.Visit.journal ++ done

def Body.encodeJournal (b : Body) (resolve : Resolver) (returnsValue : Bool) : Journal :=
  match b.listing with
  | .ok l => l.journal resolve returnsValue
  | .error _ => []

namespace Image

/-- The methods whose bodies have to be encoded, with their types, up to and including the first
that fails. -/
def encodedMethods (m : Module) : List (TypeDef × MethodDef) → List (TypeDef × MethodDef)
  | [] => []
  | (t, method) :: rest =>
    let here := if method.raw.isNone && method.body.isSome then [(t, method)] else []
    match storedBody m method with
    | .ok _ => here ++ encodedMethods m rest
    | .error _ => here

def writeJournal (m : Module) : Journal :=
  let methods := m.types.flatMap fun t => t.methods.map fun method => (t, method)
  (encodedMethods m methods).flatMap fun (t, method) =>
    .encodingBody t.name method.name ::
      match method.body with
      | some b => b.encodeJournal m.signatureOf? method.signature.returnsValue
      | none => []

def readJournal (data : Bytes) : Journal :=
  let found := Clause.field data mark.length 2
  if data.take mark.length = mark ∧ mark.length + 2 ≤ data.length ∧ found ≠ version then
    [.unsupportedVersion found]
  else []

end Image

end CilEdit

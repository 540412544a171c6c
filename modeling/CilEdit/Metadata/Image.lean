import CilEdit.Body.Decode
import CilEdit.Body.Encode
import CilEdit.Metadata.Module

/-!
Module images: the stored form of a module.

An image is a mark, a version, the module's name and four tables: types with their fields and
methods, imported types, imported members, and strings. Rows of types, references and strings are
implied by their order; rows of fields and methods, which are numbered across all types, are
stored. Numbers are little-endian, counts take four bytes, and texts are preceded by their length.
-/

namespace CilEdit.Image

open Reader

def mark : Bytes := [0x43, 0x49, 0x4C, 0x4D]

def version : Nat := 1

/-- The number of rows of a table, which the bytes left must be able to hold. -/
def readCount : Reader Nat := do
  let count ← nat 4
  require count (.tableCount count)
  return count

/-- One more row of a table, before those that were read last to first. -/
@[inline]
def readNext {α σ : Type} (row : σ → Reader (α × σ)) : List α × σ → Reader (List α × σ) :=
  fun (rows, s) => do
    let (a, s) ← row s
    return (a :: rows, s)

@[specialize]
def readTable {α σ : Type} (row : σ → Reader (α × σ)) (s : σ) : Reader (List α × σ) := do
  let count ← readCount
  let (rows, s) ← iterate (readNext row) count ([], s)
  return (rows.reverse, s)

@[specialize]
def readRows {α : Type} (row : Reader α) : Reader (List α) := do
  times row (← readCount)

def readRow (table : Nat) (seen : List Nat) : Reader Nat := do
  let row ← nat 4
  if row = 0 ∨ Token.maxRow < row ∨ row ∈ seen then bad (.invalidRow row table) else return row

/-- What has been read of the table of types: how many types, and the rows of their members. -/
structure Seen where
  types : Nat
  fieldRows : List Nat
  methodRows : List Nat

def readSignature : Reader Signature := do
  let flag ← byte
  if flag.toNat > 1 then bad (.signatureFlag flag.toNat)
  else do
    let count ← Varint.read
    require count fun _ => .signatureCount count
    let params ← times Prefixed.read count
    let returnType ← Prefixed.read
    return ⟨flag == 1, params, returnType⟩

def readField (seen : List Nat) : Reader (FieldDef × List Nat) := do
  let row ← readRow Token.fieldDef seen
  let flags ← nat 4
  let name ← Prefixed.read
  let type ← Prefixed.read
  return (⟨.ofParts Token.fieldDef row, UInt32.ofNat flags, name, type⟩, row :: seen)

def readBody (id : BodyId) : Reader (Option (Bytes × Body)) := do
  let length ← nat 4
  if length = 0 then return none
  else do
    let raw ← take length
    let body ← Step.ofExcept (Body.decode id raw)
    return some (raw, body)

def readMethod (origin : Nat) (seen : List Nat) : Reader (MethodDef × List Nat) := do
  let row ← readRow Token.methodDef seen
  let flags ← nat 2
  let name ← Prefixed.read
  let signature ← readSignature
  let stored ← readBody ⟨origin, row⟩
  return ({
    token := .ofParts Token.methodDef row
    flags := .ofBits (UInt16.ofNat flags)
    name, signature
    body := stored.map Prod.snd
    raw := stored.map Prod.fst }, row :: seen)

def readType (origin : Nat) (seen : Seen) : Reader (TypeDef × Seen) := do
  let flags ← nat 4
  let name ← Prefixed.read
  let (fields, fieldRows) ← readTable readField seen.fieldRows
  let (methods, methodRows) ← readTable (readMethod origin) seen.methodRows
  let row := seen.types + 1
  return (⟨.ofParts Token.typeDef row, UInt32.ofNat flags, name, fields, methods⟩,
    ⟨row, fieldRows, methodRows⟩)

def readTypeRef (count : Nat) : Reader (TypeRef × Nat) := do
  let scope ← Prefixed.read
  let name ← Prefixed.read
  return (⟨.ofParts Token.typeRef (count + 1), scope, name⟩, count + 1)

def readMemberKind (kind : UInt8) : Reader MemberKind :=
  if kind = 0 then do return .method (← readSignature)
  else if kind = 1 then do return .field (← Prefixed.read)
  else bad (.memberKind kind.toNat)

/-- An imported member, whose parent is one of so many imported types; `count` rows come before
it. -/
def readMemberRef (typeRefs : Nat) (count : Nat) : Reader (MemberRef × Nat) := do
  let kind ← byte
  let parent : Token := ⟨UInt32.ofNat (← nat 4)⟩
  if !parent.isRowOf Token.typeRef typeRefs then bad (.memberParent parent)
  else do
    let name ← Prefixed.read
    let member ← readMemberKind kind
    return (⟨.ofParts Token.memberRef (count + 1), parent, name, member⟩, count + 1)

def readPreamble : Reader Unit := do
  if (← take mark.length) ≠ mark then Step.fail .notSupported
  else if (← nat 2) ≠ version then Step.fail .notSupported
  else do
    let _reserved ← nat 2
    return ()

def readModule (origin : Nat) : Reader Module := do
  readPreamble
  let name ← Prefixed.read
  let (types, _) ← readTable (readType origin) ⟨0, [], []⟩
  let (typeRefs, typeRefCount) ← readTable readTypeRef 0
  let (memberRefs, _) ← readTable (readMemberRef typeRefCount) 0
  let userStrings ← readRows Prefixed.read
  let left ← remaining
  if left > 0 then bad (.trailingBytes left)
  else return { name, types, typeRefs, memberRefs, userStrings }

/-- The module stored in `data`; `origin` tells its bodies from those of other loads. -/
def read (origin : Nat) (data : Bytes) : Except Error Module :=
  (readModule origin).parse data

def writeTable {α : Type} (row : α → Except Error Bytes) (rows : List α) : Except Error Bytes :=
  if rows.length < UInt32.size then
    (rows.mapM row).map fun parts => Bytes.ofNat 4 rows.length ++ parts.flatten
  else Error.bad (.tableTooLarge rows.length)

def writeSignature (s : Signature) : Except Error Bytes := do
  unless s.params.length < UInt32.size do Error.bad .signatureTooLarge
  let params ← s.params.mapM Prefixed.bytes
  let returnType ← Prefixed.bytes s.returnType
  return UInt8.ofNat s.hasThis.toNat :: (Varint.bytes s.params.length
    ++ (params.flatten ++ returnType))

def writeField (f : FieldDef) : Except Error Bytes := do
  let name ← Prefixed.bytes f.name
  let type ← Prefixed.bytes f.type
  return Bytes.ofNat 4 f.token.row ++ (Bytes.ofNat 4 f.flags.toNat ++ (name ++ type))

/-- The stored body of a method: the bytes that were loaded, or the encoded body if it was opened
for editing, or nothing. -/
def storedBody (m : Module) (method : MethodDef) : Except Error Bytes :=
  match method.raw, method.body with
  | some raw, _ => .ok raw
  | none, some body => body.encode m.signatureOf? method.signature.returnsValue
  | none, none => .ok []

def writeMethod (m : Module) (method : MethodDef) : Except Error Bytes := do
  let name ← Prefixed.bytes method.name
  let signature ← writeSignature method.signature
  let body ← storedBody m method
  unless body.length < UInt32.size do Error.bad (.tableTooLarge body.length)
  return Bytes.ofNat 4 method.token.row ++ (Bytes.ofNat 2 method.flags.bits.toNat ++ (name
    ++ (signature ++ (Bytes.ofNat 4 body.length ++ body))))

def writeType (m : Module) (t : TypeDef) : Except Error Bytes := do
  let name ← Prefixed.bytes t.name
  let fields ← writeTable writeField t.fields
  let methods ← writeTable (writeMethod m) t.methods
  return Bytes.ofNat 4 t.flags.toNat ++ (name ++ (fields ++ methods))

def writeTypeRef (r : TypeRef) : Except Error Bytes := do
  return (← Prefixed.bytes r.scope) ++ (← Prefixed.bytes r.name)

def kindByte : MemberKind → UInt8
  | .method _ => 0
  | .field _ => 1

def writeMemberKind : MemberKind → Except Error Bytes
  | .method signature => writeSignature signature
  | .field type => Prefixed.bytes type

def writeMemberRef (r : MemberRef) : Except Error Bytes := do
  let name ← Prefixed.bytes r.name
  let kind ← writeMemberKind r.kind
  return kindByte r.kind :: (Bytes.ofNat 4 r.parent.value.toNat ++ (name ++ kind))

def preamble : Bytes :=
  mark ++ (Bytes.ofNat 2 version ++ Bytes.ofNat 2 0)

def write (m : Module) : Except Error Bytes := do
  let name ← Prefixed.bytes m.name
  let types ← writeTable (writeType m) m.types
  let typeRefs ← writeTable writeTypeRef m.typeRefs
  let memberRefs ← writeTable writeMemberRef m.memberRefs
  let userStrings ← writeTable Prefixed.bytes m.userStrings
  return preamble ++ (name ++ (types ++ (typeRefs ++ (memberRefs ++ userStrings))))

end CilEdit.Image

namespace CilEdit.Module

def load (origin : Nat) (data : Bytes) : Except Error Module :=
  if data.isEmpty then Error.bad .emptyBuffer else Image.read origin data

def toBytes (m : Module) : Except Error Bytes :=
  Image.write m

end CilEdit.Module

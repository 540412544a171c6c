import CilEdit.Body.Basic
import CilEdit.Metadata.Signature

namespace CilEdit

/-- The flags of a method, a set of the bits that have a meaning. -/
structure MethodFlags where
  bits : UInt16
  known : bits &&& 0x1DF7 = bits
  deriving DecidableEq, Repr

namespace MethodFlags

def ofBits (bits : UInt16) : MethodFlags where
  bits := bits &&& 0x1DF7
  known := by rw [UInt16.and_assoc, UInt16.and_self]

instance : Inhabited MethodFlags := ⟨ofBits 0⟩

def accessMask : UInt16 := 7

def access (f : MethodFlags) : UInt16 :=
  f.bits &&& accessMask

def isStatic (f : MethodFlags) : Bool :=
  f.bits &&& 0x10 != 0

end MethodFlags

structure FieldDef where
  token : Token
  flags : UInt32
  name : String
  type : String
  deriving DecidableEq, Repr

structure MethodDef where
  token : Token
  flags : MethodFlags
  name : String
  signature : Signature
  body : Option Body
  /-- The stored form of the body, as long as the body was not opened for editing. -/
  raw : Option Bytes
  deriving DecidableEq, Repr

def MethodDef.openBody (m : MethodDef) : MethodDef :=
  { m with raw := none }

def MethodDef.withBody (m : MethodDef) (b : Body) : MethodDef :=
  { m with body := some b, raw := none }

structure TypeDef where
  token : Token
  flags : UInt32
  /-- The full name; a nested type follows its outer type and a slash. -/
  name : String
  fields : List FieldDef
  methods : List MethodDef
  deriving DecidableEq, Repr

namespace TypeDef

def simpleName (t : TypeDef) : String :=
  CilEdit.simpleName t.name

def isNested (t : TypeDef) : Bool :=
  t.name.contains '/'

end TypeDef

/-- What a look-up of a method asks for: its name and, optionally, its parameters. -/
structure MethodQuery where
  name : String
  params : Option (List String)
  deriving DecidableEq, Repr

namespace MethodQuery

def accepts (q : MethodQuery) (m : MethodDef) : Bool :=
  m.name == q.name && (q.params.map m.signature.matchesParams).getD true

def text (q : MethodQuery) : String :=
  match q.params with
  | some params => q.name ++ "(" ++ ", ".intercalate params ++ ")"
  | none => q.name

end MethodQuery

namespace TypeDef

def methodIndex (t : TypeDef) (q : MethodQuery) : Except Error Nat :=
  match t.methods.zipIdx.filter fun (m, _) => q.accepts m with
  | [] => .error (.methodNotFound t.name q.text)
  | [(_, index)] => .ok index
  | _ => .error (.ambiguousSymbol s!"{t.name}::{q.text}")

def findMethod (t : TypeDef) (q : MethodQuery) : Except Error MethodDef := do
  let index ← t.methodIndex q
  match t.methods[index]? with
  | some m => return m
  | none => throw (.methodNotFound t.name q.text)

def findField (t : TypeDef) (name : String) : Except Error FieldDef :=
  match t.fields.find? fun f => f.name == name with
  | some f => .ok f
  | none => .error (.fieldNotFound t.name name)

end TypeDef

end CilEdit

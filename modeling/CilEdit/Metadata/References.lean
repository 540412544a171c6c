import CilEdit.Metadata.Module

namespace CilEdit

abbrev References := List Module

namespace References

def get? (r : References) (name : String) : Option Module :=
  r.find? fun m => m.name == name

/-- The one module that defines a type, with the type. -/
def findType (r : References) (typeName : String) : Except Error (Module × TypeDef) :=
  match r.filterMap fun m => (m.types.find? fun t => t.name == typeName).map fun t => (m, t) with
  | [] => .error (.typeNotFound (", ".intercalate (r.map Module.name)) typeName)
  | [found] => .ok found
  | _ => .error (.ambiguousSymbol typeName)

def findMethod (r : References) (typeName : String) (q : MethodQuery) :
    Except Error (Module × MethodDef) := do
  let (m, t) ← r.findType typeName
  return (m, ← t.findMethod q)

def findField (r : References) (typeName name : String) : Except Error (Module × FieldDef) := do
  let (m, t) ← r.findType typeName
  return (m, ← t.findField name)

/-- The definition of a method symbol; the method must have exactly the symbol's signature. -/
def resolveMethod (r : References) (symbol : Symbol) : Except Error MethodDef :=
  match symbol with
  | .member scope typeName name (.method signature) =>
    match r.get? scope with
    | none => .error (.typeNotFound scope typeName)
    | some m => do
      let method ← m.findMethod typeName ⟨name, some signature.params⟩
      if method.signature = signature then return method
      else throw (.methodNotFound typeName symbol.text)
  | _ => .error (.methodNotFound "" symbol.text)

end References

end CilEdit

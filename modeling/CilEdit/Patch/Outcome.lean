namespace CilEdit

structure Outcome where
  name : String
  method : String
  replaced : Nat
  inserted : Nat
  deriving DecidableEq, Repr

def Outcome.text (o : Outcome) : String :=
  s!"{o.name}: {o.replaced} replaced, {o.inserted} inserted in {o.method}"

def qualifiedName (typeName methodName : String) : String :=
  s!"{typeName}::{methodName}"

end CilEdit

namespace CilEdit

/-- The part of a type name after the last namespace dot or nesting slash. -/
def simpleName (fullName : String) : String :=
  String.ofList (fullName.toList.reverse.takeWhile fun c => c != '.' && c != '/').reverse

structure Signature where
  hasThis : Bool
  params : List String
  returnType : String
  deriving DecidableEq, Repr, Inhabited

namespace Signature

def void : String := "System.Void"

def ofInstance (params : List String) (returnType : String) : Signature :=
  ⟨true, params, returnType⟩

def ofStatic (params : List String) (returnType : String) : Signature :=
  ⟨false, params, returnType⟩

def returnsValue (s : Signature) : Bool :=
  s.returnType != void

/-- The stack slots that a call takes, the receiver included. -/
def callPops (s : Signature) : Nat :=
  s.params.length + s.hasThis.toNat

/-- Whether the parameters are those of a query, which may give full or simple names. -/
def matchesParams (s : Signature) (query : List String) : Bool :=
  s.params.length == query.length &&
    (s.params.zip query).all fun (param, wanted) => param == wanted || simpleName param == wanted

def text (s : Signature) : String :=
  (if s.hasThis then "" else "static ")
    ++ s.returnType ++ "(" ++ ", ".intercalate s.params ++ ")"

end Signature

end CilEdit

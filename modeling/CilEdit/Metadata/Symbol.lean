import CilEdit.Metadata.Signature
import CilEdit.Metadata.Token

namespace CilEdit

inductive MemberKind
  | method (signature : Signature)
  | field (type : String)
  deriving DecidableEq, Repr

def MemberKind.signature? : MemberKind → Option Signature
  | .method signature => some signature
  | .field _ => none

structure TypeRef where
  token : Token
  scope : String
  name : String
  deriving DecidableEq, Repr

structure MemberRef where
  token : Token
  parent : Token
  name : String
  kind : MemberKind
  deriving DecidableEq, Repr

inductive Symbol
  | type (scope name : String)
  | member (scope typeName name : String) (kind : MemberKind)
  deriving DecidableEq, Repr

def Symbol.text : Symbol → String
  | .type scope name => s!"[{scope}]{name}"
  | .member scope typeName name (.method signature) =>
    s!"[{scope}]{typeName}::{name} {signature.text}"
  | .member scope typeName name (.field fieldType) =>
    s!"[{scope}]{typeName}::{name} : {fieldType}"

end CilEdit

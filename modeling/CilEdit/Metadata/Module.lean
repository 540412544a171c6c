import CilEdit.Code.StackDepth
import CilEdit.Metadata.Definition
import CilEdit.Metadata.Symbol
import CilEdit.Step

/-!
Modules: definitions, references to other modules, and string literals.

A token that a module has handed out keeps its meaning: the tables of references and strings only
grow, and the same symbol or string is entered once.
-/

namespace CilEdit

structure Module where
  name : String
  types : List TypeDef
  typeRefs : List TypeRef
  memberRefs : List MemberRef
  userStrings : List String
  deriving DecidableEq, Repr

namespace Module

def empty (name : String) : Module :=
  ⟨name, [], [], [], []⟩

def methods (m : Module) : List MethodDef :=
  m.types.flatMap TypeDef.methods

def fields (m : Module) : List FieldDef :=
  m.types.flatMap TypeDef.fields

def typeIndex (m : Module) (name : String) : Except Error Nat :=
  match m.types.findIdx? fun t => t.name == name with
  | some index => .ok index
  | none => .error (.typeNotFound m.name name)

def findType (m : Module) (name : String) : Except Error TypeDef :=
  match m.types.find? fun t => t.name == name with
  | some t => .ok t
  | none => .error (.typeNotFound m.name name)

def findMethod (m : Module) (typeName : String) (q : MethodQuery) : Except Error MethodDef := do
  (← m.findType typeName).findMethod q

def findField (m : Module) (typeName name : String) : Except Error FieldDef := do
  (← m.findType typeName).findField name

def typeOf? (m : Module) (token : Token) : Option TypeDef :=
  m.types.find? fun t => t.token == token

def methodOf? (m : Module) (token : Token) : Option MethodDef :=
  m.methods.find? fun method => method.token == token

def fieldOf? (m : Module) (token : Token) : Option FieldDef :=
  m.fields.find? fun field => field.token == token

def rowOf? {α : Type} (rows : List α) (table : Nat) (token : Token) : Option α :=
  if token.table = table ∧ token.row ≠ 0 then rows[token.row - 1]? else none

def typeRefOf? (m : Module) (token : Token) : Option TypeRef :=
  rowOf? m.typeRefs Token.typeRef token

def memberRefOf? (m : Module) (token : Token) : Option MemberRef :=
  rowOf? m.memberRefs Token.memberRef token

def userStringOf? (m : Module) (token : Token) : Option String :=
  rowOf? m.userStrings Token.userString token

def signatureOf? (m : Module) (token : Token) : Option Signature :=
  if token.table = Token.methodDef then (m.methodOf? token).map MethodDef.signature
  else if token.table = Token.memberRef then
    (m.memberRefOf? token).bind fun member => member.kind.signature?
  else none

def memberSymbol? (m : Module) (token : Token) (t : TypeDef) : Option Symbol :=
  match t.methods.find? fun method => method.token == token with
  | some method => some (.member m.name t.name method.name (.method method.signature))
  | none =>
    (t.fields.find? fun field => field.token == token).map fun field =>
      .member m.name t.name field.name (.field field.type)

def importedSymbol (m : Module) (member : MemberRef) : Except Error Symbol :=
  match m.typeRefOf? member.parent with
  | some parent => .ok (.member parent.scope parent.name member.name member.kind)
  | none => .error (.unresolvedToken member.parent)

/-- What a token names, told without the module's own numbering. -/
def symbol (m : Module) (token : Token) : Except Error Symbol :=
  let known (found : Option Symbol) : Except Error Symbol :=
    match found with
    | some symbol => .ok symbol
    | none => .error (.unresolvedToken token)
  if token.table = Token.typeDef then
    known ((m.typeOf? token).map fun t => .type m.name t.name)
  else if token.table = Token.typeRef then
    known ((m.typeRefOf? token).map fun r => .type r.scope r.name)
  else if token.table = Token.methodDef ∨ token.table = Token.fieldDef then
    known (m.types.findSome? (m.memberSymbol? token))
  else
    match m.memberRefOf? token with
    | some member => m.importedSymbol member
    | none => .error (.unresolvedToken token)

def resolves (m : Module) (token : Token) : Bool :=
  if token.table = Token.userString then (m.userStringOf? token).isSome
  else (m.symbol token).isOk

def tokenOperands (m : Module) : List Token :=
  (m.methods.filterMap MethodDef.body).flatMap fun b =>
    b.entries.filterMap fun (_, i) =>
      match i.operand with
      | .token t => some t
      | _ => none

def validateTokens (m : Module) : Except Error Unit :=
  match m.tokenOperands.find? fun t => !m.resolves t with
  | some t => .error (.unresolvedToken t)
  | none => .ok ()

/-- The row after the existing rows of a table, which may have gaps. -/
def nextRow (tokens : List Token) : Nat :=
  (tokens.map Token.row).foldl max 0 + 1

def addType (m : Module) (name : String) (flags : UInt32) : Token × Module :=
  let token := Token.ofParts Token.typeDef (m.types.length + 1)
  (token, { m with types := m.types ++ [⟨token, flags, name, [], []⟩] })

def modifyOwner (m : Module) (owner : Token) (change : TypeDef → TypeDef) : Except Error Module :=
  match m.types.findIdx? fun t => t.token == owner with
  | some index => .ok { m with types := m.types.modify index change }
  | none => .error (.unresolvedToken owner)

def setTypeFlags (m : Module) (name : String) (flags : UInt32) : Except Error Module :=
  (m.typeIndex name).map fun index =>
    { m with types := m.types.modify index fun t => { t with flags } }

def addField (m : Module) (owner : Token) (flags : UInt32) (name type : String) :
    Except Error (Token × Module) :=
  let token := Token.ofParts Token.fieldDef (nextRow (m.fields.map FieldDef.token))
  (m.modifyOwner owner fun t => { t with fields := t.fields ++ [⟨token, flags, name, type⟩] }).map
    fun m => (token, m)

def addMethod (m : Module) (owner : Token) (flags : MethodFlags) (name : String)
    (signature : Signature) (body : Option Body) : Except Error (Token × Module) :=
  let token := Token.ofParts Token.methodDef (nextRow (m.methods.map MethodDef.token))
  let method := ⟨token, flags, name, signature, body, none⟩
  (m.modifyOwner owner fun t => { t with methods := t.methods ++ [method] }).map
    fun m => (token, m)

/-- The place of a method: the index of its type and its index in the type. -/
structure MethodPlace where
  type : Nat
  method : Nat
  deriving DecidableEq, Repr

def placeMethod (m : Module) (typeName : String) (q : MethodQuery) :
    Except Error MethodPlace := do
  let t ← m.findType typeName
  return ⟨← m.typeIndex typeName, ← t.methodIndex q⟩

def methodAt? (m : Module) (place : MethodPlace) : Option MethodDef :=
  m.types[place.type]?.bind fun t => t.methods[place.method]?

def modifyMethod (m : Module) (place : MethodPlace) (change : MethodDef → MethodDef) : Module :=
  { m with
    types := m.types.modify place.type fun t =>
      { t with methods := t.methods.modify place.method change } }

/-- The token of a string, which is entered on first use. -/
def userString (m : Module) (value : String) : Token × Module :=
  match m.userStrings.idxOf? value with
  | some index => (Token.ofParts Token.userString (index + 1), m)
  | none =>
    (Token.ofParts Token.userString (m.userStrings.length + 1),
      { m with userStrings := m.userStrings ++ [value] })

def importedType? (m : Module) (scope name : String) : Option TypeRef :=
  m.typeRefs.find? fun r => r.scope == scope && r.name == name

def addTypeRef (m : Module) (scope name : String) : Token × Module :=
  let token := Token.ofParts Token.typeRef (m.typeRefs.length + 1)
  (token, { m with typeRefs := m.typeRefs ++ [⟨token, scope, name⟩] })

/-- The token of an imported type, which is entered on first use. -/
def importType (m : Module) (scope name : String) : Token × Module :=
  match m.importedType? scope name with
  | some row => (row.token, m)
  | none => m.addTypeRef scope name

def importedMember? (m : Module) (parent : Token) (name : String) (kind : MemberKind) :
    Option MemberRef :=
  m.memberRefs.find? fun r => r.parent == parent && r.name == name && r.kind == kind

def addMemberRef (m : Module) (parent : Token) (name : String) (kind : MemberKind) :
    Token × Module :=
  let token := Token.ofParts Token.memberRef (m.memberRefs.length + 1)
  (token, { m with memberRefs := m.memberRefs ++ [⟨token, parent, name, kind⟩] })

def importMember (m : Module) (scope typeName name : String) (kind : MemberKind) :
    Token × Module :=
  let (parent, m) := m.importType scope typeName
  match m.importedMember? parent name kind with
  | some row => (row.token, m)
  | none => m.addMemberRef parent name kind

/-- The token of a method of another module; a method that `source` does not have is no reason to
enter its type. -/
def importMethod (source : Module) (typeName : String) (q : MethodQuery) :
    Step Error Module Token := do
  let method ← Step.ofExcept (source.findMethod typeName q)
  Step.modifyGet (·.importMember source.name typeName method.name (.method method.signature))

def importField (source : Module) (typeName name : String) : Step Error Module Token := do
  let field ← Step.ofExcept (source.findField typeName name)
  Step.modifyGet (·.importMember source.name typeName field.name (.field field.type))

end Module

end CilEdit

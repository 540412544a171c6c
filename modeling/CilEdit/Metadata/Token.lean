import CilEdit.Text.Hex

namespace CilEdit

/-- A table number in the high byte and a one-based row in the low 24 bits. -/
structure Token where
  value : UInt32
  deriving DecidableEq, Repr, Inhabited

namespace Token

def typeRef : Nat := 0x01

def typeDef : Nat := 0x02

def fieldDef : Nat := 0x04

def methodDef : Nat := 0x06

def memberRef : Nat := 0x0A

def userString : Nat := 0x70

def maxRow : Nat := 0xFFFFFF

def null : Token := ⟨0⟩

/-- The token of a row; row numbers are reduced to 24 bits. -/
def ofParts (table row : Nat) : Token :=
  ⟨UInt32.ofNat (table * 0x1000000 + row % 0x1000000)⟩

def table (t : Token) : Nat :=
  t.value.toNat / 0x1000000

def row (t : Token) : Nat :=
  t.value.toNat % 0x1000000

def isRowOf (t : Token) (table count : Nat) : Bool :=
  t.table = table ∧ t.row ≠ 0 ∧ t.row ≤ count

def isNull (t : Token) : Bool :=
  t.value == 0

/-- Whether the token names something that another module defines. -/
def isReference (t : Token) : Bool :=
  t.table == typeRef || t.table == memberRef

def text (t : Token) : String :=
  Text.Hex.marked 8 t.value.toNat

def ofText? (text : String) : Option Token :=
  match text.toList with
  | '0' :: 'x' :: digits =>
    ((Text.Hex.nat? digits).filter (· < UInt32.size)).map fun n => ⟨UInt32.ofNat n⟩
  | _ => none

def describe (t : Token) : String :=
  s!"Token({t.text}, table: {Text.Hex.marked 2 t.table}, row: {t.row})"

theorem table_ofParts {table row : Nat} (htable : table < 256) :
    (ofParts table row).table = table := by
  simp only [Token.table, ofParts, UInt32.toNat_ofNat']
  omega

theorem row_ofParts (table row : Nat) : (ofParts table row).row = row % 0x1000000 := by
  simp only [Token.row, ofParts, UInt32.toNat_ofNat']
  omega

theorem ofParts_table_row (t : Token) : ofParts t.table t.row = t := by
  cases t with
  | mk value =>
      have hlt := value.toNat_lt
      simp only [ofParts, Token.table, Token.row, Token.mk.injEq]
      apply UInt32.toNat_inj.mp
      simp only [UInt32.toNat_ofNat']
      omega

end Token

end CilEdit

import CilEdit.Text.Hex

namespace CilEdit

def offsetLabel (offset : Nat) : String :=
  "IL_" ++ Text.Hex.padded 4 offset

inductive Locator
  | offset (offset : Nat)
  | index (index : Nat)
  deriving DecidableEq, Repr

def Locator.text : Locator → String
  | .offset n => offsetLabel n
  | .index n => s!"#{n}"

structure Drift where
  offset : Option Nat
  index : Option Nat
  expected : String
  actual : String
  deriving DecidableEq, Repr

namespace Drift

def between (expected actual : String) : Drift :=
  ⟨none, none, expected, actual⟩

def locate (d : Drift) : Locator → Drift
  | .offset n => { d with offset := some n }
  | .index n => { d with index := some n }

/-- The report of a mismatch; an offset is preferred to an index. -/
def text (d : Drift) : String :=
  let place := match d.offset, d.index with
    | some offset, _ => offsetLabel offset ++ ": "
    | none, some index => s!"#{index}: "
    | none, none => ""
  place ++ s!"expected {d.expected}, got {d.actual}"

def join (drifts : List Drift) : String :=
  "; ".intercalate (drifts.map text)

end Drift

end CilEdit

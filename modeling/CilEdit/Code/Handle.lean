namespace CilEdit

/-- The identity of a body. Bodies made by one load or creation share its `origin` and differ in
`row`, the row of the method that owns the body; a body made on its own has row zero. -/
structure BodyId where
  origin : Nat
  row : Nat
  deriving DecidableEq, Repr, Inhabited

/-- The name of one instruction: the body that issued it and a slot of that body's arena. A slot
number is stored in 32 bits. The size of the code bounds the arena far below 2^32 slots, so numbers
do not wrap and are taken as they are. -/
structure Handle where
  body : BodyId
  slot : Nat
  deriving DecidableEq, Repr, Inhabited

def Handle.text (h : Handle) : String :=
  s!"@{h.slot}"

end CilEdit

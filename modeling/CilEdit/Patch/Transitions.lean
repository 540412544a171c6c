import CilEdit.Patch.Descriptor

namespace CilEdit.Transitions

def name : String := "slow-menu-transitions"

def typeName : String := "StartGame/<Start>c__Iterator10"

def methodName : String := "MoveNext"

def offsets : List Nat :=
  [0x0062, 0x0129, 0x01b9, 0x0209, 0x023a, 0x026c, 0x02be, 0x02ef, 0x0321]

/-- The new duration, 0.0001 as a 32-bit float. -/
def duration : Operand Handle :=
  .immediate (.float32 0x38D1B717)

/-- The patch: nine literals, none of which may be the new duration yet. -/
def descriptor : Descriptor where
  name := name
  description := "shorten main menu fade transitions"
  typeName := typeName
  methodName := methodName
  sites := offsets.map fun offset =>
    ⟨.offset offset, ⟨.ldcR4, .notEquals duration⟩, .replace duration⟩

end CilEdit.Transitions

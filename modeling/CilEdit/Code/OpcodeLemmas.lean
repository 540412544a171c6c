import CilEdit.Code.Opcode
import Mathlib.Data.List.Nodup

namespace CilEdit.Opcode

theorem mem_all (op : Opcode) : op ∈ all := by
  cases op <;> decide +kernel

theorem ascending_all : (all.map fun op => op.value.toNat).IsChain (· < ·) := by
  decide +kernel

theorem value_inj {a b : Opcode} : a.value = b.value ↔ a = b := by
  constructor
  · intro h
    have hnodup : (all.map fun op => op.value.toNat).Nodup :=
      (List.isChain_iff_pairwise.mp ascending_all).imp fun h => Nat.ne_of_lt h
    exact List.inj_on_of_nodup_map hnodup (mem_all a) (mem_all b) (congrArg UInt16.toNat h)
  · rintro rfl
    rfl

theorem value_of_ofValue? {value : UInt16} {op : Opcode} (h : ofValue? value = some op) :
    op.value = value := by
  simpa using List.find?_some h

theorem ofValue?_value (op : Opcode) : ofValue? op.value = some op := by
  cases hfound : ofValue? op.value with
  | none =>
      have hne := List.find?_eq_none.mp hfound op (mem_all op)
      exact absurd (beq_self_eq_true op.value) hne
  | some found => rw [value_inj.mp (value_of_ofValue? hfound)]

theorem exists_long {op : Opcode} (h : op.operand = .shortTarget) :
    ∃ long, op.long? = some long ∧ long.operand = .target ∧ long.flow = op.flow ∧
      long.pops = op.pops ∧ long.pushes = op.pushes := by
  cases op <;> first | exact ⟨_, rfl, rfl, rfl, rfl, rfl⟩ | cases h

end CilEdit.Opcode

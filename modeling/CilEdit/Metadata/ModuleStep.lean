import CilEdit.Metadata.References
import CilEdit.Step

namespace CilEdit

abbrev ModuleStep (α : Type) : Type :=
  Step Error Module α

/-- Opens the body of a method for editing and runs an edit on it; the edited body stays there. -/
def ModuleStep.editBody {α : Type} (place : Module.MethodPlace) (b : Body)
    (edit : Step Error Body α) : ModuleStep α := fun m =>
  let (result, b) := edit b
  (result, m.modifyMethod place fun method => method.withBody b)

theorem ModuleStep.editBody_eq_ok_iff {α : Type} {place : Module.MethodPlace} {b : Body}
    {edit : Step Error Body α} {m m' : Module} {a : α} : editBody place b edit m = (.ok a, m') ↔
      ∃ b', edit b = (.ok a, b') ∧ m' = m.modifyMethod place fun method => method.withBody b' := by
  rw [editBody]
  constructor
  · intro h
    match hrun : edit b with
    | (result, b') =>
        rw [hrun] at h
        cases h
        exact ⟨b', rfl, rfl⟩
  · rintro ⟨b', hrun, rfl⟩
    rw [hrun]

end CilEdit

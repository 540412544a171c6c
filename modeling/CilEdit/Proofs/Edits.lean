import CilEdit.Body.Sequence
import CilEdit.Proofs.Positions

namespace CilEdit

inductive Edit
  | push (i : Instruction Handle)
  | replace (h : Handle) (i : Instruction Handle)
  | remove (h : Handle)
  | splice (anchor : Handle) (s : Sequence)

def Edit.apply : Edit → Body → Body
  | .push i, b => (b.push i).2
  | .replace h i, b => (Body.replace h i b).2
  | .remove h, b => (Body.remove h b).2
  | .splice anchor s, b => (Body.splice anchor s b).2

def Body.edited (b : Body) (edits : List Edit) : Body :=
  edits.foldl (fun b e => e.apply b) b

/-- What a call does to a body. -/
inductive Change : Edit → Body → Body → Prop
  | failed (e : Edit) (b : Body) : Change e b b
  | pushed {b : Body} {i : Instruction Handle} (shifted : Bool)
      (targets : ∀ t ∈ i.operand.targets, b.contains t = true) :
      Change (.push i) b { b.append i with shifted }
  | replaced {b : Body} {h : Handle} {i : Instruction Handle} (shifted : Bool)
      (attached : b.contains h = true) (targets : ∀ t ∈ i.operand.targets, b.contains t = true) :
      Change (.replace h i) b { b.overwrite h.slot i.opcode i.operand with shifted }
  | removed {b : Body} {h : Handle} (attached : b.contains h = true)
      (unused : b.referrers h = 0) : Change (.remove h) b (b.detach h.slot)
  | spliced {b : Body} {anchor : Handle} {s : Sequence} {position : Nat}
      {instructions : List (Instruction Handle)} (found : b.position anchor = some position)
      (resolved : s.resolve b = .ok instructions) :
      Change (.splice anchor s) b (b.insertAfter position instructions)

namespace Body

variable {b : Body} {h : Handle}

theorem contains_iff_checks :
    b.contains h = true ↔ b.owns h = true ∧ b.attached h.slot = true := by
  rw [contains, Bool.and_eq_true]

theorem checkAttached_eq_ok_iff : b.checkAttached h = .ok () ↔ b.contains h = true := by
  rw [contains_iff_checks, checkAttached]
  cases b.owns h <;> cases b.attached h.slot <;> simp

theorem checkTarget_eq_ok_iff : b.checkTarget h = .ok () ↔ b.contains h = true := by
  rw [contains_iff_checks, checkTarget]
  cases b.owns h <;> cases b.attached h.slot <;> simp

theorem forM_eq_ok_iff {α ε : Type} {f : α → Except ε Unit} {xs : List α} :
    xs.forM f = .ok () ↔ ∀ x ∈ xs, f x = .ok () := by
  induction xs with
  | nil => exact ⟨fun _ x hx => (List.not_mem_nil hx).elim, fun _ => rfl⟩
  | cons x xs ih =>
      change (f x >>= fun _ => xs.forM f) = .ok () ↔ _
      rw [bind_eq_ok]
      constructor
      · rintro ⟨⟨⟩, hx, hxs⟩ y hy
        rcases List.mem_cons.mp hy with rfl | hy
        · exact hx
        · exact ih.mp hxs y hy
      · intro hall
        exact ⟨(), hall x List.mem_cons_self, ih.mpr fun y hy => hall y (List.mem_cons_of_mem x hy)⟩

theorem checkTargets_eq_ok_iff {operand : Operand Handle} :
    b.checkTargets operand = .ok () ↔ ∀ t ∈ operand.targets, b.contains t = true := by
  rw [checkTargets, forM_eq_ok_iff]
  exact forall₂_congr fun _ _ => checkTarget_eq_ok_iff

theorem instruction_eq_ok_iff {i : Instruction Handle} :
    b.instruction h = .ok i ↔ b.contains h = true ∧ b.slots[h.slot]? = some ⟨i, true⟩ := by
  rw [instruction]
  constructor
  · intro hi
    split at hi
    · cases hi
    · rename_i hcheck
      have hmem := checkAttached_eq_ok_iff.mp hcheck
      obtain ⟨j, hj⟩ := exists_slot (contains_iff.mp hmem).2
      rw [hj] at hi ⊢
      cases hi
      exact ⟨hmem, rfl⟩
  · rintro ⟨hmem, hget⟩
    rw [checkAttached_eq_ok_iff.mpr hmem, hget]

theorem positionOf_eq_ok_iff {position : Nat} :
    b.positionOf h = .ok position ↔ b.position h = some position := by
  rw [positionOf]
  cases b.position h <;> simp

/-- A push succeeds exactly if every target is in the list. -/
theorem push_cases (i : Instruction Handle) (b : Body) :
    ((∀ t ∈ i.operand.targets, b.contains t = true) ∧
      push i b = (.ok b.next, { b.append i with shifted := b.shifted || i.offset.isNone })) ∨
      ∃ e, b.checkTargets i.operand = .error e ∧ push i b = (.error e, b) := by
  cases hcheck : b.checkTargets i.operand with
  | error e =>
      refine .inr ⟨e, rfl, ?_⟩
      simp only [push, Step.bind_apply, Step.read_apply, hcheck]
  | ok u =>
      refine .inl ⟨checkTargets_eq_ok_iff.mp hcheck, ?_⟩
      by_cases hoffset : i.offset.isNone = true
      · simp only [push, Step.bind_apply, Step.read_apply, hcheck, hoffset, Bool.or_true]
        rfl
      · simp only [push, Step.bind_apply, Step.read_apply, hcheck, hoffset, Bool.or_false]
        rfl

/-- A replacement succeeds exactly on an instruction of the list and with targets in the list. -/
theorem replace_cases (h : Handle) (i : Instruction Handle) (b : Body) :
    (∃ old, b.instruction h = .ok old ∧ (∀ t ∈ i.operand.targets, b.contains t = true) ∧
      replace h i b = (.ok (), { b.overwrite h.slot i.opcode i.operand with
        shifted := b.shifted || i.size != old.size })) ∨
      ∃ e, replace h i b = (.error e, b) ∧ (b.instruction h = .error e ∨
        b.contains h = true ∧ b.checkTargets i.operand = .error e) := by
  cases hold : b.instruction h with
  | error e =>
      refine .inr ⟨e, ?_, .inl rfl⟩
      simp only [replace, Step.bind_apply, Step.read_apply, hold]
  | ok old =>
      have hmem := (instruction_eq_ok_iff.mp hold).1
      cases hcheck : b.checkTargets i.operand with
      | error e =>
          refine .inr ⟨e, ?_, .inr ⟨hmem, rfl⟩⟩
          simp only [replace, Step.bind_apply, Step.read_apply, hold, hcheck]
      | ok u =>
          refine .inl ⟨old, rfl, checkTargets_eq_ok_iff.mp hcheck, ?_⟩
          have hattached := checkAttached_eq_ok_iff.mpr hmem
          by_cases hsize : (i.size != old.size) = true
          · simp only [replace, Step.bind_apply, Step.read_apply, hold, hcheck, hattached,
              Step.modify_apply, hsize, Bool.or_true]
            rfl
          · simp only [replace, Step.bind_apply, Step.read_apply, hold, hcheck, hattached,
              Step.modify_apply, hsize, Bool.or_false]
            rfl

/-- A removal succeeds exactly on an instruction of the list that nothing refers to. -/
theorem remove_cases (h : Handle) (b : Body) :
    (b.contains h = true ∧ b.referrers h = 0 ∧ remove h b = (.ok (), b.detach h.slot)) ∨
      (¬(b.contains h = true ∧ b.referrers h = 0) ∧ ∃ e, remove h b = (.error e, b)) := by
  cases hcheck : b.checkAttached h with
  | error e =>
      refine .inr ⟨fun hall => ?_, e, ?_⟩
      · rw [checkAttached_eq_ok_iff.mpr hall.1] at hcheck
        cases hcheck
      · simp only [remove, Step.bind_apply, Step.read_apply, hcheck]
  | ok u =>
      have hmem := checkAttached_eq_ok_iff.mp hcheck
      by_cases hused : b.referrers h > 0
      · refine .inr ⟨fun hall => ?_, .instructionInUse (b.referrers h), ?_⟩
        · rw [hall.2] at hused
          exact absurd hused (Nat.lt_irrefl 0)
        · simp only [remove, Step.bind_apply, Step.read_apply, hcheck, if_pos hused,
            Step.fail_apply]
      · have hposition := positionOf_eq_ok_iff.mpr (position_of_contains hmem)
        refine .inl ⟨hmem, Nat.eq_zero_of_not_pos hused, ?_⟩
        simp only [remove, Step.bind_apply, Step.read_apply, hcheck, if_neg hused, hposition,
          Step.modify_apply]

/-- A splice succeeds exactly after an instruction of the list, with a sequence that is not empty
and can be resolved. -/
theorem splice_cases (anchor : Handle) (s : Sequence) (b : Body) :
    (∃ position instructions, b.position anchor = some position ∧ s.checkFilled = .ok () ∧
      s.resolve b = .ok instructions ∧ splice anchor s b =
        (.ok ⟨s.id, b.next, b.nextHandles instructions.length, s.labels⟩,
          b.insertAfter position instructions)) ∨
      ∃ e, splice anchor s b = (.error e, b) ∧ (b.checkAttached anchor = .error e ∨
        b.contains anchor = true ∧
          (s.checkFilled = .error e ∨ s.checkFilled = .ok () ∧ s.resolve b = .error e)) := by
  cases hcheck : b.checkAttached anchor with
  | error e =>
      refine .inr ⟨e, ?_, .inl rfl⟩
      simp only [splice, Step.bind_apply, Step.read_apply, hcheck]
  | ok u =>
      have hmem := checkAttached_eq_ok_iff.mp hcheck
      have hposition := position_of_contains hmem
      have hfound := positionOf_eq_ok_iff.mpr hposition
      cases hfilled : s.checkFilled with
      | error e =>
          refine .inr ⟨e, ?_, .inr ⟨hmem, .inl rfl⟩⟩
          simp only [splice, Step.bind_apply, Step.read_apply, hcheck, hfound,
            Step.ofExcept_apply, hfilled]
      | ok v =>
          cases hresolved : s.resolve b with
          | error e =>
              refine .inr ⟨e, ?_, .inr ⟨hmem, .inr ⟨rfl, rfl⟩⟩⟩
              simp only [splice, Step.bind_apply, Step.read_apply, hcheck, hfound,
                Step.ofExcept_apply, hfilled, hresolved]
          | ok instructions =>
              refine .inl ⟨b.rank anchor, instructions, hposition, rfl, rfl, ?_⟩
              simp only [splice, Step.bind_apply, Step.read_apply, hcheck, hfound,
                Step.ofExcept_apply, hfilled, hresolved, Step.modify_apply, Step.pure_apply]

theorem splice_eq_ok_iff {anchor : Handle} {s : Sequence} {b b' : Body} {spliced : Spliced} :
    splice anchor s b = (.ok spliced, b') ↔ ∃ position instructions,
      b.position anchor = some position ∧ s.checkFilled = .ok () ∧ s.resolve b = .ok instructions ∧
        spliced = ⟨s.id, b.next, b.nextHandles instructions.length, s.labels⟩ ∧
          b' = b.insertAfter position instructions := by
  rcases splice_cases anchor s b with ⟨position, instructions, hfound, hfilled, hresolved, heq⟩ |
    ⟨e, heq, herror⟩
  · rw [heq]
    constructor
    · intro h
      cases h
      exact ⟨position, instructions, hfound, hfilled, hresolved, rfl, rfl⟩
    · rintro ⟨position', instructions', hfound', -, hresolved', rfl, rfl⟩
      rw [hfound] at hfound'
      rw [hresolved] at hresolved'
      cases hfound'
      cases hresolved'
      rfl
  · rw [heq]
    refine ⟨nofun, ?_⟩
    rintro ⟨position, instructions, hfound, hfilled, hresolved, -⟩
    have hmem : b.contains anchor = true := by
      rw [← isSome_position, hfound]
      rfl
    rcases herror with herror | ⟨-, herror | ⟨-, herror⟩⟩
    · rw [checkAttached_eq_ok_iff.mpr hmem] at herror
      cases herror
    · rw [hfilled] at herror
      cases herror
    · rw [hresolved] at herror
      cases herror

theorem change_push (i : Instruction Handle) (b : Body) : Change (.push i) b (b.push i).2 := by
  rcases push_cases i b with ⟨htargets, heq⟩ | ⟨e, -, heq⟩
  · rw [heq]
    exact .pushed _ htargets
  · rw [heq]
    exact .failed _ b

theorem change_replace (h : Handle) (i : Instruction Handle) (b : Body) :
    Change (.replace h i) b (replace h i b).2 := by
  rcases replace_cases h i b with ⟨old, hold, htargets, heq⟩ | ⟨e, heq, -⟩
  · rw [heq]
    exact .replaced _ (instruction_eq_ok_iff.mp hold).1 htargets
  · rw [heq]
    exact .failed _ b

theorem change_remove (h : Handle) (b : Body) : Change (.remove h) b (remove h b).2 := by
  rcases remove_cases h b with ⟨hmem, hunused, heq⟩ | ⟨-, e, heq⟩
  · rw [heq]
    exact .removed hmem hunused
  · rw [heq]
    exact .failed _ b

theorem change_splice (anchor : Handle) (s : Sequence) (b : Body) :
    Change (.splice anchor s) b (splice anchor s b).2 := by
  rcases splice_cases anchor s b with ⟨position, instructions, hfound, -, hresolved, heq⟩ |
    ⟨e, heq, -⟩
  · rw [heq]
    exact .spliced hfound hresolved
  · rw [heq]
    exact .failed _ b

end Body

theorem Edit.change_apply (e : Edit) (b : Body) : Change e b (e.apply b) := by
  cases e with
  | push i => exact Body.change_push i b
  | replace h i => exact Body.change_replace h i b
  | remove h => exact Body.change_remove h b
  | splice anchor s => exact Body.change_splice anchor s b

/-- What every change keeps holds after any run of calls. -/
theorem Body.edited_induction {P : Body → Prop} {Allowed : Edit → Prop}
    (step : ∀ e b b', Allowed e → Change e b b' → P b → P b') {b : Body} (hb : P b)
    (edits : List Edit) (hall : ∀ e ∈ edits, Allowed e) : P (b.edited edits) := by
  induction edits generalizing b with
  | nil => exact hb
  | cons e edits ih =>
      have hnext := step e b (e.apply b) (hall e List.mem_cons_self) (e.change_apply b) hb
      exact ih hnext fun e' he' => hall e' (List.mem_cons_of_mem e he')

end CilEdit

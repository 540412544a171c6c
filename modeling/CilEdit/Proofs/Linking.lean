import CilEdit.Proofs.Decoding
import CilEdit.Proofs.Edits

namespace CilEdit

namespace Body

variable {b : Body} {t : Handle} {n : Nat} {i j : Instruction Handle}

theorem contains_iff_slot :
    b.contains t = true ↔ t.body = b.id ∧ ∃ i, b.slots[t.slot]? = some ⟨i, true⟩ := by
  rw [contains_iff]
  refine and_congr_right fun _ => ⟨exists_slot, ?_⟩
  rintro ⟨i, hi⟩
  rw [b.mem_order_iff, hi]
  rfl

theorem slot_append :
    (b.append i).slots[n]? = some ⟨j, true⟩ ↔
      n = b.slots.size ∧ j = i ∨ b.slots[n]? = some ⟨j, true⟩ := by
  change (b.slots.push ⟨i, true⟩)[n]? = _ ↔ _
  rw [Array.getElem?_push]
  by_cases hn : n = b.slots.size
  · subst hn
    simp [eq_comm]
  · simp [hn]

theorem slot_overwrite {slot : Nat} {opcode : Opcode} {operand : Operand Handle} :
    (b.overwrite slot opcode operand).slots[n]? = some ⟨j, true⟩ ↔
      ∃ old, b.slots[n]? = some ⟨old, true⟩ ∧
        j = if slot = n then { old with opcode, operand } else old := by
  change (b.slots.modify slot _)[n]? = _ ↔ _
  rw [Array.getElem?_modify]
  by_cases hn : slot = n
  · subst hn
    simp only [if_true, Option.map_eq_some_iff, Slot.mk.injEq]
    constructor
    · rintro ⟨⟨old, attached⟩, hold, hj, hattached⟩
      cases hattached
      exact ⟨old, hold, hj.symm⟩
    · rintro ⟨old, hold, rfl⟩
      exact ⟨⟨old, true⟩, hold, rfl, rfl⟩
  · simp [hn, eq_comm]

theorem slot_detach {slot : Nat} :
    (b.detach slot).slots[n]? = some ⟨j, true⟩ ↔ n ≠ slot ∧ b.slots[n]? = some ⟨j, true⟩ := by
  change (b.slots.modify slot _)[n]? = _ ↔ _
  rw [Array.getElem?_modify]
  by_cases hn : slot = n
  · subst hn
    simp
  · simp [hn, Ne.symm hn]

theorem slot_insertAfter {position : Nat} {instructions : List (Instruction Handle)} :
    (b.insertAfter position instructions).slots[n]? = some ⟨j, true⟩ ↔
      b.slots[n]? = some ⟨j, true⟩ ∨
        b.slots.size ≤ n ∧ instructions[n - b.slots.size]? = some j := by
  change (b.slots ++ (instructions.map fun i => Slot.mk i true).toArray)[n]? = _ ↔ _
  rw [Array.getElem?_append]
  by_cases hn : n < b.slots.size
  · simp [hn, Nat.not_le.mpr hn]
  · simp [hn, Nat.not_lt.mp hn]

theorem contains_append : (b.append i).contains t = true ↔ b.contains t = true ∨ t = b.next := by
  rw [contains_iff_slot, contains_iff_slot]
  simp only [slot_append]
  constructor
  · rintro ⟨hbody, j, ⟨hslot, -⟩ | hj⟩
    · refine .inr ?_
      cases t
      cases hslot
      cases hbody
      rfl
    · exact .inl ⟨hbody, j, hj⟩
  · rintro (⟨hbody, j, hj⟩ | rfl)
    · exact ⟨hbody, j, .inr hj⟩
    · exact ⟨rfl, i, .inl ⟨rfl, rfl⟩⟩

theorem contains_overwrite {slot : Nat} {opcode : Opcode} {operand : Operand Handle} :
    (b.overwrite slot opcode operand).contains t = true ↔ b.contains t = true := by
  rw [contains_iff_slot, contains_iff_slot]
  simp only [slot_overwrite]
  constructor
  · rintro ⟨hbody, j, old, hold, -⟩
    exact ⟨hbody, old, hold⟩
  · rintro ⟨hbody, old, hold⟩
    exact ⟨hbody, _, old, hold, rfl⟩

theorem contains_detach {slot : Nat} :
    (b.detach slot).contains t = true ↔ t.slot ≠ slot ∧ b.contains t = true := by
  rw [contains_iff_slot, contains_iff_slot]
  simp only [slot_detach]
  constructor
  · rintro ⟨hbody, j, hne, hj⟩
    exact ⟨hne, hbody, j, hj⟩
  · rintro ⟨hne, hbody, j, hj⟩
    exact ⟨hbody, j, hne, hj⟩

theorem contains_insertAfter {position : Nat} {instructions : List (Instruction Handle)} :
    (b.insertAfter position instructions).contains t = true ↔
      b.contains t = true ∨ ∃ k < instructions.length, t = b.handle (b.slots.size + k) := by
  rw [contains_iff_slot, contains_iff_slot]
  simp only [slot_insertAfter]
  constructor
  · rintro ⟨hbody, j, hj | ⟨hle, hj⟩⟩
    · exact .inl ⟨hbody, j, hj⟩
    · refine .inr ⟨t.slot - b.slots.size, (List.getElem?_eq_some_iff.mp hj).1, ?_⟩
      cases t
      cases hbody
      exact congrArg (Handle.mk b.id) (Nat.add_sub_cancel' hle).symm
  · rintro (⟨hbody, j, hj⟩ | ⟨k, hk, rfl⟩)
    · exact ⟨hbody, j, .inl hj⟩
    · refine ⟨rfl, instructions[k], .inr ⟨Nat.le_add_right _ _, ?_⟩⟩
      rw [handle, Nat.add_sub_cancel_left, List.getElem?_eq_getElem hk]

theorem linked_iff :
    b.Linked ↔ (∀ (n : Nat) (i : Instruction Handle), b.slots[n]? = some ⟨i, true⟩ →
      ∀ t ∈ i.operand.targets, b.contains t = true) ∧
        ∀ h ∈ b.handlers, ∀ t ∈ h.boundaries, b.contains t = true := by
  constructor
  · rintro ⟨htargets, hboundaries⟩
    refine ⟨?_, hboundaries⟩
    intro n i hi
    have hmem : b.contains (b.handle n) = true := contains_iff_slot.mpr ⟨rfl, i, hi⟩
    exact htargets (b.handle n, i) (mem_entries_iff.mpr ⟨hmem, hi⟩)
  · rintro ⟨htargets, hboundaries⟩
    refine ⟨?_, hboundaries⟩
    rintro ⟨h, i⟩ he
    exact htargets h.slot i (mem_entries_iff.mp he).2

theorem referrers_eq_zero_iff : b.referrers t = 0 ↔
    (∀ e ∈ b.entries, t ∉ e.2.operand.targets) ∧ ∀ h ∈ b.handlers, t ∉ h.boundaries := by
  rw [referrers, Nat.add_eq_zero_iff, List.count_eq_zero, List.count_eq_zero, List.mem_flatMap,
    List.mem_flatMap]
  simp only [not_exists, not_and]

theorem Linked.withShifted (hb : b.Linked) (shifted : Bool) : { b with shifted }.Linked :=
  ⟨hb.targets, hb.boundaries⟩

theorem Linked.append (hb : b.Linked) (htargets : ∀ t ∈ i.operand.targets, b.contains t = true) :
    (b.append i).Linked := by
  rw [linked_iff] at hb ⊢
  constructor
  · intro n j hj t ht
    apply contains_append.mpr
    rcases slot_append.mp hj with ⟨-, rfl⟩ | hold
    · exact .inl (htargets t ht)
    · exact .inl (hb.1 n j hold t ht)
  · intro h hh t ht
    exact contains_append.mpr (.inl (hb.2 h hh t ht))

theorem Linked.overwrite (hb : b.Linked) {slot : Nat} {opcode : Opcode} {operand : Operand Handle}
    (htargets : ∀ t ∈ operand.targets, b.contains t = true) :
    (b.overwrite slot opcode operand).Linked := by
  rw [linked_iff] at hb ⊢
  constructor
  · intro n j hj t ht
    apply contains_overwrite.mpr
    obtain ⟨old, hold, rfl⟩ := slot_overwrite.mp hj
    split at ht
    · exact htargets t ht
    · exact hb.1 n old hold t ht
  · intro h hh t ht
    exact contains_overwrite.mpr (hb.2 h hh t ht)

theorem slot_ne_of_ne {s : Handle} (hs : b.contains s = true) (ht : b.contains t = true)
    (hne : s ≠ t) : s.slot ≠ t.slot := by
  intro heq
  have hbody := (contains_iff.mp hs).1.trans (contains_iff.mp ht).1.symm
  cases s
  cases t
  cases hbody
  cases heq
  exact hne rfl

theorem Linked.detach (hb : b.Linked) (hattached : b.contains t = true)
    (hunused : b.referrers t = 0) : (b.detach t.slot).Linked := by
  obtain ⟨hentries, hhandlers⟩ := referrers_eq_zero_iff.mp hunused
  constructor
  · intro e he s hs
    obtain ⟨hmem, hslot⟩ := mem_entries_iff.mp he
    have he' : e ∈ b.entries :=
      mem_entries_iff.mpr ⟨(contains_detach.mp hmem).2, (slot_detach.mp hslot).2⟩
    have hold := hb.targets e he' s hs
    refine contains_detach.mpr ⟨slot_ne_of_ne hold hattached ?_, hold⟩
    rintro rfl
    exact hentries e he' hs
  · intro h hh s hs
    have hold := hb.boundaries h hh s hs
    refine contains_detach.mpr ⟨slot_ne_of_ne hold hattached ?_, hold⟩
    rintro rfl
    exact hhandlers h hh hs

theorem Linked.insertAfter (hb : b.Linked) {position : Nat}
    {instructions : List (Instruction Handle)}
    (htargets : ∀ i ∈ instructions, ∀ t ∈ i.operand.targets, b.contains t = true ∨
      ∃ k < instructions.length, t = b.handle (b.slots.size + k)) :
    (b.insertAfter position instructions).Linked := by
  rw [linked_iff] at hb ⊢
  constructor
  · intro n j hj t ht
    apply contains_insertAfter.mpr
    rcases slot_insertAfter.mp hj with hold | ⟨-, hnew⟩
    · exact .inl (hb.1 n j hold t ht)
    · exact htargets j (List.mem_of_getElem? hnew) t ht
  · intro h hh t ht
    exact contains_insertAfter.mpr (.inl (hb.2 h hh t ht))

end Body

theorem Instruction.make_eq_ok {τ : Type} {opcode : Opcode} {operand : Operand τ}
    {i : Instruction τ} (h : make opcode operand = .ok i) :
    i = ⟨opcode, operand, none⟩ ∧ operand.fits opcode = true := by
  obtain ⟨u, hcheck, rfl⟩ := map_eq_ok.mp h
  refine ⟨rfl, ?_⟩
  unfold Operand.check at hcheck
  split at hcheck
  · assumption
  · cases hcheck

namespace Sequence

variable {s : Sequence} {b : Body} {l : Label} {h t : Handle}
  {instructions : List (Instruction Handle)}

theorem resolveTarget_label_iff : s.resolveTarget b (.label l) = .ok t ↔ l.sequence = s.id ∧
    ∃ position, s.labels[l.index]? = some (some position) ∧ position < s.pending.size ∧
      t = b.handle (b.slots.size + position) := by
  rw [resolveTarget]
  constructor
  · intro h
    split at h
    · cases h
    · rename_i hown
      split at h
      · rename_i position hposition
        split at h
        · rename_i hlt
          exact ⟨not_not.mp hown, position, hposition, hlt, (Except.ok.inj h).symm⟩
        · cases h
      · cases h
  · rintro ⟨hown, position, hposition, hlt, rfl⟩
    rw [if_neg (not_not.mpr hown), hposition]
    exact if_pos hlt

theorem resolveTarget_existing_iff :
    s.resolveTarget b (.existing h) = .ok t ↔ b.contains h = true ∧ t = h := by
  rw [resolveTarget, map_eq_ok]
  constructor
  · rintro ⟨u, hcheck, rfl⟩
    exact ⟨Body.checkTarget_eq_ok_iff.mp hcheck, rfl⟩
  · rintro ⟨hmem, rfl⟩
    exact ⟨(), Body.checkTarget_eq_ok_iff.mpr hmem, rfl⟩

theorem resolveTarget_eq_ok {destination : Destination} (h : s.resolveTarget b destination = .ok t) :
    b.contains t = true ∨ ∃ k < s.pending.size, t = b.handle (b.slots.size + k) := by
  cases destination with
  | label l =>
      obtain ⟨-, position, -, hlt, ht⟩ := resolveTarget_label_iff.mp h
      exact .inr ⟨position, hlt, ht⟩
  | existing target =>
      obtain ⟨hmem, rfl⟩ := resolveTarget_existing_iff.mp h
      exact .inl hmem

/-- The instructions that enter a body branch to the body or to each other, and fit their
opcodes. -/
theorem resolve_eq_ok (h : s.resolve b = .ok instructions) :
    ∀ i ∈ instructions, (∀ t ∈ i.operand.targets, b.contains t = true ∨
      ∃ k < instructions.length, t = b.handle (b.slots.size + k)) ∧
        i.operand.fits i.opcode = true := by
  unfold resolve at h
  split at h
  · cases h
  · have hlength := (mapM_eq_ok_iff.mp h).length_eq
    rw [Array.length_toList] at hlength
    intro i hi
    obtain ⟨pending, -, hpending⟩ := exists_of_mem_mapM h hi
    obtain ⟨operand, hoperand, hmake⟩ := bind_eq_ok.mp hpending
    obtain ⟨rfl, hfits⟩ := Instruction.make_eq_ok hmake
    refine ⟨?_, hfits⟩
    intro t ht
    obtain ⟨destination, -, hdestination⟩ := Operand.exists_of_mem_targets hoperand ht
    rw [← hlength]
    exact resolveTarget_eq_ok hdestination

end Sequence

theorem Change.linked {e : Edit} {b b' : Body} (h : Change e b b') (hb : b.Linked) :
    b'.Linked := by
  cases h with
  | failed => exact hb
  | pushed shifted htargets => exact (hb.append htargets).withShifted shifted
  | replaced shifted hattached htargets => exact (hb.overwrite htargets).withShifted shifted
  | removed hattached hunused => exact hb.detach hattached hunused
  | spliced hfound hresolved =>
      apply hb.insertAfter
      intro i hi
      exact (Sequence.resolve_eq_ok hresolved i hi).1

namespace Body

/-- What the list, the handles and the links of a body satisfy between edits. -/
structure Consistent (b : Body) : Prop where
  nodup : b.order.toList.Nodup
  mem_order_iff : ∀ n, n ∈ b.order ↔ b.attached n = true
  position_iff : ∀ h p, b.position h = some p ↔ b.at? p = some h
  position_isSome_iff : ∀ h, (b.position h).isSome = true ↔ b.contains h = true
  linked : b.Linked
  remove_iff : ∀ h, (∃ b', remove h b = (.ok (), b')) ↔ b.contains h = true ∧
    (∀ e ∈ b.entries, h ∉ e.2.operand.targets) ∧ ∀ k ∈ b.handlers, h ∉ k.boundaries

theorem Linked.consistent {b : Body} (hb : b.Linked) : b.Consistent where
  nodup := b.nodup
  mem_order_iff := b.mem_order_iff
  position_iff _ _ := position_eq_some_iff
  position_isSome_iff h := by rw [isSome_position]
  linked := hb
  remove_iff h := by
    rw [← referrers_eq_zero_iff]
    constructor
    · rintro ⟨b', hremove⟩
      rcases remove_cases h b with ⟨hmem, hunused, -⟩ | ⟨-, e, herror⟩
      · exact ⟨hmem, hunused⟩
      · rw [herror] at hremove
        cases hremove
    · intro hall
      rcases remove_cases h b with ⟨-, -, heq⟩ | ⟨hnot, -⟩
      · exact ⟨_, heq⟩
      · exact absurd hall hnot

theorem linked_edited {b : Body} (hb : b.Linked) (edits : List Edit) : (b.edited edits).Linked := by
  have hstep : ∀ e b b', True → Change e b b' → b.Linked → b'.Linked := by
    intro e b b' _ hchange hb
    exact hchange.linked hb
  exact edited_induction hstep hb edits fun _ _ => trivial

/-- Whatever edits are called on a decoded body, its list, its handles and its links stay
consistent. -/
theorem consistent_edited {id : BodyId} {data : Bytes} {b : Body} (h : decode id data = .ok b)
    (edits : List Edit) : (b.edited edits).Consistent :=
  (linked_edited (decode_spec h).1 edits).consistent

theorem consistent_edited_return : ∃ b, decode ⟨0, 0⟩ [6, 42] = .ok b ∧
    (b.edited [.push ⟨.brS, .target ⟨⟨0, 0⟩, 0⟩, none⟩, .remove ⟨⟨0, 0⟩, 0⟩]).Consistent := by
  obtain ⟨b, hb⟩ := decode_return
  exact ⟨b, hb, consistent_edited hb _⟩

end Body

end CilEdit

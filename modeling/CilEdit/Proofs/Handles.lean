import CilEdit.Proofs.Saving

namespace CilEdit

/-- What an edit makes of the instruction at `h`: only a replacement at `h` that succeeds gives it
another opcode and operand. -/
def Edit.written (h : Handle) (b : Body) (i : Instruction Handle) : Edit → Instruction Handle
  | .replace k j =>
    if k = h ∧ (Body.replace k j b).1.isOk = true then
      { i with opcode := j.opcode, operand := j.operand }
    else i
  | _ => i

def Edit.removes (h : Handle) (b : Body) : Edit → Bool
  | .remove k => k == h && (Body.remove k b).1.isOk
  | _ => false

namespace Body

/-- What a run of edits makes of the instruction at `h`. -/
def written (h : Handle) : Body → List Edit → Instruction Handle → Instruction Handle
  | _, [], i => i
  | b, e :: edits, i => written h (e.apply b) edits (e.written h b i)

/-- Whether an edit of the run removes `h`. -/
def removes (h : Handle) : Body → List Edit → Bool
  | _, [] => false
  | b, e :: edits => e.removes h b || removes h (e.apply b) edits

variable {b : Body} {h k x y : Handle} {i j : Instruction Handle} {n : Nat}

theorem get?_eq_some_iff :
    b.get? h = some i ↔ h.body = b.id ∧ b.slots[h.slot]? = some ⟨i, true⟩ := by
  rw [get?]
  constructor
  · intro hi
    split at hi
    · rename_i hmem
      obtain ⟨hbody, j, hj⟩ := contains_iff_slot.mp hmem
      rw [hj] at hi
      cases hi
      exact ⟨hbody, hj⟩
    · cases hi
  · rintro ⟨hbody, hi⟩
    rw [if_pos (contains_iff_slot.mpr ⟨hbody, i, hi⟩), hi]
    rfl

theorem get?_eq_none_iff : b.get? h = none ↔ b.contains h = false := by
  constructor
  · intro hnone
    rw [Bool.eq_false_iff]
    intro hmem
    obtain ⟨hbody, i, hi⟩ := contains_iff_slot.mp hmem
    rw [get?_eq_some_iff.mpr ⟨hbody, hi⟩] at hnone
    cases hnone
  · intro hmem
    rw [get?, hmem]
    rfl

theorem contains_of_get? (hi : b.get? h = some i) : b.contains h = true := by
  obtain ⟨hbody, hslot⟩ := get?_eq_some_iff.mp hi
  exact contains_iff_slot.mpr ⟨hbody, i, hslot⟩

theorem exists_get? (hmem : b.contains h = true) : ∃ i, b.get? h = some i := by
  obtain ⟨hbody, i, hi⟩ := contains_iff_slot.mp hmem
  exact ⟨i, get?_eq_some_iff.mpr ⟨hbody, hi⟩⟩

theorem owns_iff : b.owns h = true ↔ h.body = b.id ∧ h.slot < b.slots.size := by
  rw [owns, Bool.and_eq_true, beq_iff_eq, decide_eq_true_eq]

theorem owns_of_contains (hmem : b.contains h = true) : b.owns h = true :=
  (contains_iff_checks.mp hmem).1

theorem not_owns_handle (hn : b.slots.size ≤ n) : b.owns (b.handle n) = false := by
  rw [Bool.eq_false_iff]
  intro howns
  exact absurd (owns_iff.mp howns).2 (Nat.not_lt.mpr hn)

theorem not_owns_of_mem_nextHandles {count : Nat} (hh : h ∈ b.nextHandles count) :
    b.owns h = false := by
  obtain ⟨n, hn, rfl⟩ := List.mem_map.mp hh
  exact not_owns_handle (List.mem_range'_1.mp hn).1

theorem head?_nextHandles {count : Nat} (hcount : 0 < count) :
    (b.nextHandles count).head? = some b.next := by
  cases count with
  | zero => cases hcount
  | succ count => rfl

theorem get?_append (hi : b.get? h = some i) : (b.append j).get? h = some i := by
  obtain ⟨hbody, hslot⟩ := get?_eq_some_iff.mp hi
  exact get?_eq_some_iff.mpr ⟨hbody, slot_append.mpr (.inr hslot)⟩

theorem get?_append_next : (b.append i).get? b.next = some i :=
  get?_eq_some_iff.mpr ⟨rfl, slot_append.mpr (.inl ⟨rfl, rfl⟩)⟩

theorem get?_overwrite {opcode : Opcode} {operand : Operand Handle} (hmem : b.contains k = true)
    (hi : b.get? h = some i) : (b.overwrite k.slot opcode operand).get? h =
      some (if k = h then { i with opcode, operand } else i) := by
  obtain ⟨hbody, hslot⟩ := get?_eq_some_iff.mp hi
  refine get?_eq_some_iff.mpr ⟨hbody, slot_overwrite.mpr ⟨i, hslot, ?_⟩⟩
  by_cases heq : k = h
  · rw [if_pos heq, if_pos (congrArg Handle.slot heq)]
  · rw [if_neg heq, if_neg (slot_ne_of_ne hmem (contains_of_get? hi) heq)]

theorem get?_detach (hmem : b.contains k = true) (hi : b.get? h = some i) :
    (b.detach k.slot).get? h = if k = h then none else some i := by
  by_cases heq : k = h
  · rw [if_pos heq, get?_eq_none_iff, Bool.eq_false_iff]
    intro hstays
    exact (contains_detach.mp hstays).1 (congrArg Handle.slot heq).symm
  · rw [if_neg heq]
    obtain ⟨hbody, hslot⟩ := get?_eq_some_iff.mp hi
    have hne := slot_ne_of_ne (contains_of_get? hi) hmem (Ne.symm heq)
    exact get?_eq_some_iff.mpr ⟨hbody, slot_detach.mpr ⟨hne, hslot⟩⟩

theorem get?_insertAfter {position : Nat} {instructions : List (Instruction Handle)}
    (hi : b.get? h = some i) : (b.insertAfter position instructions).get? h = some i := by
  obtain ⟨hbody, hslot⟩ := get?_eq_some_iff.mp hi
  exact get?_eq_some_iff.mpr ⟨hbody, slot_insertAfter.mpr (.inl hslot)⟩

theorem forall₂_insertAfter (b : Body) (position : Nat) (instructions : List (Instruction Handle)) :
    List.Forall₂ (fun h i => (b.insertAfter position instructions).get? h = some i)
      (b.nextHandles instructions.length) instructions := by
  have hlength : (b.nextHandles instructions.length).length = instructions.length := by
    rw [nextHandles, List.length_map, List.length_range']
  refine List.forall₂_iff_get.mpr ⟨hlength, fun n hn hn' => ?_⟩
  have hhandle : (b.nextHandles instructions.length).get ⟨n, hn⟩ = b.handle (b.slots.size + n) := by
    simp [nextHandles]
  rw [hhandle]
  refine get?_eq_some_iff.mpr ⟨rfl, slot_insertAfter.mpr (.inr ⟨Nat.le_add_right _ _, ?_⟩)⟩
  rw [handle, Nat.add_sub_cancel_left, List.getElem?_eq_getElem hn']
  rfl

end Body

section Step

variable {b b' : Body} {e : Edit} {h x y : Handle} {i : Instruction Handle}

theorem Edit.get?_apply (e : Edit) (hi : b.get? h = some i) :
    (e.apply b).get? h = if e.removes h b = true then none else some (e.written h b i) := by
  cases e with
  | push j =>
      rcases Body.push_cases j b with ⟨-, heq⟩ | ⟨e, -, heq⟩
      · simp only [Edit.apply, heq]
        exact Body.get?_append hi
      · simp only [Edit.apply, heq]
        exact hi
  | replace k j =>
      rcases Body.replace_cases k j b with ⟨old, hold, -, heq⟩ | ⟨e, heq, -⟩
      · have hmem := (Body.instruction_eq_ok_iff.mp hold).1
        have hnew : (b.overwrite k.slot j.opcode j.operand).get? h = _ :=
          Body.get?_overwrite hmem hi
        simp only [Edit.apply, Edit.removes, Edit.written, heq]
        exact hnew.trans (by simp [Except.isOk, Except.toBool])
      · simpa [Edit.apply, Edit.removes, Edit.written, heq, Except.isOk, Except.toBool] using hi
  | remove k =>
      rcases Body.remove_cases k b with ⟨hmem, -, heq⟩ | ⟨-, e, heq⟩
      · simpa [Edit.apply, Edit.removes, Edit.written, heq, Except.isOk, Except.toBool]
          using Body.get?_detach hmem hi
      · simpa [Edit.apply, Edit.removes, Edit.written, heq, Except.isOk, Except.toBool] using hi
  | splice anchor s =>
      rcases Body.splice_cases anchor s b with ⟨position, instructions, -, -, -, heq⟩ | ⟨e, heq, -⟩
      · simp only [Edit.apply, heq]
        exact Body.get?_insertAfter hi
      · simp only [Edit.apply, heq]
        exact hi

theorem Change.id_eq (hchange : Change e b b') : b'.id = b.id := by
  cases hchange <;> rfl

theorem Change.size_le (hchange : Change e b b') : b.slots.size ≤ b'.slots.size := by
  cases hchange with
  | failed => exact Nat.le_refl _
  | @pushed b i shifted =>
      change b.slots.size ≤ (b.slots.push ⟨i, true⟩).size
      rw [Array.size_push]
      exact Nat.le_succ _
  | @replaced b h i shifted =>
      change b.slots.size ≤ (b.slots.modify h.slot _).size
      exact Nat.le_of_eq Array.size_modify.symm
  | @removed b h =>
      change b.slots.size ≤ (b.slots.modify h.slot _).size
      exact Nat.le_of_eq Array.size_modify.symm
  | @spliced b anchor s position instructions =>
      change b.slots.size ≤ (b.slots ++ (instructions.map fun i => Slot.mk i true).toArray).size
      rw [Array.size_append]
      exact Nat.le_add_right _ _

theorem Change.owns (hchange : Change e b b') (howns : b.owns h = true) : b'.owns h = true := by
  obtain ⟨hbody, hslot⟩ := Body.owns_iff.mp howns
  exact Body.owns_iff.mpr ⟨hbody.trans hchange.id_eq.symm, Nat.lt_of_lt_of_le hslot hchange.size_le⟩

/-- New slots follow those in use, so an edit never puts a removed instruction back. -/
theorem Change.contains_of_owns (hchange : Change e b b') (howns : b.owns h = true)
    (hmem : b'.contains h = true) : b.contains h = true := by
  have hslot := (Body.owns_iff.mp howns).2
  cases hchange with
  | failed => exact hmem
  | @pushed b i shifted =>
      have hnew : (b.append i).contains h = true := hmem
      rcases Body.contains_append.mp hnew with hold | rfl
      · exact hold
      · exact absurd hslot (Nat.lt_irrefl _)
  | @replaced b k i shifted =>
      have hnew : (b.overwrite k.slot i.opcode i.operand).contains h = true := hmem
      exact Body.contains_overwrite.mp hnew
  | removed => exact (Body.contains_detach.mp hmem).2
  | spliced =>
      rcases Body.contains_insertAfter.mp hmem with hold | ⟨k, -, rfl⟩
      · exact hold
      · exact absurd hslot (Nat.not_lt.mpr (Nat.le_add_right _ _))

theorem Change.notAfter (hchange : Change e b b') (hx : b'.contains x = true)
    (hy : b'.contains y = true) (h : b.NotAfter x y) : b'.NotAfter x y := by
  cases hchange with
  | failed => exact h
  | pushed => exact h.of_sublist (b.order_sublist_append _)
  | replaced => exact h.of_sublist (List.Sublist.refl _)
  | removed => exact h.detach (Body.contains_detach.mp hx).1 (Body.contains_detach.mp hy).1
  | spliced => exact h.of_sublist (b.order_sublist_insertAfter _ _)

end Step

namespace Body

variable {b : Body} {h x y : Handle} {i : Instruction Handle} {anchor target : Error}

theorem id_edited (b : Body) (edits : List Edit) : (b.edited edits).id = b.id := by
  have hstep : ∀ e c c', True → Change e c c' → c.id = b.id → c'.id = b.id := by
    intro e c c' _ hchange hid
    exact hchange.id_eq.trans hid
  exact edited_induction hstep rfl edits fun _ _ => trivial

theorem owns_edited (howns : b.owns h = true) (edits : List Edit) :
    (b.edited edits).owns h = true := by
  have hstep : ∀ e c c', True → Change e c c' → c.owns h = true → c'.owns h = true := by
    intro e c c' _ hchange howns
    exact hchange.owns howns
  exact edited_induction hstep howns edits fun _ _ => trivial

theorem not_contains_edited (howns : b.owns h = true) (hmem : b.contains h = false)
    (edits : List Edit) : (b.edited edits).contains h = false := by
  have hstep : ∀ e c c', True → Change e c c' → c.owns h = true ∧ c.contains h = false →
      c'.owns h = true ∧ c'.contains h = false := by
    rintro e c c' - hchange ⟨howns, hmem⟩
    refine ⟨hchange.owns howns, ?_⟩
    rw [Bool.eq_false_iff] at hmem ⊢
    exact fun hmem' => hmem (hchange.contains_of_owns howns hmem')
  exact (edited_induction hstep ⟨howns, hmem⟩ edits fun _ _ => trivial).2

theorem contains_of_edited (howns : b.owns h = true) {edits : List Edit}
    (hmem : (b.edited edits).contains h = true) : b.contains h = true := by
  by_contra hnot
  rw [not_contains_edited howns (Bool.eq_false_iff.mpr hnot)] at hmem
  cases hmem

theorem get?_edited (hi : b.get? h = some i) (edits : List Edit) :
    (b.edited edits).get? h =
      if removes h b edits = true then none else some (written h b edits i) := by
  induction edits generalizing b i with
  | nil => exact hi
  | cons e edits ih =>
      have hstep := e.get?_apply hi
      change ((e.apply b).edited edits).get? h = _
      cases hremoves : e.removes h b with
      | true =>
          rw [hremoves, if_pos rfl, get?_eq_none_iff] at hstep
          have howns := (e.change_apply b).owns (owns_of_contains (contains_of_get? hi))
          have hgone := not_contains_edited howns hstep edits
          rw [removes, hremoves, Bool.true_or, if_pos rfl]
          exact get?_eq_none_iff.mpr hgone
      | false =>
          rw [hremoves, if_neg Bool.false_ne_true] at hstep
          rw [removes, hremoves, Bool.false_or, ih hstep, written]

theorem notAfter_edited (hx : b.contains x = true) (hy : b.contains y = true) {edits : List Edit}
    (hx' : (b.edited edits).contains x = true) (hy' : (b.edited edits).contains y = true)
    (h : b.NotAfter x y) : (b.edited edits).NotAfter x y := by
  induction edits generalizing b with
  | nil => exact h
  | cons e edits ih =>
      have hchange := e.change_apply b
      have hx₁ := contains_of_edited (hchange.owns (owns_of_contains hx)) hx'
      have hy₁ := contains_of_edited (hchange.owns (owns_of_contains hy)) hy'
      exact ih hx₁ hy₁ hx' hy' (hchange.notAfter hx₁ hy₁ h)

theorem notAfter_of_position {p q : Nat} (hp : b.position x = some p) (hq : b.position y = some q)
    (hpq : p < q) : b.NotAfter x y := by
  have hx := (at?_eq_some_iff.mp (position_eq_some_iff.mp hp)).2
  have hy := (at?_eq_some_iff.mp (position_eq_some_iff.mp hq)).2
  rw [← Array.getElem?_toList] at hx hy
  exact .inr (pair_sublist hpq hx hy)

theorem contains_of_position {p : Nat} (hp : b.position h = some p) : b.contains h = true :=
  contains_of_at? (position_eq_some_iff.mp hp)

theorem position_injective {p : Nat} (hx : b.position x = some p) (hy : b.position y = some p) :
    x = y :=
  Option.some.inj ((position_eq_some_iff.mp hx).symm.trans (position_eq_some_iff.mp hy))

theorem rank_of_position {p : Nat} (hp : b.position h = some p) : b.rank h = p :=
  rank_of_at? (position_eq_some_iff.mp hp)

theorem position_lt_edited {edits : List Edit} {p q p' q' : Nat} (hp : b.position x = some p)
    (hq : b.position y = some q) (hp' : (b.edited edits).position x = some p')
    (hq' : (b.edited edits).position y = some q') (hpq : p < q) : p' < q' := by
  have hx' := contains_of_position hp'
  have hy' := contains_of_position hq'
  have hstays := notAfter_edited (contains_of_position hp) (contains_of_position hq) hx' hy'
    (notAfter_of_position hp hq hpq)
  have hle := rank_le_rank hx' hy' hstays
  rw [rank_of_position hp', rank_of_position hq'] at hle
  refine Nat.lt_of_le_of_ne hle ?_
  rintro rfl
  rw [position_injective hp' hq', hq] at hp
  exact absurd (Option.some.inj hp) (Nat.ne_of_gt hpq)

end Body

section Reached

variable {α β ε : Type} {x : α} {xs : List α} {e : ε}

/-- Going through `xs` with `f` comes to `x`: what stands before it passes. -/
def Reached (f : α → Except ε β) (x : α) (xs : List α) : Prop :=
  ∃ before after, xs = before ++ x :: after ∧ ∀ y ∈ before, (f y).isOk = true

theorem Reached.mem {f : α → Except ε β} (h : Reached f x xs) : x ∈ xs := by
  obtain ⟨before, after, rfl, -⟩ := h
  exact List.mem_append_right before List.mem_cons_self

theorem Reached.forM_eq_error {f : α → Except ε Unit} (h : Reached f x xs)
    (hx : f x = .error e) : xs.forM f = .error e := by
  obtain ⟨before, after, rfl, hbefore⟩ := h
  induction before with
  | nil =>
      change (f x >>= fun _ => after.forM f) = _
      rw [hx]
      rfl
  | cons y before ih =>
      obtain ⟨u, hy⟩ := exists_of_isOk (hbefore y List.mem_cons_self)
      change (f y >>= fun _ => (before ++ x :: after).forM f) = _
      rw [bind_of_ok hy]
      exact ih fun z hz => hbefore z (List.mem_cons_of_mem y hz)

theorem Reached.mapM_eq_error {f : α → Except ε β} (h : Reached f x xs)
    (hx : f x = .error e) : xs.mapM f = .error e := by
  obtain ⟨before, after, rfl, hbefore⟩ := h
  induction before with
  | nil =>
      rw [List.nil_append, List.mapM_cons, hx]
      rfl
  | cons y before ih =>
      obtain ⟨z, hy⟩ := exists_of_isOk (hbefore y List.mem_cons_self)
      rw [List.cons_append, List.mapM_cons, bind_of_ok hy,
        ih fun z hz => hbefore z (List.mem_cons_of_mem y hz)]
      rfl

theorem exists_reached_of_mapM_eq_error {f : α → Except ε β} (h : xs.mapM f = .error e) :
    ∃ x, Reached f x xs ∧ f x = .error e := by
  induction xs with
  | nil => cases h
  | cons y xs ih =>
      rw [List.mapM_cons, bind_eq_error] at h
      rcases h with hy | ⟨z, hy, h⟩
      · exact ⟨y, ⟨[], xs, rfl, nofun⟩, hy⟩
      · rcases bind_eq_error.mp h with hxs | ⟨zs, -, h⟩
        · obtain ⟨x, ⟨before, after, rfl, hbefore⟩, hx⟩ := ih hxs
          have hok : (f y).isOk = true := by rw [hy]; rfl
          exact ⟨x, ⟨y :: before, after, rfl, List.forall_mem_cons.mpr ⟨hok, hbefore⟩⟩, hx⟩
        · cases h

end Reached

namespace Operand

variable {τ σ : Type} {f : τ → Except Error σ} {operand : Operand τ} {t : τ}

theorem traverse_eq_error {e : Error} (h : Reached f t operand.targets) (ht : f t = .error e) :
    operand.traverse f = .error e := by
  cases operand with
  | none => cases h.mem
  | immediate v => cases h.mem
  | token t => cases h.mem
  | target s =>
      cases List.mem_singleton.mp h.mem
      rw [traverse, ht]
      rfl
  | switch ts =>
      have hall : ts.mapM f = .error e := h.mapM_eq_error ht
      rw [traverse, hall]
      rfl

end Operand

namespace Sequence

variable {s : Sequence} {b : Body} {h : Handle} {e : Error}

/-- The handles and labels that the instructions of a sequence branch to. -/
def destinations (s : Sequence) : List Destination :=
  s.pending.toList.flatMap fun p => p.2.targets

/-- Resolving the sequence in `b` comes to the handle `h`. -/
def Reaches (s : Sequence) (b : Body) (h : Handle) : Prop :=
  s.failure = none ∧ ∃ p, Reached (s.resolveInstruction b) p s.pending.toList ∧
    Reached (s.resolveTarget b) (.existing h) p.2.targets

theorem Reaches.resolve_eq_error (hreaches : s.Reaches b h) (hcheck : b.checkTarget h = .error e) :
    s.resolve b = .error e := by
  obtain ⟨hfailure, p, hp, htarget⟩ := hreaches
  have hexisting : s.resolveTarget b (.existing h) = .error e := by
    rw [resolveTarget, hcheck]
    rfl
  have hinstruction : s.resolveInstruction b p = .error e := by
    rw [resolveInstruction, Operand.traverse_eq_error htarget hexisting]
    rfl
  rw [resolve, hfailure]
  exact hp.mapM_eq_error hinstruction

theorem Reaches.checkFilled_eq_ok (hreaches : s.Reaches b h) : s.checkFilled = .ok () := by
  obtain ⟨-, p, hp, -⟩ := hreaches
  rw [checkFilled, if_neg]
  intro hempty
  rw [Array.isEmpty_iff.mp hempty] at hp
  cases hp.mem

theorem contains_of_resolve_eq_ok {instructions : List (Instruction Handle)}
    (hresolved : s.resolve b = .ok instructions) (hmem : .existing h ∈ s.destinations) :
    b.contains h = true := by
  obtain ⟨p, hp, htarget⟩ := List.mem_flatMap.mp hmem
  rw [resolve] at hresolved
  split at hresolved
  · cases hresolved
  · obtain ⟨i, -, hi⟩ := ok_of_mapM_eq_ok hresolved hp
    obtain ⟨operand, hoperand, -⟩ := bind_eq_ok.mp hi
    obtain ⟨t, ht⟩ := Operand.exists_of_traverse_eq_ok hoperand htarget
    obtain ⟨u, hcheck, -⟩ := map_eq_ok.mp ht
    exact Body.checkTarget_eq_ok_iff.mp hcheck

theorem length_pos_of_resolve (s : Sequence) {instructions : List (Instruction Handle)}
    (hfilled : s.checkFilled = .ok ()) (hresolved : s.resolve b = .ok instructions) :
    0 < instructions.length := by
  rw [resolve] at hresolved
  split at hresolved
  · cases hresolved
  · rw [← (mapM_eq_ok_iff.mp hresolved).length_eq, Array.length_toList]
    apply Nat.pos_of_ne_zero
    intro hempty
    rw [checkFilled, Array.isEmpty_iff_size_eq_zero.mpr hempty] at hfilled
    cases hfilled

theorem toBody_eq_error {id : BodyId} (hreaches : s.Reaches (.empty id) h) :
    s.toBody id = .error .foreignInstruction := by
  have hcheck : (Body.empty id).checkTarget h = .error .foreignInstruction := by
    have howns : (Body.empty id).owns h = false := by
      rw [Bool.eq_false_iff]
      intro howns
      exact absurd (Body.owns_iff.mp howns).2 (Nat.not_lt_zero _)
    rw [Body.checkTarget, howns]
    rfl
  rw [toBody, hreaches.resolve_eq_error hcheck]
  rfl

end Sequence

/-- Every call with `h` is refused and leaves the body as it is. The answer is `anchor` for the
instruction to work on, and `target` for a branch target, unless the call fails over something that
it checks before. -/
structure Body.Refuses (b : Body) (h : Handle) (anchor target : Error) : Prop where
  contains : b.contains h = false
  get? : b.get? h = none
  position : b.position h = none
  instruction : b.instruction h = .error anchor
  replace : ∀ i, Body.replace h i b = (.error anchor, b)
  remove : Body.remove h b = (.error anchor, b)
  splice : ∀ s, Body.splice h s b = (.error anchor, b)
  pushTarget : ∀ i, h ∈ i.operand.targets → ∃ e, Body.push i b = (.error e, b) ∧
    (Reached b.checkTarget h i.operand.targets → e = target)
  replaceTarget : ∀ k i, h ∈ i.operand.targets → ∃ e, Body.replace k i b = (.error e, b) ∧
    (b.contains k = true → Reached b.checkTarget h i.operand.targets → e = target)
  spliceTarget : ∀ k s, .existing h ∈ s.destinations → ∃ e, Body.splice k s b = (.error e, b) ∧
    (b.contains k = true → s.Reaches b h → e = target)

namespace Body

variable {b : Body} {h k x y : Handle} {anchor target : Error}

theorem checkAttached_ne_error (hmem : b.contains k = true) {e : Error} :
    b.checkAttached k ≠ .error e := by
  rw [checkAttached_eq_ok_iff.mpr hmem]
  nofun

theorem instruction_of_checkAttached {e : Error} (hcheck : b.checkAttached h = .error e) :
    b.instruction h = .error e := by
  rw [instruction, hcheck]

theorem checkTargets_eq_error {operand : Operand Handle}
    (hreached : Reached b.checkTarget h operand.targets)
    (htarget : b.checkTarget h = .error target) : b.checkTargets operand = .error target :=
  hreached.forM_eq_error htarget

/-- An instruction with a refused target is not appended. -/
theorem push_eq_error (hnot : b.contains h = false) (htarget : b.checkTarget h = .error target)
    {i : Instruction Handle} (hi : h ∈ i.operand.targets) : ∃ e, push i b = (.error e, b) ∧
      (Reached b.checkTarget h i.operand.targets → e = target) := by
  rcases push_cases i b with ⟨hall, -⟩ | ⟨e, hcheck, heq⟩
  · rw [hall h hi] at hnot
    cases hnot
  · refine ⟨e, heq, fun hreached => ?_⟩
    rw [checkTargets_eq_error hreached htarget] at hcheck
    exact (Except.error.inj hcheck).symm

/-- An instruction with a refused target does not replace another. -/
theorem replace_eq_error (hnot : b.contains h = false) (htarget : b.checkTarget h = .error target)
    {i : Instruction Handle} (hi : h ∈ i.operand.targets) : ∃ e, replace k i b = (.error e, b) ∧
      (b.contains k = true → Reached b.checkTarget h i.operand.targets → e = target) := by
  rcases replace_cases k i b with ⟨old, -, hall, -⟩ | ⟨e, heq, hcause⟩
  · rw [hall h hi] at hnot
    cases hnot
  · refine ⟨e, heq, fun hmem hreached => ?_⟩
    rcases hcause with hk | ⟨-, hcheck⟩
    · obtain ⟨i, hi⟩ := exists_slot (contains_iff.mp hmem).2
      rw [instruction_eq_ok_iff.mpr ⟨hmem, hi⟩] at hk
      cases hk
    · rw [checkTargets_eq_error hreached htarget] at hcheck
      exact (Except.error.inj hcheck).symm

/-- A sequence that branches to a refused target is not inserted. -/
theorem splice_eq_error (hnot : b.contains h = false) (htarget : b.checkTarget h = .error target)
    {s : Sequence} (hs : .existing h ∈ s.destinations) : ∃ e, splice k s b = (.error e, b) ∧
      (b.contains k = true → s.Reaches b h → e = target) := by
  rcases splice_cases k s b with ⟨position, instructions, -, -, hresolved, -⟩ | ⟨e, heq, hcause⟩
  · rw [Sequence.contains_of_resolve_eq_ok hresolved hs] at hnot
    cases hnot
  · refine ⟨e, heq, fun hmem hreaches => ?_⟩
    rcases hcause with hk | ⟨-, hfilled | ⟨-, hresolved⟩⟩
    · exact absurd hk (checkAttached_ne_error hmem)
    · rw [hreaches.checkFilled_eq_ok] at hfilled
      cases hfilled
    · rw [hreaches.resolve_eq_error htarget] at hresolved
      exact (Except.error.inj hresolved).symm

theorem refuses_of_checks (hanchor : b.checkAttached h = .error anchor)
    (htarget : b.checkTarget h = .error target) : b.Refuses h anchor target := by
  have hnot : b.contains h = false := by
    rw [Bool.eq_false_iff]
    intro hmem
    exact checkAttached_ne_error hmem hanchor
  have hinstruction := instruction_of_checkAttached hanchor
  refine
    { contains := hnot
      get? := get?_eq_none_iff.mpr hnot
      position := by rw [position, hnot]; rfl
      instruction := hinstruction
      replace := ?_, remove := ?_, splice := ?_
      pushTarget := fun _ hi => push_eq_error hnot htarget hi
      replaceTarget := fun _ _ hi => replace_eq_error hnot htarget hi
      spliceTarget := fun _ _ hs => splice_eq_error hnot htarget hs }
  · intro i
    simp only [Body.replace, Step.bind_apply, Step.read_apply, hinstruction]
  · simp only [Body.remove, Step.bind_apply, Step.read_apply, hanchor]
  · intro s
    simp only [Body.splice, Step.bind_apply, Step.read_apply, hanchor]

/-- A handle that the body did not issue. -/
theorem refuses_foreign (howns : b.owns h = false) :
    b.Refuses h .foreignInstruction .foreignInstruction := by
  apply refuses_of_checks
  · rw [checkAttached, howns]
    rfl
  · rw [checkTarget, howns]
    rfl

/-- A handle of a removed instruction. -/
theorem refuses_stale (howns : b.owns h = true) (hmem : b.contains h = false) :
    b.Refuses h .staleAnchor .danglingTarget := by
  have hattached : b.attached h.slot = false := by
    rw [contains, howns, Bool.true_and] at hmem
    exact hmem
  apply refuses_of_checks
  · rw [checkAttached, howns, hattached]
    rfl
  · rw [checkTarget, howns, hattached]
    rfl

/-- What the handles of a body mean after a run of edits: those issued before, and those that a
further call issues. -/
structure HandlesKept (b : Body) (edits : List Edit) : Prop where
  reads : ∀ h i, b.get? h = some i → (b.edited edits).get? h =
    if removes h b edits = true then none else some (written h b edits i)
  removed : ∀ h, b.owns h = true → b.contains h = false ∨ removes h b edits = true →
    (b.edited edits).Refuses h .staleAnchor .danglingTarget
  pushed : ∀ i h, (push i (b.edited edits)).1 = .ok h →
    b.owns h = false ∧ (push i (b.edited edits)).2.get? h = some i
  spliced : ∀ anchor s spliced, (splice anchor s (b.edited edits)).1 = .ok spliced →
    spliced.handles.head? = some spliced.first ∧ (∀ h ∈ spliced.handles, b.owns h = false) ∧
      ∃ instructions, s.resolve (b.edited edits) = .ok instructions ∧
        List.Forall₂ (fun h i => (splice anchor s (b.edited edits)).2.get? h = some i)
          spliced.handles instructions
  order : ∀ x y p q p' q', b.position x = some p → b.position y = some q →
    (b.edited edits).position x = some p' → (b.edited edits).position y = some q' →
      (p < q ↔ p' < q')
  foreign : ∀ h, h.body ≠ b.id →
    (b.edited edits).Refuses h .foreignInstruction .foreignInstruction

theorem not_owns_of_edited {edits : List Edit} (howns : (b.edited edits).owns h = false) :
    b.owns h = false := by
  rw [Bool.eq_false_iff] at howns ⊢
  exact fun hold => howns (owns_edited hold edits)

/-- A handle means the same instruction for ever, whatever edits are called; and no handle is taken
over from another body into a new one. -/
theorem handles_kept (b : Body) (edits : List Edit) : b.HandlesKept edits ∧
    ∀ (s : Sequence) (id : BodyId) (h : Handle), s.Reaches (.empty id) h →
      s.toBody id = .error .foreignInstruction := by
  refine ⟨?_, fun s id h hreaches => Sequence.toBody_eq_error hreaches⟩
  refine
    { reads := fun h i hi => get?_edited hi edits
      removed := ?_, pushed := ?_, spliced := ?_, order := ?_, foreign := ?_ }
  · intro h howns hgone
    refine refuses_stale (owns_edited howns edits) ?_
    rcases hgone with hmem | hremoves
    · exact not_contains_edited howns hmem edits
    · cases hmem : b.contains h with
      | false => exact not_contains_edited howns hmem edits
      | true =>
          obtain ⟨i, hi⟩ := exists_get? hmem
          rw [← get?_eq_none_iff, get?_edited hi edits, if_pos hremoves]
  · intro i h hpush
    rcases push_cases i (b.edited edits) with ⟨-, heq⟩ | ⟨e, -, heq⟩
    · rw [heq] at hpush ⊢
      cases hpush
      exact ⟨not_owns_of_edited (not_owns_handle (Nat.le_refl _)), get?_append_next⟩
    · rw [heq] at hpush
      cases hpush
  · intro anchor s spliced hsplice
    rcases splice_cases anchor s (b.edited edits) with
      ⟨position, instructions, -, hfilled, hresolved, heq⟩ | ⟨e, heq, -⟩
    · rw [heq] at hsplice ⊢
      cases hsplice
      refine ⟨head?_nextHandles (s.length_pos_of_resolve hfilled hresolved), ?_,
        instructions, hresolved, forall₂_insertAfter _ position instructions⟩
      intro h hh
      exact not_owns_of_edited (not_owns_of_mem_nextHandles hh)
    · rw [heq] at hsplice
      cases hsplice
  · intro x y p q p' q' hp hq hp' hq'
    refine ⟨position_lt_edited hp hq hp' hq', fun hlt => ?_⟩
    -- In the other order, the two would stay in that order.
    rcases Nat.lt_trichotomy p q with hpq | rfl | hpq
    · exact hpq
    · have heq := position_injective hp hq
      rw [heq, hq'] at hp'
      exact absurd (Option.some.inj hp') (Nat.ne_of_gt hlt)
    · exact absurd (position_lt_edited hq hp hq' hp' hpq) (Nat.lt_asymm hlt)
  · intro h hbody
    apply refuses_foreign
    rw [Bool.eq_false_iff]
    intro howns
    exact hbody ((owns_iff.mp howns).1.trans (id_edited b edits))

end Body

end CilEdit

import CilEdit.Proofs.Labels
import CilEdit.Proofs.Staleness

/-!
One scan for many offsets.

The scan for a list of offsets passes over the instructions once, so it takes it that offsets are
recorded in ascending order. In decoded bodies they are, and no edit but a push of an instruction
with a recorded offset can change that. The scan agrees with looking up every offset on its own
exactly as long as such pushes come in order.
-/

namespace CilEdit

namespace Body

/-- The offsets recorded in a body, in the order of its instructions. -/
def recorded (b : Body) : List Nat :=
  b.entries.filterMap fun e => e.2.offset

/-- A number that comes up for the first time is above all before it. -/
def FirstsAscend (xs : List Nat) : Prop :=
  ∀ before n after, xs = before ++ n :: after → n ∈ before ∨ ∀ k ∈ before, k < n

/-- The look-up of many offsets does what looking up each of them on its own does: it gives them in
ascending order, each with the instruction found for it, or names the first that is not found. -/
structure LocatesEach (b : Body) (offsets : List Nat) : Prop where
  ok_iff : (∃ pairs, b.locateOffsets offsets = .ok pairs) ↔
    ∀ n ∈ offsets, ∃ h, b.findByOffset n = .ok h
  pairs : ∀ pairs, b.locateOffsets offsets = .ok pairs →
    (pairs.map Prod.fst).Pairwise (· ≤ ·) ∧ (pairs.map Prod.fst).Perm offsets ∧
      ∀ p ∈ pairs, b.findByOffset p.1 = .ok p.2
  missing : ∀ e, b.locateOffsets offsets = .error e → ∃ n ∈ offsets,
    e = .offsetNotFound n ∧ b.findByOffset n = .error (.offsetNotFound n) ∧
      ∀ k ∈ offsets, (∀ h, b.findByOffset k ≠ .ok h) → n ≤ k

section

variable {xs : List Nat} {n : Nat}

theorem firstsAscend_nil : FirstsAscend [] := by
  intro before n after h
  cases before <;> cases h

theorem firstsAscend_concat_iff :
    FirstsAscend (xs ++ [n]) ↔ FirstsAscend xs ∧ (n ∈ xs ∨ ∀ k ∈ xs, k < n) := by
  constructor
  · intro h
    refine ⟨fun before m after hxs => h before m (after ++ [n]) ?_, h xs n [] rfl⟩
    rw [hxs, List.append_assoc, List.cons_append]
  · rintro ⟨hxs, hlast⟩ before m after h
    rcases Sequence.concat_eq_split_iff.mp h with ⟨rfl, rfl, -⟩ | ⟨rest, -, hsplit⟩
    · exact hlast
    · exact hxs before m rest hsplit

theorem firstsAscend_of_pairwise (h : xs.Pairwise (· < ·)) : FirstsAscend xs := by
  rintro before n after rfl
  exact .inr fun k hk => (List.pairwise_append.mp h).2.2 k hk n List.mem_cons_self

end

section

variable {entries : List (Handle × Instruction Handle)}

/-- Where the scan finds for each offset the first entry with it, offsets that come up for the first
time ascend. -/
theorem firstsAscend_of_reached
    (hall : ∀ n, reached entries n = (entries.find? fun e => e.2.offset == some n).map Prod.fst) :
    FirstsAscend (entries.filterMap fun e => e.2.offset) := by
  intro before n after hsplit
  obtain ⟨left, right, rfl, rfl, hright⟩ := List.filterMap_eq_append_iff.mp hsplit
  refine or_iff_not_imp_left.mpr fun hnew k hk => ?_
  cases hfirst : left.find? fun e => e.2.offset.any (n ≤ ·) with
  | none =>
      obtain ⟨f, hf, hoffset⟩ := List.mem_filterMap.mp hk
      have hbelow := List.find?_eq_none.mp hfirst f hf
      simpa [hoffset] using hbelow
  | some f =>
      -- The scan stops at `f`, which has another offset, although `n` comes up later.
      have hother : ¬(f.2.offset == some n) = true := fun heq =>
        hnew (List.mem_filterMap.mpr ⟨f, List.mem_of_find?_eq_some hfirst, beq_iff_eq.mp heq⟩)
      have hmissed : reached (left ++ right) n = none := by
        rw [reached, List.find?_append, hfirst, Option.some_or, Option.filter_some,
          if_neg hother, Option.map_none]
      rw [hall, Option.map_eq_none_iff, List.find?_eq_none] at hmissed
      obtain ⟨e, he, hoffset⟩ := List.mem_filterMap.mp
        (hright ▸ List.mem_cons_self : n ∈ right.filterMap fun e => e.2.offset)
      exact absurd (beq_iff_eq.mpr hoffset) (hmissed e (List.mem_append_right left he))

/-- Before the first entry with an offset the scan passes over smaller offsets only. -/
theorem lt_of_firstsAscend {before after : List (Handle × Instruction Handle)}
    {e f : Handle × Instruction Handle} {n k : Nat}
    (hascend : FirstsAscend ((before ++ e :: after).filterMap fun e => e.2.offset))
    (he : e.2.offset = some n) (hbefore : ∀ g ∈ before, g.2.offset ≠ some n)
    (hf : f ∈ before) (hk : f.2.offset = some k) : k < n := by
  rw [List.filterMap_append, List.filterMap_cons, he] at hascend
  rcases hascend _ _ _ rfl with hmem | hall
  · obtain ⟨g, hg, hoffset⟩ := List.mem_filterMap.mp hmem
    exact absurd hoffset (hbefore g hg)
  · exact hall k (List.mem_filterMap.mpr ⟨f, hf, hk⟩)

/-- Where offsets that come up for the first time ascend, the scan finds for each offset the first
entry with it. -/
theorem reached_of_firstsAscend (hascend : FirstsAscend (entries.filterMap fun e => e.2.offset))
    (n : Nat) :
    reached entries n = (entries.find? fun e => e.2.offset == some n).map Prod.fst := by
  cases hfound : entries.find? fun e => e.2.offset == some n with
  | none =>
      rw [Option.map_none, Option.eq_none_iff_forall_ne_some]
      intro h hreached
      obtain ⟨e, hfilter, -⟩ := Option.map_eq_some_iff.mp hreached
      obtain ⟨hfirst, hoffset⟩ := Option.filter_eq_some_iff.mp hfilter
      exact List.find?_eq_none.mp hfound e (List.mem_of_find?_eq_some hfirst) hoffset
  | some e =>
      obtain ⟨hoffset, before, after, rfl, hbefore⟩ := List.find?_eq_some_iff_append.mp hfound
      rw [beq_iff_eq] at hoffset
      have hother : ∀ g ∈ before, g.2.offset ≠ some n := fun g hg => by simpa using hbefore g hg
      have hnone : before.find? (fun f => f.2.offset.any (n ≤ ·)) = none := by
        refine List.find?_eq_none.mpr fun f hf hpassed => ?_
        obtain ⟨k, hk, hle⟩ := (Option.any_eq_true _ _).mp hpassed
        have hlt := lt_of_firstsAscend hascend hoffset hother hf hk
        exact absurd (of_decide_eq_true hle) (Nat.not_le_of_lt hlt)
      rw [reached, List.find?_append, hnone, Option.none_or, ← reached,
        reached_cons_self hoffset, Option.map_some]

end

variable {b b' : Body} {offsets : List Nat} {id : BodyId} {edits : List Edit}

theorem locateOffsets_eq (hb : b.shifted = false) (offsets : List Nat) :
    b.locateOffsets offsets = offsets.mergeSort.mapM fun n =>
      match reached b.entries n with
      | some h => .ok (n, h)
      | none => .error (.offsetNotFound n) := by
  have hfresh : b.checkFresh = .ok () := by
    rw [checkFresh, hb]
    rfl
  have hzip : offsets.mergeSort.zip (b.scan offsets.mergeSort)
      = offsets.mergeSort.map fun n => (n, reached b.entries n) := by
    rw [scan_eq b (pairwise_mergeSort_le offsets), List.map_prod_left_eq_zip]
  rw [locateOffsets, bind_of_ok hfresh]
  dsimp only
  rw [hzip, mapM_map]
  rfl

/-- Where offsets that come up for the first time ascend, each offset of a list is looked up as on
its own. -/
theorem locateOffsets_of_firstsAscend (hb : b.shifted = false) (hascend : FirstsAscend b.recorded)
    (offsets : List Nat) : b.locateOffsets offsets
      = offsets.mergeSort.mapM fun n => (b.findByOffset n).map fun h => (n, h) := by
  rw [locateOffsets_eq hb]
  refine mapM_congr fun n _ => ?_
  rw [reached_of_firstsAscend hascend, findByOffset_of_unshifted hb]
  cases b.entries.find? fun e => e.2.offset == some n <;> rfl

theorem findByOffset_eq_error (hb : b.shifted = false) {n : Nat} {e : Error}
    (h : b.findByOffset n = .error e) : e = .offsetNotFound n := by
  rw [findByOffset_of_unshifted hb] at h
  split at h
  · cases h
  · exact (Except.error.inj h).symm

/-- A look-up that fails names the first offset in ascending order that is not found. -/
theorem exists_missing_of_locateOffsets (hb : b.shifted = false)
    (hascend : FirstsAscend b.recorded) {e : Error} (h : b.locateOffsets offsets = .error e) :
    ∃ before n after, offsets.mergeSort = before ++ n :: after ∧
      (∀ k ∈ before, ∃ h, b.findByOffset k = .ok h) ∧
      b.findByOffset n = .error (.offsetNotFound n) ∧ e = .offsetNotFound n := by
  rw [locateOffsets_of_firstsAscend hb hascend] at h
  obtain ⟨n, ⟨before, after, hsplit, hbefore⟩, hn⟩ := exists_reached_of_mapM_eq_error h
  have hfind : b.findByOffset n = .error e := by
    cases hfound : b.findByOffset n with
    | ok h => rw [hfound] at hn; cases hn
    | error e' => rw [hfound] at hn; exact congrArg _ (Except.error.inj hn)
  obtain rfl := findByOffset_eq_error hb hfind
  refine ⟨before, n, after, hsplit, fun k hk => ?_, hfind, rfl⟩
  obtain ⟨p, hp⟩ := exists_of_isOk (hbefore k hk)
  obtain ⟨h, hh, -⟩ := map_eq_ok.mp hp
  exact ⟨h, hh⟩

theorem locatesEach_of_firstsAscend (hb : b.shifted = false) (hascend : FirstsAscend b.recorded)
    (offsets : List Nat) : b.LocatesEach offsets := by
  have hsorted := pairwise_mergeSort_le offsets
  have hmem : ∀ n, n ∈ offsets.mergeSort ↔ n ∈ offsets := fun n => List.mem_mergeSort
  have hlocate := locateOffsets_of_firstsAscend hb hascend offsets
  refine ⟨?_, ?_, ?_⟩
  · rw [hlocate, exists_mapM_iff]
    refine forall_congr' fun n => imp_congr (hmem n) ?_
    cases b.findByOffset n with
    | ok h => exact ⟨fun _ => ⟨h, rfl⟩, fun _ => ⟨(n, h), rfl⟩⟩
    | error e => exact ⟨nofun, nofun⟩
  · intro pairs hpairs
    rw [hlocate] at hpairs
    have hfirst : pairs.map Prod.fst = offsets.mergeSort := by
      refine (map_eq_of_forall₂ ((mapM_eq_ok_iff.mp hpairs).imp fun n p hp => ?_)).trans
        (List.map_id offsets.mergeSort)
      obtain ⟨h, -, rfl⟩ := map_eq_ok.mp hp
      rfl
    refine ⟨hfirst ▸ hsorted, hfirst ▸ List.mergeSort_perm offsets _, fun p hp => ?_⟩
    obtain ⟨n, -, hn⟩ := exists_of_mem_mapM hpairs hp
    obtain ⟨h, hh, rfl⟩ := map_eq_ok.mp hn
    exact hh
  · intro e he
    obtain ⟨before, n, after, hsplit, hbefore, hfind, rfl⟩ :=
      exists_missing_of_locateOffsets hb hascend he
    refine ⟨n, (hmem n).mp (hsplit ▸ List.mem_append_right before List.mem_cons_self), rfl, hfind,
      fun k hk hmissing => ?_⟩
    rcases List.mem_append.mp (hsplit ▸ (hmem k).mpr hk) with hk | hk
    · obtain ⟨h, hh⟩ := hbefore k hk
      exact absurd hh (hmissing h)
    · rcases List.mem_cons.mp hk with rfl | hk
      · exact Nat.le_refl k
      · rw [hsplit] at hsorted
        exact (List.pairwise_cons.mp (List.pairwise_append.mp hsorted).2.1).1 k hk

/-- The scan agrees with looking up every offset on its own exactly if offsets that come up for the
first time ascend. -/
theorem locatesEach_iff_firstsAscend (hb : b.shifted = false) :
    (∀ offsets, b.LocatesEach offsets) ↔ FirstsAscend b.recorded := by
  refine ⟨fun hall => firstsAscend_of_reached fun n => ?_, locatesEach_of_firstsAscend hb⟩
  cases hreached : reached b.entries n with
  | some h => exact (find?_of_reached hreached).symm
  | none =>
      -- A look-up of this offset alone fails, so the plain one finds nothing either.
      have hmissed : ¬∃ pairs, b.locateOffsets [n] = .ok pairs := by
        rw [locateOffsets_eq hb, List.mergeSort_singleton, exists_mapM_iff, List.forall_mem_singleton,
          hreached]
        nofun
      rw [(hall [n]).ok_iff, List.forall_mem_singleton, findByOffset_of_unshifted hb] at hmissed
      cases hfound : b.entries.find? fun e => e.2.offset == some n with
      | none => rfl
      | some e =>
          rw [hfound] at hmissed
          exact absurd ⟨e.1, rfl⟩ hmissed

theorem entries_append (b : Body) (i : Instruction Handle) :
    (b.append i).entries = b.entries ++ [(b.next, i)] := by
  have horder : (b.append i).order.toList = b.order.toList ++ [b.slots.size] := Array.toList_push
  have hnew : (b.append i).slots[b.slots.size]? = some ⟨i, true⟩ := Array.getElem?_push_size
  have hold : ∀ slot ∈ b.order.toList, (b.append i).slots[slot]? = b.slots[slot]? := by
    intro slot hslot
    have hlt := Arena.lt_size_of_mem (Array.mem_def.mpr hslot)
    exact Array.getElem?_push_lt hlt |>.trans (Array.getElem?_eq_getElem hlt).symm
  rw [entries, horder, List.filterMap_append, List.filterMap_cons, hnew,
    List.filterMap_congr fun slot hslot => by rw [hold slot hslot]]
  rfl

theorem recorded_append (b : Body) (i : Instruction Handle) :
    (b.append i).recorded = b.recorded ++ i.offset.toList := by
  rw [recorded, entries_append, List.filterMap_append, ← recorded]
  cases hoffset : i.offset <;> simp [hoffset]

theorem Mirrors.recorded {f : Handle → Handle} (hb : b.Mirrors f b') :
    b'.recorded = b.recorded := by
  have hoffsets : b'.entries.map (fun e => e.2.offset) = b.entries.map fun e => e.2.offset :=
    map_eq_of_forall₂ (hb.entries.imp fun _ _ he => he.2)
  have hsplit : ∀ b : Body, b.recorded = (b.entries.map fun e => e.2.offset).filterMap fun n => n :=
    fun b => by rw [List.filterMap_map]; rfl
  rw [hsplit, hsplit, hoffsets]

/-- In a body as it is loaded offsets ascend. -/
theorem Fresh.pairwise_recorded (hb : b.Fresh) : b.recorded.Pairwise (· < ·) := by
  rw [recorded, List.pairwise_filterMap, List.pairwise_iff_getElem]
  intro p q hp hq hpq n hn k hk
  have hlength : b.ranked.code.length = b.entries.length := List.length_map _
  rw [hb.inPlace.offsets p _ (List.getElem?_eq_getElem hp)] at hn
  rw [hb.inPlace.offsets q _ (List.getElem?_eq_getElem hq)] at hk
  cases hn
  cases hk
  exact Layout.offset_lt_offset hpq (hlength ▸ Nat.le_of_lt hq)

end Body

/-- The offset that an edit adds to those recorded in `b`. -/
def Edit.added? (b : Body) : Edit → Option Nat
  | .push i => if (Body.push i b).1.isOk then i.offset else none
  | .replace _ _ | .remove _ | .splice _ _ => none

/-- Every offset that a run of edits adds is above those recorded so far, or one of them. -/
def Body.AddsInOrder : Body → List Edit → Prop
  | _, [] => True
  | b, e :: edits =>
    (∀ n, e.added? b = some n → n ∈ b.recorded ∨ ∀ k ∈ b.recorded, k < n) ∧
      AddsInOrder (e.apply b) edits

/-- As long as no code has moved, an edit adds at most the offset of what it appends. -/
theorem Edit.recorded_apply {e : Edit} {b : Body} (h : (e.apply b).shifted = false) :
    b.shifted = false ∧ (e.apply b).recorded = b.recorded ++ (e.added? b).toList := by
  have hkept : e.Unrecorded → b.shifted = false ∧ (e.apply b).recorded = b.recorded := by
    intro he
    rcases moves_cases he b with ⟨-, hshifted⟩ | ⟨-, hmirrors⟩
    · rw [h] at hshifted
      cases hshifted
    · exact ⟨hmirrors.shifted.symm.trans h, hmirrors.recorded⟩
  cases e with
  | push i =>
      rcases Body.push_cases i b with ⟨-, heq⟩ | ⟨e, -, heq⟩
      · simp only [apply, heq, Bool.or_eq_false_iff] at h
        refine ⟨h.1, ?_⟩
        simp only [apply, added?, heq]
        exact b.recorded_append i
      · simp only [apply, added?, heq] at h ⊢
        exact ⟨h, (List.append_nil _).symm⟩
  | replace _ _ | remove _ | splice _ _ =>
      obtain ⟨hfresh, hrecorded⟩ := hkept trivial
      exact ⟨hfresh, hrecorded.trans (List.append_nil _).symm⟩

namespace Body

variable {b start : Body} {id : BodyId} {edits : List Edit}

theorem unshifted_of_edited (h : (b.edited edits).shifted = false) : b.shifted = false := by
  induction edits generalizing b with
  | nil => exact h
  | cons e edits ih => exact (Edit.recorded_apply (ih h)).1

theorem firstsAscend_edited_iff (h : (b.edited edits).shifted = false) :
    FirstsAscend (b.edited edits).recorded ↔ FirstsAscend b.recorded ∧ b.AddsInOrder edits := by
  induction edits generalizing b with
  | nil => exact (and_iff_left trivial).symm
  | cons e edits ih =>
      obtain ⟨-, hrecorded⟩ := Edit.recorded_apply (unshifted_of_edited (b := e.apply b) h)
      have hstep : FirstsAscend (e.apply b).recorded ↔ FirstsAscend b.recorded ∧
          ∀ n, e.added? b = some n → n ∈ b.recorded ∨ ∀ k ∈ b.recorded, k < n := by
        rw [hrecorded]
        cases e.added? b with
        | none => simp
        | some n => simp [firstsAscend_concat_iff]
      exact (ih h).trans ((and_congr_left' hstep).trans and_assoc)

theorem addsInOrder_of_unrecorded (b : Body) (hnew : ∀ e ∈ edits, e.Unrecorded) :
    b.AddsInOrder edits := by
  induction edits generalizing b with
  | nil => exact trivial
  | cons e edits ih =>
      obtain ⟨he, hrest⟩ := List.forall_mem_cons.mp hnew
      refine ⟨fun n hn => ?_, ih (e.apply b) hrest⟩
      cases e with
      | push i =>
          rw [Edit.added?, show i.offset = none from he, ite_self] at hn
          cases hn
      | replace _ _ | remove _ | splice _ _ => cases hn

/-- In a new or decoded body that was edited and not shifted, the scan for many offsets agrees with
looking up each of them exactly if the pushed instructions with recorded offsets came in order. -/
theorem locatesEach_iff_addsInOrder
    (hstart : start = .empty id ∨ ∃ data, decode id data = .ok start)
    (hfresh : (start.edited edits).shifted = false) :
    (∀ offsets, (start.edited edits).LocatesEach offsets) ↔ start.AddsInOrder edits := by
  have hascend : FirstsAscend start.recorded := by
    rcases hstart with rfl | ⟨data, hdecode⟩
    · exact firstsAscend_nil
    · exact firstsAscend_of_pairwise (fresh_of_decode hdecode).pairwise_recorded
  rw [locatesEach_iff_firstsAscend hfresh, firstsAscend_edited_iff hfresh]
  exact and_iff_right hascend

/-- Two instructions, with ascending offsets. -/
theorem locatesEach_iff_addsInOrder_empty :
    ((empty ⟨0, 0⟩).edited [.push ⟨.nop, .none, some 0⟩, .push ⟨.ret, .none, some 1⟩]).shifted = false ∧
      ∀ offsets, ((empty ⟨0, 0⟩).edited
        [.push ⟨.nop, .none, some 0⟩, .push ⟨.ret, .none, some 1⟩]).LocatesEach offsets := by
  have hfresh : ((empty ⟨0, 0⟩).edited
      [.push ⟨.nop, .none, some 0⟩, .push ⟨.ret, .none, some 1⟩]).shifted = false := by decide
  refine ⟨hfresh, (locatesEach_iff_addsInOrder (.inl rfl) hfresh).mpr ?_⟩
  refine ⟨fun n hn => .inr ?_, fun n hn => .inr ?_, trivial⟩ <;> cases hn <;> decide

/-- With descending offsets the scan passes over an instruction that a look-up of its own finds. -/
theorem not_locatesEach_descending : ∃ b : Body, b = (empty ⟨0, 0⟩).edited
    [.push ⟨.nop, .none, some 5⟩, .push ⟨.nop, .none, some 0⟩] ∧ b.shifted = false ∧
      b.findByOffset 0 = .ok ⟨⟨0, 0⟩, 1⟩ ∧ b.locateOffsets [0] = .error (.offsetNotFound 0) ∧
        ¬b.LocatesEach [0] := by
  refine ⟨_, rfl, rfl, rfl, ?_⟩
  have hmissed : ((empty ⟨0, 0⟩).edited [.push ⟨.nop, .none, some 5⟩,
      .push ⟨.nop, .none, some 0⟩]).locateOffsets [0] = .error (.offsetNotFound 0) := by
    rw [locateOffsets_eq rfl, List.mergeSort_singleton]
    rfl
  refine ⟨hmissed, fun hall => ?_⟩
  obtain ⟨pairs, hpairs⟩ := hall.ok_iff.mpr (List.forall_mem_singleton.mpr ⟨⟨⟨0, 0⟩, 1⟩, rfl⟩)
  rw [hmissed] at hpairs
  cases hpairs

end Body

end CilEdit

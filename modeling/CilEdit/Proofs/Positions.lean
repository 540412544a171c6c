import CilEdit.Body.Encode
import CilEdit.Proofs.Sequencing

namespace CilEdit.Body

variable {b : Body} {h t : Handle} {p : Nat}

theorem contains_iff : b.contains h = true ↔ h.body = b.id ∧ h.slot ∈ b.order := by
  rw [contains, owns, Bool.and_eq_true, Bool.and_eq_true, beq_iff_eq, decide_eq_true_eq,
    b.mem_order_iff, Arena.attached]
  refine ⟨fun hall => ⟨hall.1.1, hall.2⟩, fun hall => ⟨⟨hall.1, ?_⟩, hall.2⟩⟩
  exact Arena.lt_size_of_mem ((b.mem_order_iff h.slot).mpr hall.2)

theorem contains_handle {slot : Nat} (hslot : slot ∈ b.order) :
    b.contains (b.handle slot) = true :=
  contains_iff.mpr ⟨rfl, hslot⟩

theorem handle_slot (hmem : b.contains h = true) : b.handle h.slot = h := by
  cases h with
  | mk body slot => rw [handle, ← (contains_iff.mp hmem).1]

theorem exists_slot {slot : Nat} (hslot : slot ∈ b.order) :
    ∃ i, b.slots[slot]? = some ⟨i, true⟩ := by
  rw [b.mem_order_iff, Option.any_eq_true] at hslot
  obtain ⟨⟨i, attached⟩, hget, hattached⟩ := hslot
  exact ⟨i, by rw [hget]; exact congrArg some (congrArg (Slot.mk i) hattached)⟩

theorem forall₂_filterMap {α β : Type} {f : α → Option β} {xs : List α}
    (hsome : ∀ x ∈ xs, ∃ y, f x = some y) :
    List.Forall₂ (fun x y => f x = some y) xs (xs.filterMap f) := by
  induction xs with
  | nil => exact .nil
  | cons x xs ih =>
      obtain ⟨y, hy⟩ := hsome x List.mem_cons_self
      rw [List.filterMap_cons_some hy]
      exact .cons hy (ih fun z hz => hsome z (List.mem_cons_of_mem x hz))

theorem forall₂_entries (b : Body) :
    List.Forall₂ (fun slot e => e.1 = b.handle slot ∧ b.slots[slot]? = some ⟨e.2, true⟩)
      b.order.toList b.entries := by
  have hsome : ∀ slot ∈ b.order.toList, ∃ e : Handle × Instruction Handle,
      (b.slots[slot]?.map fun s => (b.handle slot, s.instruction)) = some e := by
    intro slot hslot
    obtain ⟨i, hi⟩ := exists_slot (Array.mem_def.mpr hslot)
    exact ⟨(b.handle slot, i), by rw [hi]; rfl⟩
  have hmem := (List.forall₂_and_left _ _).mpr ⟨fun _ hslot => hslot, forall₂_filterMap hsome⟩
  refine hmem.imp fun slot e hslot => ?_
  obtain ⟨hslot, he⟩ := hslot
  obtain ⟨i, hi⟩ := exists_slot (Array.mem_def.mpr hslot)
  rw [hi] at he
  cases he
  exact ⟨rfl, hi⟩

theorem length_entries (b : Body) : b.entries.length = b.length := by
  rw [← b.forall₂_entries.length_eq, Array.length_toList, length]

theorem getElem?_entries {e : Handle × Instruction Handle} :
    b.entries[p]? = some e ↔
      ∃ slot, b.order[p]? = some slot ∧ e.1 = b.handle slot ∧
        b.slots[slot]? = some ⟨e.2, true⟩ := by
  have hall := (List.forall₂_iff_get.mp b.forall₂_entries).2
  have hlength := b.forall₂_entries.length_eq
  rw [← Array.getElem?_toList]
  constructor
  · intro he
    obtain ⟨hp, rfl⟩ := List.getElem?_eq_some_iff.mp he
    have hp' : p < b.order.toList.length := by rw [hlength]; exact hp
    exact ⟨b.order.toList[p], List.getElem?_eq_getElem hp', hall p hp' hp⟩
  · rintro ⟨slot, hslot, hhandle, hget⟩
    obtain ⟨hp, rfl⟩ := List.getElem?_eq_some_iff.mp hslot
    have hp' : p < b.entries.length := by rw [← hlength]; exact hp
    obtain ⟨hhandle', hget'⟩ := hall p hp hp'
    simp only [List.get_eq_getElem] at hhandle' hget'
    rw [hget] at hget'
    simp only [Option.some.injEq, Slot.mk.injEq, and_true] at hget'
    rw [List.getElem?_eq_getElem hp']
    exact congrArg some (Prod.ext (hhandle'.trans hhandle.symm) hget'.symm)

theorem entries_ofInstructions {instructions : List (Instruction Handle)}
    (hb : b.toArena = .ofInstructions instructions) :
    b.entries = instructions.zipIdx.map fun (i, p) => (b.handle p, i) := by
  refine List.ext_getElem? fun p => ?_
  by_cases hp : p < instructions.length
  · rw [List.getElem?_map, List.getElem?_zipIdx, List.getElem?_eq_getElem hp]
    apply getElem?_entries.mpr
    refine ⟨p, ?_, ?_, ?_⟩
    · simp [hb, Arena.ofInstructions, hp]
    · simp
    · simp [hb, Arena.ofInstructions, hp]
  · rw [List.getElem?_eq_none, List.getElem?_eq_none]
    · rw [List.length_map, List.length_zipIdx]
      exact Nat.not_lt.mp hp
    · rw [length_entries, length, hb, Arena.ofInstructions, Array.size_range]
      exact Nat.not_lt.mp hp

theorem mem_entries_iff {i : Instruction Handle} :
    (h, i) ∈ b.entries ↔ b.contains h = true ∧ b.slots[h.slot]? = some ⟨i, true⟩ := by
  rw [List.mem_iff_getElem?]
  constructor
  · rintro ⟨p, hp⟩
    obtain ⟨slot, hslot, rfl, hget⟩ := getElem?_entries.mp hp
    exact ⟨contains_handle (Array.mem_of_getElem? hslot), hget⟩
  · rintro ⟨hmem, hget⟩
    obtain ⟨p, hp, hslot⟩ := Array.mem_iff_getElem.mp (contains_iff.mp hmem).2
    refine ⟨p, getElem?_entries.mpr ⟨h.slot, ?_, (handle_slot hmem).symm, hget⟩⟩
    rw [Array.getElem?_eq_getElem hp, hslot]

theorem at?_eq_some_iff : b.at? p = some h ↔ h.body = b.id ∧ b.order[p]? = some h.slot := by
  rw [at?, Option.map_eq_some_iff]
  constructor
  · rintro ⟨slot, hslot, rfl⟩
    exact ⟨rfl, hslot⟩
  · rintro ⟨hbody, hslot⟩
    refine ⟨h.slot, hslot, ?_⟩
    rw [handle, ← hbody]

theorem contains_of_at? (hp : b.at? p = some h) : b.contains h = true := by
  obtain ⟨hbody, hslot⟩ := at?_eq_some_iff.mp hp
  exact contains_iff.mpr ⟨hbody, Array.mem_of_getElem? hslot⟩

theorem idxOf?_eq_some_iff {order : Array Nat} (hnodup : order.toList.Nodup) {n : Nat} :
    order.idxOf? n = some p ↔ order[p]? = some n := by
  cases order with
  | mk order =>
      rw [List.idxOf?_toArray, List.getElem?_toArray, List.idxOf?_eq_some_iff,
        List.getElem?_eq_some_iff]
      constructor
      · rintro ⟨hp, heq, -⟩
        exact ⟨hp, heq⟩
      · rintro ⟨hp, rfl⟩
        refine ⟨hp, rfl, fun q hq => ?_⟩
        exact List.pairwise_iff_getElem.mp hnodup q p (Nat.lt_trans hq hp) hp hq

theorem position_eq_some_iff : b.position h = some p ↔ b.at? p = some h := by
  rw [position]
  constructor
  · intro hp
    split at hp
    · rename_i hmem
      exact at?_eq_some_iff.mpr ⟨(contains_iff.mp hmem).1, (idxOf?_eq_some_iff b.nodup).mp hp⟩
    · cases hp
  · intro hp
    rw [if_pos (contains_of_at? hp)]
    exact (idxOf?_eq_some_iff b.nodup).mpr (at?_eq_some_iff.mp hp).2

theorem isSome_position (b : Body) (h : Handle) : (b.position h).isSome = b.contains h := by
  rw [Bool.eq_iff_iff, Option.isSome_iff_exists]
  constructor
  · rintro ⟨p, hp⟩
    exact contains_of_at? (position_eq_some_iff.mp hp)
  · intro hmem
    obtain ⟨p, hp, hslot⟩ := Array.mem_iff_getElem.mp (contains_iff.mp hmem).2
    refine ⟨p, position_eq_some_iff.mpr (at?_eq_some_iff.mpr ⟨(contains_iff.mp hmem).1, ?_⟩)⟩
    rw [Array.getElem?_eq_getElem hp, hslot]

/-- The position of a handle, zero for one that is not in the list. -/
def rank (b : Body) (h : Handle) : Nat :=
  (b.position h).getD 0

theorem position_of_contains (hmem : b.contains h = true) : b.position h = some (b.rank h) := by
  rw [← isSome_position] at hmem
  obtain ⟨p, hp⟩ := Option.isSome_iff_exists.mp hmem
  rw [rank, hp]
  rfl

theorem at?_rank (hmem : b.contains h = true) : b.at? (b.rank h) = some h :=
  position_eq_some_iff.mp (position_of_contains hmem)

theorem rank_lt_length (hmem : b.contains h = true) : b.rank h < b.length :=
  (Array.getElem?_eq_some_iff.mp (at?_eq_some_iff.mp (at?_rank hmem)).2).1

theorem rank_of_at? (hp : b.at? p = some h) : b.rank h = p := by
  rw [rank, position_eq_some_iff.mpr hp]
  rfl

theorem getElem?_positions {slot : Nat} (hslot : b.order[p]? = some slot) :
    b.positions[slot]? = some p := by
  refine Std.HashMap.getElem?_ofList_of_mem (k := slot) (beq_self_eq_true slot) ?_ ?_
  · rw [List.pairwise_iff_getElem]
    intro i j hi hj hij
    rw [List.length_zipIdx] at hi hj
    simp only [List.getElem_zipIdx, beq_eq_false_iff_ne]
    exact List.pairwise_iff_getElem.mp b.nodup i j hi hj hij
  · rw [List.mem_zipIdx_iff_getElem?, Array.getElem?_toList]
    exact hslot

theorem place_of_contains (hmem : b.contains h = true) :
    b.place b.positions h = .ok (b.rank h) := by
  obtain ⟨hbody, hslot⟩ := at?_eq_some_iff.mp (at?_rank hmem)
  simp only [place, if_pos hbody, getElem?_positions hslot]

def NotAfter (b : Body) (x y : Handle) : Prop :=
  x = y ∨ [x.slot, y.slot].Sublist b.order.toList

theorem pair_sublist {order : List Nat} {p q x y : Nat} (hpq : p < q) (hx : order[p]? = some x)
    (hy : order[q]? = some y) : [x, y].Sublist order := by
  obtain ⟨hq, rfl⟩ := List.getElem?_eq_some_iff.mp hy
  have hbefore : x ∈ order.take q := by
    refine List.mem_of_getElem? (i := p) ?_
    rw [List.getElem?_take_of_lt hpq, hx]
  have hafter : order[q] ∈ order.drop q := by
    refine List.mem_of_getElem? (i := 0) ?_
    rw [List.getElem?_drop, Nat.add_zero, List.getElem?_eq_getElem hq]
  have happend := (List.singleton_sublist.mpr hbefore).append (List.singleton_sublist.mpr hafter)
  rwa [List.take_append_drop] at happend

theorem lt_of_pair_sublist {order : List Nat} (hnodup : order.Nodup) {p q x y : Nat}
    (hpair : [x, y].Sublist order) (hx : order[p]? = some x) (hy : order[q]? = some y) : p < q := by
  obtain ⟨hp, rfl⟩ := List.getElem?_eq_some_iff.mp hx
  obtain ⟨hq, rfl⟩ := List.getElem?_eq_some_iff.mp hy
  -- Without repetitions, the index of an element is its position.
  have hsorted : order.Pairwise fun a b => order.idxOf a < order.idxOf b := by
    rw [List.pairwise_iff_getElem]
    intro i j hi hj hij
    rwa [hnodup.idxOf_getElem, hnodup.idxOf_getElem]
  have hlt := List.pairwise_iff_forall_sublist.mp hsorted hpair
  rwa [hnodup.idxOf_getElem, hnodup.idxOf_getElem] at hlt

theorem rank_le_rank {x y : Handle} (hx : b.contains x = true) (hy : b.contains y = true)
    (h : b.NotAfter x y) : b.rank x ≤ b.rank y := by
  rcases h with rfl | hpair
  · exact Nat.le_refl _
  · have hat : ∀ t, b.contains t = true → b.order.toList[b.rank t]? = some t.slot := by
      intro t ht
      rw [Array.getElem?_toList]
      exact (at?_eq_some_iff.mp (at?_rank ht)).2
    exact Nat.le_of_lt (lt_of_pair_sublist b.nodup hpair (hat x hx) (hat y hy))

structure Linked (b : Body) : Prop where
  targets : ∀ e ∈ b.entries, ∀ t ∈ e.2.operand.targets, b.contains t = true
  boundaries : ∀ h ∈ b.handlers, ∀ t ∈ h.boundaries, b.contains t = true

/-- The body with every handle replaced by its position. -/
def ranked (b : Body) : Listing where
  code := b.entries.map fun e => ⟨e.2.opcode, e.2.operand.map b.rank, none⟩
  handlers := b.handlers.map (Handler.map b.rank)
  maxStack := b.maxStack
  locals := b.locals
  initLocals := b.initLocals

end Body

structure Listing.Linked (l : Listing) : Prop where
  targets : ∀ i ∈ l.code, ∀ t ∈ i.operand.targets, t < l.code.length
  boundaries : ∀ h ∈ l.handlers, ∀ t ∈ h.boundaries, t < l.code.length

theorem Handler.traverse_eq_ok {τ σ : Type} {f : τ → Except Error σ} {g : τ → σ} {h : Handler τ}
    (hall : ∀ t ∈ h.boundaries, f t = .ok (g t)) : h.traverse f = .ok (h.map g) := by
  have hopt : ∀ o : Option τ, (∀ t, o = some t → f t = .ok (g t)) →
      o.mapM f = .ok (o.map g) := by
    intro o ho
    cases o with
    | none => rfl
    | some t =>
        rw [Option.mapM_some, ho t rfl]
        rfl
  obtain ⟨htryStart, htryEnd, hhandlerStart, hhandlerEnd, hfilterStart⟩ :=
    forall_mem_boundaries.mp hall
  rw [traverse, bind_of_ok htryStart, bind_of_ok (hopt _ htryEnd), bind_of_ok hhandlerStart,
    bind_of_ok (hopt _ hhandlerEnd), bind_of_ok (hopt _ hfilterStart)]
  rfl

theorem Handler.exists_of_traverse_eq_ok {τ σ : Type} {f : τ → Except Error σ} {h : Handler τ}
    {found : Handler σ} (hfound : h.traverse f = .ok found) {t : τ} (ht : t ∈ h.boundaries) :
    ∃ s, f t = .ok s := by
  have hopt : ∀ {o : Option τ} {o' : Option σ}, o.mapM f = .ok o' → ∀ t, o = some t →
      ∃ s, f t = .ok s := by
    rintro o o' ho t rfl
    obtain ⟨s, hs, -⟩ := map_eq_ok.mp ho
    exact ⟨s, hs⟩
  obtain ⟨tryStart, htryStart, hfound⟩ := bind_eq_ok.mp hfound
  obtain ⟨tryEnd, htryEnd, hfound⟩ := bind_eq_ok.mp hfound
  obtain ⟨handlerStart, hhandlerStart, hfound⟩ := bind_eq_ok.mp hfound
  obtain ⟨handlerEnd, hhandlerEnd, hfound⟩ := bind_eq_ok.mp hfound
  obtain ⟨filterStart, hfilterStart, -⟩ := bind_eq_ok.mp hfound
  exact forall_mem_boundaries.mpr ⟨⟨_, htryStart⟩, hopt htryEnd, ⟨_, hhandlerStart⟩,
    hopt hhandlerEnd, hopt hfilterStart⟩ t ht

namespace Body

variable {b : Body}

theorem targets_ranked
    (htargets : ∀ e ∈ b.entries, ∀ t ∈ e.2.operand.targets, b.contains t = true) :
    ∀ i ∈ b.ranked.code, ∀ t ∈ i.operand.targets, t < b.ranked.code.length := by
  intro i hi t ht
  obtain ⟨e, he, rfl⟩ := List.mem_map.mp hi
  rw [Operand.targets_map, List.mem_map] at ht
  obtain ⟨target, htarget, rfl⟩ := ht
  rw [Body.ranked, List.length_map, length_entries]
  exact rank_lt_length (htargets e he target htarget)

theorem Linked.ranked (hlinked : b.Linked) : b.ranked.Linked where
  targets := targets_ranked hlinked.targets
  boundaries h hh t ht := by
    obtain ⟨k, hk, rfl⟩ := List.mem_map.mp hh
    rw [Handler.boundaries_map, List.mem_map] at ht
    obtain ⟨boundary, hboundary, rfl⟩ := ht
    rw [Body.ranked, List.length_map, length_entries]
    exact rank_lt_length (hlinked.boundaries k hk boundary hboundary)

theorem Linked.listing_eq (hlinked : b.Linked) : b.listing = .ok b.ranked := by
  have hcode : b.entries.mapM (fun e =>
      (e.2.operand.traverse (b.place b.positions)).map fun operand =>
        (⟨e.2.opcode, operand, none⟩ : Instruction Nat)) = .ok b.ranked.code := by
    refine mapM_eq_ok_map fun e he => ?_
    have hoperand : e.2.operand.traverse (b.place b.positions)
        = .ok (e.2.operand.map b.rank) :=
      Operand.traverse_eq_ok fun t ht => place_of_contains (hlinked.targets e he t ht)
    rw [hoperand]
    rfl
  have hhandlers : b.handlers.mapM (Handler.traverse (b.place b.positions))
      = .ok b.ranked.handlers := by
    refine mapM_eq_ok_map fun h hh => ?_
    exact Handler.traverse_eq_ok fun t ht => place_of_contains (hlinked.boundaries h hh t ht)
  rw [listing]
  exact (bind_of_ok hcode).trans (bind_of_ok hhandlers)

end CilEdit.Body

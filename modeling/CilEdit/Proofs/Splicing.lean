import CilEdit.Proofs.Handles

namespace CilEdit

namespace Body

/-- The next instruction of the list. -/
def following? (b : Body) (h : Handle) : Option Handle :=
  (b.position h).bind fun p => b.at? (p + 1)

/-- Where control goes on: at a branch target, or behind an instruction that it falls through. -/
def successors (b : Body) (h : Handle) : List Handle :=
  match b.get? h with
  | some i =>
    i.operand.targets ++ if i.opcode.flow.fallsThrough then (b.following? h).toList else []
  | none => []

/-- `b'` is `b` with a sequence after the anchor, whose instructions have the handles of `new`. -/
structure Inserts (b : Body) (anchor : Handle) (s : Sequence) (new : Spliced) (b' : Body) :
    Prop where
  list : ∃ before after, b.handles = before ++ anchor :: after ∧
    b'.handles = before ++ anchor :: (new.handles ++ after)
  first : new.handles.head? = some new.first
  fresh : ∀ h ∈ new.handles, b.owns h = false
  emitted : ∃ instructions, s.resolve b = .ok instructions ∧
    List.Forall₂ (fun h i => b'.get? h = some i) new.handles instructions ∧
    List.Forall₂ (fun p i => i.opcode = p.1 ∧ p.2.traverse (s.resolveTarget b) = .ok i.operand ∧
      i.offset = none) s.pending.toList instructions
  labels : ∀ l h, s.resolveTarget b (.label l) = .ok h → new.find? l = some h
  kept : ∀ h, b.owns h = true → b'.get? h = b.get? h
  handlers : b'.handlers = b.handlers
  header : b'.maxStack = b.maxStack ∧ b'.locals = b.locals ∧ b'.initLocals = b.initLocals
  linked : b.Linked → b'.Linked
  successors : ∀ h, b.contains h = true → h ≠ anchor → b'.successors h = b.successors h
  entered : b'.following? anchor = some new.first
  left : ∃ last, new.handles.getLast? = some last ∧ b'.following? last = b.following? anchor

variable {b b' : Body} {h anchor : Handle} {p : Nat} {xs ys before after block : List Handle}
  {instructions : List (Instruction Handle)}

theorem getElem?_handles : b.handles[p]? = b.at? p := by
  rw [handles, List.getElem?_map, Array.getElem?_toList, at?]

theorem mem_handles_iff : h ∈ b.handles ↔ b.contains h = true := by
  rw [contains_iff, handles, List.mem_map]
  constructor
  · rintro ⟨slot, hslot, rfl⟩
    exact ⟨rfl, Array.mem_def.mpr hslot⟩
  · rintro ⟨hbody, hslot⟩
    exact ⟨h.slot, Array.mem_def.mp hslot, by rw [handle, ← hbody]⟩

theorem following?_of_split (hb : b.handles = xs ++ h :: ys) : b.following? h = ys.head? := by
  have hat : b.at? xs.length = some h := by
    rw [← getElem?_handles, hb, List.getElem?_append_right (Nat.le_refl _), Nat.sub_self]
    rfl
  rw [following?, position_eq_some_iff.mpr hat, Option.bind_some, ← getElem?_handles, hb,
    List.getElem?_append_right (Nat.le_add_right _ 1), Nat.add_sub_cancel_left,
    List.getElem?_cons_succ, List.head?_eq_getElem?]

/-- A block after the anchor comes between the anchor and the next instruction only. -/
theorem following?_of_insert (hb : b.handles = before ++ anchor :: after)
    (hb' : b'.handles = before ++ anchor :: (block ++ after)) (hmem : b.contains h = true)
    (hne : h ≠ anchor) : b'.following? h = b.following? h := by
  have hlist := mem_handles_iff.mpr hmem
  rw [hb, List.mem_append, List.mem_cons] at hlist
  rcases hlist with hbefore | rfl | hafter
  · obtain ⟨xs, ys, rfl⟩ := List.append_of_mem hbefore
    rw [List.append_assoc, List.cons_append] at hb hb'
    rw [following?_of_split hb, following?_of_split hb']
    cases ys <;> rfl
  · exact absurd rfl hne
  · obtain ⟨xs, ys, rfl⟩ := List.append_of_mem hafter
    rw [← List.cons_append, ← List.append_assoc] at hb
    rw [← List.append_assoc block, ← List.cons_append, ← List.append_assoc] at hb'
    rw [following?_of_split hb, following?_of_split hb']

theorem following?_of_block (hb : b.handles = before ++ anchor :: after)
    (hb' : b'.handles = before ++ anchor :: (block ++ after)) {first : Handle}
    (hfirst : block.head? = some first) : b'.following? anchor = some first ∧
      ∃ last, block.getLast? = some last ∧ b'.following? last = b.following? anchor := by
  constructor
  · rw [following?_of_split hb', List.head?_append, hfirst]
    rfl
  · have hne : block ≠ [] := by
      rintro rfl
      cases hfirst
    refine ⟨block.getLast hne, List.getLast?_eq_some_getLast hne, ?_⟩
    rw [← List.dropLast_append_getLast hne, List.append_assoc, List.singleton_append,
      ← List.cons_append, ← List.append_assoc] at hb'
    rw [following?_of_split hb', following?_of_split hb]

@[simp]
theorem handlers_insertAfter (b : Body) (p : Nat) (instructions : List (Instruction Handle)) :
    (b.insertAfter p instructions).handlers = b.handlers := rfl

@[simp]
theorem maxStack_insertAfter (b : Body) (p : Nat) (instructions : List (Instruction Handle)) :
    (b.insertAfter p instructions).maxStack = b.maxStack := rfl

@[simp]
theorem locals_insertAfter (b : Body) (p : Nat) (instructions : List (Instruction Handle)) :
    (b.insertAfter p instructions).locals = b.locals := rfl

@[simp]
theorem initLocals_insertAfter (b : Body) (p : Nat) (instructions : List (Instruction Handle)) :
    (b.insertAfter p instructions).initLocals = b.initLocals := rfl

theorem handles_insertAfter_eq (b : Body) (p : Nat) (instructions : List (Instruction Handle)) :
    (b.insertAfter p instructions).handles = b.handles.take (p + 1)
      ++ b.nextHandles instructions.length ++ b.handles.drop (p + 1) := by
  change (b.orderAfter p instructions.length).map b.handle = _
  rw [Arena.orderAfter, List.map_append, List.map_append, List.map_take, List.map_drop]
  rfl

theorem handles_insertAfter (instructions : List (Instruction Handle))
    (hp : b.position anchor = some p) :
    ∃ before after, b.handles = before ++ anchor :: after ∧
      (b.insertAfter p instructions).handles
        = before ++ anchor :: (b.nextHandles instructions.length ++ after) := by
  have hanchor : b.handles.take (p + 1) = b.handles.take p ++ [anchor] := by
    rw [List.take_add_one, getElem?_handles, position_eq_some_iff.mp hp]
    rfl
  refine ⟨b.handles.take p, b.handles.drop (p + 1), ?_, ?_⟩
  · rw [← List.singleton_append, ← List.append_assoc, ← hanchor, List.take_append_drop]
  · rw [handles_insertAfter_eq, hanchor, List.append_assoc, List.append_assoc,
      List.singleton_append]

theorem owns_insertAfter (howns : b.owns h = true) :
    (b.insertAfter p instructions).owns h = true := by
  obtain ⟨hbody, hslot⟩ := owns_iff.mp howns
  refine owns_iff.mpr ⟨hbody, Nat.lt_of_lt_of_le hslot ?_⟩
  change b.slots.size ≤ (b.slots ++ _).size
  rw [Array.size_append]
  exact Nat.le_add_right _ _

theorem get?_insertAfter_of_owns (howns : b.owns h = true) :
    (b.insertAfter p instructions).get? h = b.get? h := by
  cases hi : b.get? h with
  | some i => exact get?_insertAfter hi
  | none =>
      rw [get?_eq_none_iff, Bool.eq_false_iff] at hi ⊢
      intro hmem
      rcases contains_insertAfter.mp hmem with hold | ⟨k, -, rfl⟩
      · exact hi hold
      · rw [not_owns_handle (Nat.le_add_right _ _)] at howns
        cases howns

theorem getElem?_nextHandles {count n : Nat} (hn : n < count) :
    (b.nextHandles count)[n]? = some (b.handle (b.slots.size + n)) := by
  rw [nextHandles, List.getElem?_map, List.getElem?_range' hn, Nat.one_mul]
  rfl

theorem successors_congr (hget : b'.get? h = b.get? h) (hnext : b'.following? h = b.following? h) :
    b'.successors h = b.successors h := by
  rw [successors, successors, hget, hnext]

end Body

theorem Sequence.forall₂_resolve {s : Sequence} {b : Body}
    {instructions : List (Instruction Handle)} (h : s.resolve b = .ok instructions) :
    List.Forall₂ (fun p i => i.opcode = p.1 ∧ p.2.traverse (s.resolveTarget b) = .ok i.operand ∧
      i.offset = none) s.pending.toList instructions := by
  rw [resolve] at h
  split at h
  · cases h
  · refine (mapM_eq_ok_iff.mp h).imp fun p i hi => ?_
    obtain ⟨operand, hoperand, hmake⟩ := bind_eq_ok.mp hi
    obtain ⟨rfl, -⟩ := Instruction.make_eq_ok hmake
    exact ⟨rfl, hoperand, rfl⟩

theorem Spliced.find?_eq_some_iff {new : Spliced} {l : Label} {h : Handle} :
    new.find? l = some h ↔ l.sequence = new.sequence ∧
      ∃ position, new.labels[l.index]? = some (some position) ∧ new.handles[position]? = some h := by
  rw [find?]
  by_cases hown : l.sequence = new.sequence
  · simp [hown, guard, Option.bind_eq_some_iff]
  · simp [hown, guard]

/-- The handle that a branch to a label gets is the one that the label has after the splice. -/
theorem Sequence.find?_of_resolveTarget {s : Sequence} {b : Body} {l : Label} {h first : Handle}
    {instructions : List (Instruction Handle)} (hresolved : s.resolve b = .ok instructions)
    (hl : s.resolveTarget b (.label l) = .ok h) :
    Spliced.find? ⟨s.id, first, b.nextHandles instructions.length, s.labels⟩ l = some h := by
  have hlength : s.pending.size = instructions.length := by
    rw [← Array.length_toList]
    exact (s.forall₂_resolve hresolved).length_eq
  obtain ⟨hown, position, hposition, hlt, rfl⟩ := resolveTarget_label_iff.mp hl
  exact Spliced.find?_eq_some_iff.mpr
    ⟨hown, position, hposition, b.getElem?_nextHandles (hlength ▸ hlt)⟩

namespace Body

variable {b b' : Body} {anchor : Handle} {s : Sequence} {new : Spliced}

/-- A splice that succeeds inserts its sequence and disturbs nothing else. -/
theorem inserts_of_splice (h : splice anchor s b = (.ok new, b')) : b.Inserts anchor s new b' := by
  obtain ⟨p, instructions, hp, hfilled, hresolved, rfl, rfl⟩ := splice_eq_ok_iff.mp h
  obtain ⟨before, after, hb, hb'⟩ := handles_insertAfter instructions hp
  have hfirst : (b.nextHandles instructions.length).head? = some b.next :=
    head?_nextHandles (s.length_pos_of_resolve hfilled hresolved)
  obtain ⟨hentered, hleft⟩ := following?_of_block hb hb' hfirst
  refine
    { list := ⟨before, after, hb, hb'⟩
      first := hfirst
      fresh := fun h hh => not_owns_of_mem_nextHandles hh
      emitted := ⟨instructions, hresolved, b.forall₂_insertAfter p instructions,
        s.forall₂_resolve hresolved⟩
      labels := fun l h hl => s.find?_of_resolveTarget hresolved hl
      kept := fun h howns => get?_insertAfter_of_owns howns
      handlers := rfl, header := ⟨rfl, rfl, rfl⟩
      linked := ?_, successors := ?_
      entered := hentered, left := hleft }
  · intro hlinked
    exact hlinked.insertAfter fun i hi => (s.resolve_eq_ok hresolved i hi).1
  · intro h hmem hne
    exact successors_congr (get?_insertAfter_of_owns (owns_of_contains hmem))
      (following?_of_insert hb hb' hmem hne)

/-- A loop whose last instruction branches to its first. -/
def looping : Body :=
  { Body.empty ⟨0, 0⟩ with
    toArena := .ofInstructions
      [⟨.nop, .none, some 0⟩, ⟨.brS, .target ⟨⟨0, 0⟩, 0⟩, some 1⟩] }

/-- A branch over one instruction to a label behind it. -/
def skipping : Sequence :=
  ((((Sequence.empty 7).label.2.branch .brS (.label ⟨7, 0⟩)).emit .nop .none).bind ⟨7, 0⟩).emit .nop
    .none

theorem inserts_of_splice_looping : ∃ new b', splice ⟨⟨0, 0⟩, 0⟩ skipping looping = (.ok new, b') ∧
    looping.Inserts ⟨⟨0, 0⟩, 0⟩ skipping new b' := by
  obtain ⟨new, hnew⟩ : ∃ new, (splice ⟨⟨0, 0⟩, 0⟩ skipping looping).1 = .ok new :=
    exists_of_isOk (by decide +kernel)
  have hsplice : splice ⟨⟨0, 0⟩, 0⟩ skipping looping
      = (.ok new, (splice ⟨⟨0, 0⟩, 0⟩ skipping looping).2) := Prod.ext hnew rfl
  exact ⟨new, _, hsplice, inserts_of_splice hsplice⟩

end Body

end CilEdit

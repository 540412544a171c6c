import CilEdit.Code.Instruction

/-!
The instructions of a body.

An arena keeps every instruction that a body has ever held in a slot of its own, and beside the
slots the list of those that make up the code. A slot is never given up or given out again; it is
marked as attached as long as it is in the list. That the list has no repetitions and holds exactly
the attached slots is part of the type, so every operation shows that it keeps to it.
-/

namespace CilEdit

structure Slot where
  instruction : Instruction Handle
  attached : Bool
  deriving DecidableEq, Repr

/-- Slots and the order of those that are attached. -/
structure Arena where
  /-- Every instruction that the body has ever held. -/
  slots : Array Slot
  order : Array Nat
  nodup : order.toList.Nodup
  mem_order_iff : ∀ n, n ∈ order ↔ slots[n]?.any Slot.attached = true
  deriving DecidableEq, Repr

namespace Arena

def empty : Arena where
  slots := #[]
  order := #[]
  nodup := List.nodup_nil
  mem_order_iff := by simp

def attached (a : Arena) (n : Nat) : Bool :=
  a.slots[n]?.any Slot.attached

def ofInstructions (instructions : List (Instruction Handle)) : Arena where
  slots := (instructions.map fun i => ⟨i, true⟩).toArray
  order := Array.range instructions.length
  nodup := by simpa using List.nodup_range
  mem_order_iff n := by
    by_cases h : n < instructions.length <;> simp [h]

theorem lt_size_of_mem {a : Arena} {n : Nat} (h : n ∈ a.order) : n < a.slots.size := by
  rw [a.mem_order_iff, Option.any_eq_true] at h
  obtain ⟨s, hs, -⟩ := h
  exact (Array.getElem?_eq_some_iff.mp hs).1

def push (a : Arena) (i : Instruction Handle) : Arena where
  slots := a.slots.push ⟨i, true⟩
  order := a.order.push a.slots.size
  nodup := by
    have hfresh : a.slots.size ∉ a.order := fun h => Nat.lt_irrefl _ (lt_size_of_mem h)
    rw [Array.toList_push, List.nodup_append]
    refine ⟨a.nodup, by simp, ?_⟩
    rintro n hn m hm rfl
    exact hfresh (List.mem_singleton.mp hm ▸ Array.mem_def.mpr hn)
  mem_order_iff n := by
    rw [Array.mem_push, a.mem_order_iff, Array.getElem?_push]
    by_cases h : n = a.slots.size <;> simp [h]

def modify (a : Arena) (n : Nat) (change : Instruction Handle → Instruction Handle) : Arena where
  slots := a.slots.modify n fun s => { s with instruction := change s.instruction }
  order := a.order
  nodup := a.nodup
  mem_order_iff m := by
    rw [a.mem_order_iff, Array.getElem?_modify]
    by_cases h : n = m <;> simp [h, Option.any_map]

theorem toList_erase (order : Array Nat) (n : Nat) :
    (order.erase n).toList = order.toList.erase n := by
  cases order
  simp

def detach (a : Arena) (n : Nat) : Arena where
  slots := a.slots.modify n fun s => { s with attached := false }
  order := a.order.erase n
  nodup := by
    rw [toList_erase]
    exact a.nodup.sublist List.erase_sublist
  mem_order_iff m := by
    rw [Array.mem_def, toList_erase, a.nodup.mem_erase_iff, ← Array.mem_def,
      a.mem_order_iff, Array.getElem?_modify]
    by_cases h : n = m
    · simp [h, Option.any_map]
    · simp [h, Ne.symm h]

def orderAfter (a : Arena) (position count : Nat) : List Nat :=
  a.order.toList.take (position + 1) ++ List.range' a.slots.size count
    ++ a.order.toList.drop (position + 1)

theorem mem_orderAfter (a : Arena) (position count n : Nat) :
    n ∈ a.orderAfter position count ↔
      n ∈ a.order ∨ a.slots.size ≤ n ∧ n < a.slots.size + count := by
  have hsplit : n ∈ a.order ↔
      n ∈ a.order.toList.take (position + 1) ∨ n ∈ a.order.toList.drop (position + 1) := by
    rw [Array.mem_def, ← List.mem_append, List.take_append_drop]
  simp only [orderAfter, List.mem_append, List.mem_range'_1, hsplit]
  grind

theorem nodup_orderAfter (a : Arena) (position count : Nat) :
    (a.orderAfter position count).Nodup := by
  have hold := a.nodup
  rw [← List.take_append_drop (position + 1) a.order.toList, List.nodup_append] at hold
  obtain ⟨htake, hdrop, hdisjoint⟩ := hold
  have hfresh : ∀ n ∈ List.range' a.slots.size count, n ∉ a.order.toList := fun n hn hmem => by
    have hlt := lt_size_of_mem (Array.mem_def.mpr hmem)
    rw [List.mem_range'_1] at hn
    omega
  rw [orderAfter, List.nodup_append, List.nodup_append]
  refine ⟨⟨htake, List.nodup_range', ?_⟩, hdrop, ?_⟩
  · rintro n hn m hm rfl
    exact hfresh n hm (List.mem_of_mem_take hn)
  · rintro n hn m hm rfl
    rcases List.mem_append.mp hn with hn | hn
    · exact hdisjoint n hn n hm rfl
    · exact hfresh n hn (List.mem_of_mem_drop hm)

/-- Puts instructions into new slots, which follow the slots in use, and these slots into the list
after a position. -/
def insertAfter (a : Arena) (position : Nat) (instructions : List (Instruction Handle)) :
    Arena where
  slots := a.slots ++ (instructions.map fun i => Slot.mk i true).toArray
  order := (a.orderAfter position instructions.length).toArray
  nodup := a.nodup_orderAfter position instructions.length
  mem_order_iff n := by
    rw [List.mem_toArray, mem_orderAfter, a.mem_order_iff]
    by_cases h : n < a.slots.size
    · simp [h, Array.getElem?_append, Nat.not_le.mpr h]
    · have hle : a.slots.size ≤ n := Nat.not_lt.mp h
      by_cases hlt : n < a.slots.size + instructions.length <;> simp [h, hle, hlt]

end Arena

end CilEdit

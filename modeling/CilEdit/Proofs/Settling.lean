import CilEdit.Code.Layout
import CilEdit.Code.OpcodeLemmas
import CilEdit.Proofs.Sequencing

namespace CilEdit.Layout

variable {code : List (Instruction Nat)} {p q : Nat} {i : Instruction Nat}

def codeSize : List (Instruction Nat) → Nat
  | [] => 0
  | i :: rest => i.size + codeSize rest

theorem codeSize_append (xs ys : List (Instruction Nat)) :
    codeSize (xs ++ ys) = codeSize xs + codeSize ys := by
  induction xs with
  | nil => simp [codeSize]
  | cons i xs ih => simp only [List.cons_append, codeSize, ih, Nat.add_assoc]

theorem codeSize_take_succ (h : code[p]? = some i) :
    codeSize (code.take (p + 1)) = codeSize (code.take p) + i.size := by
  rw [List.take_add_one, h, codeSize_append]
  rfl

theorem getElem?_fold_of_lt {offsets : Array Nat} (total : Nat) (hp : p < offsets.size) :
    (code.foldl (fun (offsets, total) i =>
      let total := total + i.size
      (offsets.push total, total)) (offsets, total)).1[p]? = offsets[p]? := by
  induction code generalizing offsets total with
  | nil => rfl
  | cons i code ih =>
      have hlt : p < (offsets.push (total + i.size)).size := by
        rw [Array.size_push]
        omega
      rw [List.foldl_cons, ih _ hlt, Array.getElem?_push_lt hp, Array.getElem?_eq_getElem hp]

theorem runningOffsets_fold (acc : Array Nat) (total : Nat) (hp : p ≤ code.length) :
    (code.foldl (fun (offsets, total) i =>
      let total := total + i.size
      (offsets.push total, total)) (acc.push total, total)).1[acc.size + p]?
      = some (total + codeSize (code.take p)) := by
  induction code generalizing acc total p with
  | nil =>
      obtain rfl : p = 0 := Nat.le_zero.mp hp
      simp [codeSize]
  | cons i code ih =>
      cases p with
      | zero =>
          -- Later rounds only append.
          have hlt : acc.size < (acc.push total).size := by
            rw [Array.size_push]
            exact Nat.lt_succ_self _
          rw [Nat.add_zero, getElem?_fold_of_lt total hlt, Array.getElem?_push_size]
          rfl
      | succ p =>
          have hrest := ih (acc.push total) (total + i.size) (Nat.le_of_succ_le_succ hp)
          rw [Array.size_push, Nat.add_assoc, Nat.add_comm 1 p] at hrest
          rw [List.foldl_cons, hrest, List.take_succ_cons, codeSize, Nat.add_assoc]

@[simp]
theorem code_ofCode (code : List (Instruction Nat)) : (ofCode code).code = code := rfl

theorem offset_ofCode (hp : p ≤ code.length) :
    (ofCode code).offset p = codeSize (code.take p) := by
  have h := runningOffsets_fold #[] 0 hp
  rw [Array.size_empty, Nat.zero_add, Nat.zero_add] at h
  rw [offset, ofCode, runningOffsets]
  exact congrArg (Option.getD · 0) h

theorem offset_zero (code : List (Instruction Nat)) : (ofCode code).offset 0 = 0 := by
  rw [offset_ofCode (Nat.zero_le _)]
  rfl

theorem offset_succ (h : code[p]? = some i) :
    (ofCode code).offset (p + 1) = (ofCode code).offset p + i.size := by
  have hlt := (List.getElem?_eq_some_iff.mp h).1
  rw [offset_ofCode hlt, offset_ofCode (Nat.le_of_lt hlt), codeSize_take_succ h]

theorem size_ofCode (code : List (Instruction Nat)) : (ofCode code).size = codeSize code := by
  rw [size, code_ofCode, offset_ofCode (Nat.le_refl _), List.take_length]

theorem size_le_codeSize (h : i ∈ code) : i.size ≤ codeSize code := by
  induction h with
  | head => exact Nat.le_add_right _ _
  | tail j _ ih => exact Nat.le_trans ih (Nat.le_add_left _ _)

theorem instruction_size_pos (i : Instruction Nat) : 0 < i.size := by
  have hopcode : 0 < i.opcode.size := by
    unfold Opcode.size
    split <;> decide
  exact Nat.lt_of_lt_of_le hopcode (Nat.le_add_right _ _)

theorem offset_lt_offset (hpq : p < q) (hq : q ≤ code.length) :
    (ofCode code).offset p < (ofCode code).offset q := by
  induction q with
  | zero => omega
  | succ q ih =>
      have hget : code[q]? = some code[q] := List.getElem?_eq_getElem hq
      have hpos := instruction_size_pos code[q]
      rw [offset_succ hget]
      rcases Nat.lt_succ_iff_lt_or_eq.mp hpq with hlt | rfl
      · have hstep := ih hlt (Nat.le_of_succ_le hq)
        omega
      · omega

theorem offset_le_offset (hpq : p ≤ q) (hq : q ≤ code.length) :
    (ofCode code).offset p ≤ (ofCode code).offset q := by
  rcases Nat.lt_or_eq_of_le hpq with hlt | rfl
  · exact Nat.le_of_lt (offset_lt_offset hlt hq)
  · exact Nat.le_refl _

theorem offset_inj (hp : p ≤ code.length) (hq : q ≤ code.length)
    (h : (ofCode code).offset p = (ofCode code).offset q) : p = q := by
  rcases Nat.lt_trichotomy p q with hlt | heq | hlt
  · have := offset_lt_offset hlt hq
    omega
  · exact heq
  · have := offset_lt_offset hlt hp
    omega

/-- The second instruction is the first one, or the long form of the short branch it is. -/
def Stretched (i j : Instruction Nat) : Prop :=
  j = i ∨ i.opcode.operand = .shortTarget ∧ j = lengthen i

theorem operand_of_overflows {l : Layout} (h : l.overflows p i = true) :
    i.opcode.operand = .shortTarget := by
  unfold overflows at h
  split at h
  · assumption
  · cases h

theorem operand_lengthen (h : i.opcode.operand = .shortTarget) :
    (lengthen i).opcode.operand = .target := by
  obtain ⟨long, hlong, hoperand, -⟩ := Opcode.exists_long h
  simp only [lengthen, hlong, Option.getD_some, hoperand]

theorem operand_of_stretched {j : Instruction Nat} (h : Stretched i j) : j.operand = i.operand := by
  rcases h with rfl | ⟨-, rfl⟩ <;> rfl

theorem Stretched.refl (i : Instruction Nat) : Stretched i i := .inl rfl

theorem Stretched.trans {j k : Instruction Nat} (hij : Stretched i j) (hjk : Stretched j k) :
    Stretched i k := by
  rcases hij with rfl | ⟨hi, rfl⟩
  · exact hjk
  · rcases hjk with rfl | ⟨hj, -⟩
    · exact .inr ⟨hi, rfl⟩
    · -- A long form is no short branch, so it is not lengthened again.
      rw [operand_lengthen hi] at hj
      cases hj

theorem forall₂_mapIdx {α β : Type} {R : α → β → Prop} {f : Nat → α → β} (xs : List α)
    (h : ∀ n x, R x (f n x)) : List.Forall₂ R xs (xs.mapIdx f) := by
  induction xs generalizing f with
  | nil => exact .nil
  | cons x xs ih =>
      rw [List.mapIdx_cons]
      exact .cons (h 0 x) (ih fun n y => h (n + 1) y)

theorem stretched_widen (l : Layout) : List.Forall₂ Stretched l.code l.widen := by
  refine forall₂_mapIdx l.code fun n i => ?_
  split
  · rename_i hover
    exact .inr ⟨operand_of_overflows hover, rfl⟩
  · exact .refl i

theorem shortCount_cons_short (h : i.opcode.operand = .shortTarget)
    (xs : List (Instruction Nat)) : shortCount (i :: xs) = shortCount xs + 1 := by
  rw [shortCount, List.countP_cons, h]
  rfl

theorem shortCount_cons_lengthen (h : i.opcode.operand = .shortTarget)
    (xs : List (Instruction Nat)) : shortCount (lengthen i :: xs) = shortCount xs := by
  have hfalse : (OperandKind.target == OperandKind.shortTarget) = false := rfl
  rw [shortCount, List.countP_cons, operand_lengthen h, hfalse]
  rfl

theorem shortCount_le {xs ys : List (Instruction Nat)} (h : List.Forall₂ Stretched xs ys) :
    shortCount ys ≤ shortCount xs := by
  induction h with
  | nil => exact Nat.le_refl _
  | @cons i j xs ys hij _ ih =>
      rcases hij with rfl | ⟨hi, rfl⟩
      · simp only [shortCount, List.countP_cons] at ih ⊢
        omega
      · rw [shortCount_cons_lengthen hi, shortCount_cons_short hi]
        exact Nat.le_succ_of_le ih

theorem shortCount_lt {xs ys : List (Instruction Nat)} (h : List.Forall₂ Stretched xs ys)
    (hne : xs ≠ ys) : shortCount ys < shortCount xs := by
  induction h with
  | nil => exact absurd rfl hne
  | @cons i j xs ys hij hrest ih =>
      rcases hij with rfl | ⟨hi, rfl⟩
      · have hlt := ih fun heq => hne (by rw [heq])
        simp only [shortCount, List.countP_cons] at hlt ⊢
        omega
      · rw [shortCount_cons_lengthen hi, shortCount_cons_short hi]
        exact Nat.lt_succ_of_le (shortCount_le hrest)

def Settled (code : List (Instruction Nat)) : Prop :=
  (ofCode code).widen = code

theorem Settled.overflows_eq_false (h : Settled code) (hi : code[p]? = some i) :
    (ofCode code).overflows p i = false := by
  by_contra hover
  rw [Bool.not_eq_false] at hover
  have hsame : (ofCode code).widen[p]? = some i := by
    rw [show (ofCode code).widen = code from h, hi]
  simp only [widen, List.getElem?_mapIdx, code_ofCode, hi, Option.map_some, hover, if_true,
    Option.some.injEq] at hsame
  have hshort := operand_of_overflows hover
  have htarget := operand_lengthen hshort
  rw [hsame, hshort] at htarget
  cases htarget

theorem settled_of_overflows_eq_false
    (h : ∀ p i, code[p]? = some i → (ofCode code).overflows p i = false) : Settled code := by
  refine List.ext_getElem? fun p => ?_
  rw [widen, List.getElem?_mapIdx, code_ofCode]
  cases hi : code[p]? with
  | none => rfl
  | some i => rw [Option.map_some, h p i hi, if_neg Bool.false_ne_true]

theorem settle_of_settled (h : Settled code) : settle code = ofCode code := by
  rw [settle]
  rw [show (ofCode code).widen = code from h]
  exact if_neg (Nat.lt_irrefl _)

theorem settle_spec (code : List (Instruction Nat)) :
    ∃ final, settle code = ofCode final ∧ Settled final ∧ List.Forall₂ Stretched code final := by
  induction code using settle.induct with
  | case1 code l hlt ih =>
      obtain ⟨final, hfinal, hsettled, hstretched⟩ := ih
      refine ⟨final, ?_, hsettled, ?_⟩
      · rw [settle]
        exact (if_pos hlt).trans hfinal
      · have hwiden := stretched_widen l
        exact forall₂_trans (fun _ _ _ hij hjk => hij.trans hjk) hwiden hstretched
  | case2 code l hnot =>
      refine ⟨code, ?_, ?_, List.forall₂_same.mpr fun i _ => .refl i⟩
      · rw [settle]
        exact if_neg hnot
      · -- A round that changes the code leaves fewer short branches.
        by_contra hne
        exact hnot (shortCount_lt (stretched_widen l) (Ne.symm hne))

theorem Settled.stuck?_eq_none (h : Settled code) : (ofCode code).stuck? = none := by
  rw [stuck?, Option.map_eq_none_iff, List.find?_eq_none]
  rintro ⟨i, p⟩ hmem
  have hfits := h.overflows_eq_false (List.mem_zipIdx_iff_getElem?.mp hmem)
  change ¬(ofCode code).overflows p i = true
  rw [hfits]
  exact Bool.false_ne_true

theorem excess_cases (code : List (Instruction Nat)) :
    (∃ p i, code[p]? = some i ∧ UInt32.size ≤ i.size ∧ excess code = .instructionTooLarge p) ∨
      excess code = .layoutTooLarge := by
  unfold excess
  split
  · rename_i i p hfind
    have hi := List.mem_zipIdx_iff_getElem?.mp (List.mem_of_find?_eq_some hfind)
    by_cases hsize : UInt32.size ≤ i.size
    · exact .inl ⟨p, i, hi, hsize, if_pos hsize⟩
    · exact .inr (if_neg hsize)
  · exact .inr rfl

/-- Settling succeeds unless the code is too large, and what it gives is settled. -/
theorem make_spec (code : List (Instruction Nat)) :
    ∃ final, settle code = ofCode final ∧ Settled final ∧ List.Forall₂ Stretched code final ∧
      make code = if codeSize final < UInt32.size then .ok (ofCode final)
        else Error.bad (excess code) := by
  obtain ⟨final, hfinal, hsettled, hstretched⟩ := settle_spec code
  refine ⟨final, hfinal, hsettled, hstretched, ?_⟩
  simp only [make, hfinal, hsettled.stuck?_eq_none, size_ofCode]

theorem make_eq_ok {l : Layout} (h : make code = .ok l) :
    ∃ final, l = ofCode final ∧ Settled final ∧ List.Forall₂ Stretched code final ∧
      codeSize final < UInt32.size := by
  obtain ⟨final, -, hsettled, hstretched, hmake⟩ := make_spec code
  rw [h] at hmake
  by_cases hsize : codeSize final < UInt32.size
  · rw [if_pos hsize] at hmake
    exact ⟨final, Except.ok.inj hmake, hsettled, hstretched, hsize⟩
  · rw [if_neg hsize] at hmake
    cases hmake

theorem eq_of_make (h : Settled code) {l : Layout} (hmake : make code = .ok l) :
    l = ofCode code := by
  obtain ⟨final, hsettle, -, -, hspec⟩ := make_spec code
  rw [settle_of_settled h] at hsettle
  rw [hspec] at hmake
  split at hmake
  · rw [hsettle]
    exact (Except.ok.inj hmake).symm
  · cases hmake

theorem make_of_settled (h : Settled code) (hsize : codeSize code < UInt32.size) :
    make code = .ok (ofCode code) := by
  simp only [make, settle_of_settled h, h.stuck?_eq_none, size_ofCode, if_pos hsize]

end CilEdit.Layout

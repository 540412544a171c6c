import CilEdit.Proofs.Saving
import Mathlib.Data.Finset.Filter
import Mathlib.Data.Finset.Range
import Mathlib.Logic.Function.Iterate
import Mathlib.Order.Bounds.Basic

/-!
Widening is least.

Stretching an instruction moves no two places of the code together, so a branch that is out of reach
stays so however much else is stretched. Hence no round lengthens a branch that some settled code
keeps short, and what the rounds end with is the least settled stretch of the code.
-/

namespace CilEdit

namespace Layout

def round (code : List (Instruction Nat)) : List (Instruction Nat) :=
  (ofCode code).widen

/-- The code with the long forms at the positions of `W`. -/
def lengthened (W : Finset Nat) (code : List (Instruction Nat)) : List (Instruction Nat) :=
  code.mapIdx fun p i => if p ∈ W then lengthen i else i

/-- Every short branch reaches its target with one signed byte. -/
def Reaching (code : List (Instruction Nat)) : Prop :=
  ∀ p i, code[p]? = some i → i.opcode.operand = .shortTarget → ∃ t, i.operand = .target t ∧
    -128 ≤ (ofCode code).displacement p t ∧ (ofCode code).displacement p t ≤ 127

/-- The short branches at `W` are enough to lengthen, for the others to reach their targets. -/
structure Suffices (code : List (Instruction Nat)) (W : Finset Nat) : Prop where
  short : ∀ p ∈ W, ∃ i, code[p]? = some i ∧ i.opcode.operand = .shortTarget
  reaching : Reaching (lengthened W code)

/-- What laying out does: it lengthens the branches at `W`, in rounds, of which each but the last
changes the code. No short branch keeps the layout from being emitted; a displacement of four bytes
can, where the code is larger than 2 GiB. -/
structure Widens (code : List (Instruction Nat)) (W : Finset Nat) : Prop where
  rounds : ∃ n ≤ shortCount code, round^[n] code = lengthened W code ∧
    Settled (lengthened W code) ∧ ∀ m < n, ¬ Settled (round^[m] code)
  made : make code = if codeSize (lengthened W code) < UInt32.size
    then .ok (ofCode (lengthened W code)) else Error.bad (excess code)
  least : IsLeast {V | Suffices code V} W
  kept : Reaching code → lengthened W code = code
  emitted : codeSize (lengthened W code) ≤ 0x80000000 →
    ∃ bytes, (ofCode (lengthened W code)).emit = .ok bytes
  stopped : codeSize (lengthened W code) < UInt32.size →
    ∀ e, (ofCode (lengthened W code)).emit = .error e →
      ∃ p i, (lengthened W code)[p]? = some i ∧ i.opcode.operand ≠ .shortTarget ∧
        (e = .malformed (.branchRange p) ∨ e = .malformed (.switchRange p)) ∧
        ∃ t ∈ i.operand.targets,
          fitsWord ((ofCode (lengthened W code)).displacement p t) = false

variable {code final xs ys : List (Instruction Nat)} {i j : Instruction Nat} {p q t : Nat}
  {V W : Finset Nat}

theorem size_long : ∀ {op long : Opcode}, op.long? = some long → op.size = long.size := by
  intro op long h
  cases op <;> cases h <;> rfl

theorem size_le_of_stretched (h : Stretched i j) : i.size ≤ j.size := by
  rcases h with rfl | ⟨hshort, rfl⟩
  · exact Nat.le_refl _
  · obtain ⟨long, hlong, hoperand, -⟩ := Opcode.exists_long hshort
    simp only [Instruction.size, lengthen, hlong, Option.getD_some, size_long hlong]
    cases i.operand <;> simp [Operand.size, hshort, hoperand, OperandKind.size?]

/-- Places move apart, or stay as far from each other as they were. -/
theorem offset_add_le (h : List.Forall₂ Stretched xs ys) (hpq : p ≤ q) (hq : q ≤ xs.length) :
    (ofCode xs).offset q + (ofCode ys).offset p ≤ (ofCode ys).offset q + (ofCode xs).offset p := by
  induction q, hpq using Nat.le_induction with
  | base => rw [Nat.add_comm]
  | succ q hpq ih =>
      have hi : xs[q]? = some xs[q] := List.getElem?_eq_getElem hq
      obtain ⟨j, hj, hij⟩ := exists_getElem?_of_forall₂ h hi
      have hsize := size_le_of_stretched hij
      have hrest := ih (Nat.le_of_succ_le hq)
      rw [offset_succ hi, offset_succ hj]
      omega

theorem fitsByte_of_stretched (h : List.Forall₂ Stretched xs ys) (hp : p < xs.length)
    (ht : t ≤ xs.length) (hfits : fitsByte ((ofCode ys).displacement p t) = true) :
    fitsByte ((ofCode xs).displacement p t) = true := by
  simp only [fitsByte, Bool.and_eq_true, decide_eq_true_eq] at hfits ⊢
  unfold displacement at hfits ⊢
  -- A target lies behind the branch, or before the instruction after it.
  rcases Nat.lt_or_ge p t with hlt | hge
  · have hapart := offset_add_le h (p := p + 1) hlt ht
    have hle := offset_le_offset (p := p + 1) hlt ht
    omega
  · have hapart := offset_add_le h (q := p + 1) (Nat.le_succ_of_le hge) hp
    have hle := offset_le_offset (q := p + 1) (Nat.le_succ_of_le hge) hp
    omega

theorem overflows_of_stretched (h : List.Forall₂ Stretched xs ys) (hi : xs[p]? = some i)
    (htargets : ∀ t ∈ i.operand.targets, t < xs.length)
    (hover : (ofCode xs).overflows p i = true) : (ofCode ys).overflows p i = true := by
  have hp := (List.getElem?_eq_some_iff.mp hi).1
  unfold overflows at hover ⊢
  split at hover
  · rename_i t hshort hoperand
    rw [Bool.not_eq_true', Bool.eq_false_iff] at hover ⊢
    intro hfits
    have ht : t < xs.length := htargets t (by rw [hoperand]; exact List.mem_singleton_self t)
    exact hover (fitsByte_of_stretched h hp (Nat.le_of_lt ht) hfits)
  · cases hover

/-- A round stretches the code no more than any settled code that stretches it. -/
theorem stretched_round (h : List.Forall₂ Stretched xs ys) (hsettled : Settled ys)
    (htargets : ∀ i ∈ xs, ∀ t ∈ i.operand.targets, t < xs.length) :
    List.Forall₂ Stretched (round xs) ys := by
  have hlength : (round xs).length = xs.length := List.length_mapIdx
  refine List.forall₂_iff_get.mpr ⟨hlength.trans h.length_eq, fun p hp hp' => ?_⟩
  have hi : xs[p]? = some xs[p] := List.getElem?_eq_getElem (hlength ▸ hp)
  have hj : ys[p]? = some ys[p] := List.getElem?_eq_getElem hp'
  have hij := forall₂_getElem? h hi hj
  have hround : (round xs)[p] =
      if (ofCode xs).overflows p xs[p] then lengthen xs[p] else xs[p] := List.getElem_mapIdx ..
  rw [List.get_eq_getElem, List.get_eq_getElem, hround]
  split
  · rename_i hover
    rcases hij with heq | ⟨-, heq⟩
    · have hover' := overflows_of_stretched h hi (htargets _ (List.mem_of_getElem? hi)) hover
      rw [← heq, hsettled.overflows_eq_false hj] at hover'
      cases hover'
    · rw [heq]
      exact .refl _
  · exact hij

theorem targets_of_stretched (h : List.Forall₂ Stretched xs ys)
    (htargets : ∀ i ∈ xs, ∀ t ∈ i.operand.targets, t < xs.length) :
    ∀ j ∈ ys, ∀ t ∈ j.operand.targets, t < ys.length := by
  intro j hj t ht
  obtain ⟨i, hi, hij⟩ := Listing.exists_of_mem_stretched h hj
  rw [operand_of_stretched hij] at ht
  rw [← h.length_eq]
  exact htargets i hi t ht

theorem stretched_iterate (n : Nat)
    (htargets : ∀ i ∈ code, ∀ t ∈ i.operand.targets, t < code.length)
    (h : List.Forall₂ Stretched code ys) (hsettled : Settled ys) :
    List.Forall₂ Stretched (round^[n] code) ys := by
  induction n generalizing code with
  | zero => exact h
  | succ n ih =>
      have hround := stretched_widen (ofCode code)
      exact ih (targets_of_stretched hround htargets) (stretched_round h hsettled htargets)

theorem settle_iterate (code : List (Instruction Nat)) :
    ∃ n ≤ shortCount code, settle code = ofCode (round^[n] code) ∧ Settled (round^[n] code) ∧
      ∀ m < n, ¬ Settled (round^[m] code) := by
  induction code using settle.induct with
  | case1 code l hlt ih =>
      obtain ⟨n, hn, hsettle, hsettled, hbefore⟩ := ih
      refine ⟨n + 1, Nat.lt_of_le_of_lt hn hlt, ?_, hsettled, ?_⟩
      · rw [settle]
        exact (if_pos hlt).trans hsettle
      · intro m hm
        cases m with
        | zero =>
            intro hstays
            rw [show l.widen = code from hstays] at hlt
            exact Nat.lt_irrefl _ hlt
        | succ m => exact hbefore m (Nat.lt_of_succ_lt_succ hm)
  | case2 code l hnot =>
      refine ⟨0, Nat.zero_le _, ?_, ?_, fun m hm => absurd hm (Nat.not_lt_zero m)⟩
      · rw [settle]
        exact if_neg hnot
      · by_contra hne
        exact hnot (shortCount_lt (stretched_widen l) (Ne.symm hne))

/-- The positions at which two lists of instructions differ. -/
def changed (code final : List (Instruction Nat)) : Finset Nat :=
  (Finset.range code.length).filter fun p => code[p]? ≠ final[p]?

theorem short_of_mem_changed (h : List.Forall₂ Stretched code final) (hp : p ∈ changed code final) :
    ∃ i, code[p]? = some i ∧ i.opcode.operand = .shortTarget ∧ final[p]? = some (lengthen i) := by
  obtain ⟨hlt, hne⟩ := Finset.mem_filter.mp hp
  have hi := List.getElem?_eq_getElem (Finset.mem_range.mp hlt)
  obtain ⟨j, hj, hij⟩ := exists_getElem?_of_forall₂ h hi
  rcases hij with rfl | ⟨hshort, rfl⟩
  · exact absurd (hi.trans hj.symm) hne
  · exact ⟨_, hi, hshort, hj⟩

theorem lengthened_changed (h : List.Forall₂ Stretched code final) :
    lengthened (changed code final) code = final := by
  refine List.ext_getElem? fun p => ?_
  rw [lengthened, List.getElem?_mapIdx]
  by_cases hp : p ∈ changed code final
  · obtain ⟨i, hi, -, hfinal⟩ := short_of_mem_changed h hp
    rw [hi, hfinal, Option.map_some, if_pos hp]
  · simp only [if_neg hp, Option.map_id']
    by_contra hne
    rcases Nat.lt_or_ge p code.length with hlt | hge
    · exact hp (Finset.mem_filter.mpr ⟨Finset.mem_range.mpr hlt, hne⟩)
    · apply hne
      rw [List.getElem?_eq_none hge, List.getElem?_eq_none (h.length_eq ▸ hge)]

theorem stretched_lengthened
    (hshort : ∀ p ∈ W, ∃ i, code[p]? = some i ∧ i.opcode.operand = .shortTarget) :
    List.Forall₂ Stretched code (lengthened W code) := by
  refine List.forall₂_iff_get.mpr ⟨List.length_mapIdx.symm, fun p hp hp' => ?_⟩
  have hget : (lengthened W code)[p] = if p ∈ W then lengthen code[p] else code[p] :=
    List.getElem_mapIdx ..
  rw [List.get_eq_getElem, List.get_eq_getElem, hget]
  split
  · rename_i hmem
    obtain ⟨i, hi, hoperand⟩ := hshort p hmem
    rw [List.getElem?_eq_getElem hp] at hi
    cases hi
    exact .inr ⟨hoperand, rfl⟩
  · exact .refl _

/-- What is lengthened on the way to a first stretch is lengthened for every further one. -/
theorem changed_subset (h : List.Forall₂ Stretched code final)
    (hW : List.Forall₂ Stretched final (lengthened W code)) : changed code final ⊆ W := by
  intro p hp
  obtain ⟨i, hi, hshort, hfinal⟩ := short_of_mem_changed h hp
  by_contra hnot
  have hkeeps : (lengthened W code)[p]? = some i := by
    rw [lengthened, List.getElem?_mapIdx, hi, Option.map_some, if_neg hnot]
  have hlong := operand_lengthen hshort
  rcases forall₂_getElem? hW hfinal hkeeps with heq | ⟨hshort', -⟩
  · rw [← heq, hshort] at hlong
    cases hlong
  · rw [hshort'] at hlong
    cases hlong

theorem Reaching.settled (h : Reaching code) : Settled code := by
  refine settled_of_overflows_eq_false fun p i hi => ?_
  unfold overflows
  split
  · rename_i t hshort hoperand
    obtain ⟨t', hoperand', hlow, hhigh⟩ := h p i hi hshort
    rw [hoperand] at hoperand'
    cases hoperand'
    simp only [fitsByte, hlow, hhigh, decide_true, Bool.and_self, Bool.not_true]
  · rfl

theorem Settled.reaching (h : Settled code)
    (hshape : ∀ i ∈ code, i.operand.hasShape i.opcode.operand = true) : Reaching code := by
  intro p i hi hshort
  have hoperand := hshape i (List.mem_of_getElem? hi)
  have hfits := h.overflows_eq_false hi
  rw [hshort] at hoperand
  obtain ⟨t, ht⟩ := Operand.exists_target hoperand
  simp only [overflows, hshort, ht, fitsByte, Bool.not_eq_false', Bool.and_eq_true,
    decide_eq_true_eq] at hfits
  exact ⟨t, ht, hfits⟩

theorem fitsWord_of_fitsByte {d : Int} (h : fitsByte d = true) : fitsWord d = true := by
  simp only [fitsByte, fitsWord, Bool.and_eq_true, decide_eq_true_eq] at h ⊢
  omega

theorem fitsWord_of_size_le (hsize : codeSize code ≤ 0x80000000) (hp : p < code.length)
    (ht : t < code.length) : fitsWord ((ofCode code).displacement p t) = true := by
  have htarget := offset_lt_offset ht (Nat.le_refl code.length)
  have hnext := offset_le_offset (p := p + 1) hp (Nat.le_refl code.length)
  have hend : (ofCode code).offset code.length = codeSize code := size_ofCode code
  simp only [fitsWord, Bool.and_eq_true, decide_eq_true_eq]
  unfold displacement
  omega

theorem exists_far_of_emit {e : Error} (hsettled : Settled code)
    (hshape : ∀ i ∈ code, i.operand.hasShape i.opcode.operand = true)
    (hsize : codeSize code < UInt32.size) (h : (ofCode code).emit = .error e) :
    ∃ p i, code[p]? = some i ∧ i.opcode.operand ≠ .shortTarget ∧
      (e = .malformed (.branchRange p) ∨ e = .malformed (.switchRange p)) ∧
      ∃ t ∈ i.operand.targets, fitsWord ((ofCode code).displacement p t) = false := by
  obtain ⟨⟨i, p⟩, hip, hbytes⟩ := exists_of_mapM_eq_error (map_eq_error.mp h)
  have hi : code[p]? = some i := List.mem_zipIdx_iff_getElem?.mp hip
  rcases operandBytes_eq_error hsettled hsize hi (map_eq_error.mp hbytes) with
    ⟨t, hoperand, hfar, rfl⟩ | ⟨ts, hoperand, t, ht, hfar, rfl⟩
  · refine ⟨p, i, hi, ?_, .inl rfl, t, ?_, hfar⟩
    · intro hshort
      have hfits := hsettled.overflows_eq_false hi
      simp only [overflows, hshort, hoperand, Bool.not_eq_false'] at hfits
      rw [fitsWord_of_fitsByte hfits] at hfar
      cases hfar
    · rw [hoperand]
      exact List.mem_singleton_self t
  · refine ⟨p, i, hi, ?_, .inr rfl, t, ?_, hfar⟩
    · intro hshort
      have hkind := hshape i (List.mem_of_getElem? hi)
      rw [hoperand, hshort] at hkind
      cases hkind
    · rw [hoperand]
      exact ht

theorem emit_of_size_le (hsettled : Settled code)
    (hshape : ∀ i ∈ code, i.operand.hasShape i.opcode.operand = true)
    (htargets : ∀ i ∈ code, ∀ t ∈ i.operand.targets, t < code.length)
    (hsize : codeSize code ≤ 0x80000000) : ∃ bytes, (ofCode code).emit = .ok bytes := by
  cases hemit : (ofCode code).emit with
  | ok bytes => exact ⟨bytes, rfl⟩
  | error e =>
      obtain ⟨p, i, hi, -, -, t, ht, hfar⟩ := exists_far_of_emit hsettled hshape
        (Nat.lt_of_le_of_lt hsize (by decide)) hemit
      have hfits := fitsWord_of_size_le hsize (List.getElem?_eq_some_iff.mp hi).1
        (htargets i (List.mem_of_getElem? hi) t ht)
      rw [hfits] at hfar
      cases hfar

/-- What the rounds change is enough, and part of everything that is enough. -/
theorem isLeast_changed {n : Nat} (htargets : ∀ i ∈ code, ∀ t ∈ i.operand.targets, t < code.length)
    (hstretched : List.Forall₂ Stretched code (round^[n] code))
    (hreaching : Reaching (round^[n] code)) :
    IsLeast {V | Suffices code V} (changed code (round^[n] code)) := by
  constructor
  · refine ⟨fun p hp => ?_, ?_⟩
    · obtain ⟨i, hi, hshort, -⟩ := short_of_mem_changed hstretched hp
      exact ⟨i, hi, hshort⟩
    · rw [lengthened_changed hstretched]
      exact hreaching
  · intro W hW
    apply changed_subset hstretched
    exact stretched_iterate n htargets (stretched_lengthened hW.short) hW.reaching.settled

/-- Laying out lengthens the least set of short branches that is enough. -/
theorem exists_widens (htargets : ∀ i ∈ code, ∀ t ∈ i.operand.targets, t < code.length)
    (hshape : ∀ i ∈ code, i.operand.hasShape i.opcode.operand = true) : ∃ W, Widens code W := by
  obtain ⟨n, hn, hsettle, hsettled, hbefore⟩ := settle_iterate code
  obtain ⟨final, hfinal, -, hstretched, hmake⟩ := make_spec code
  obtain rfl : round^[n] code = final := congrArg Layout.code (hsettle.symm.trans hfinal)
  have htargets' := targets_of_stretched hstretched htargets
  have hshape' : ∀ j ∈ round^[n] code, j.operand.hasShape j.opcode.operand = true := by
    intro j hj
    obtain ⟨i, hi, hij⟩ := Listing.exists_of_mem_stretched hstretched hj
    exact hasShape_of_stretched hij (hshape i hi)
  have hcode := lengthened_changed hstretched
  refine ⟨changed code (round^[n] code), ?_, ?_, ?_, ?_, ?_, ?_⟩
  · exact ⟨n, hn, hcode.symm, hcode.symm ▸ hsettled, hbefore⟩
  · rw [hcode]
    exact hmake
  · exact isLeast_changed htargets hstretched (hsettled.reaching hshape')
  · intro hreaching
    rw [hcode]
    have hstays := settle_of_settled hreaching.settled
    exact congrArg Layout.code (hsettle.symm.trans hstays)
  · rw [hcode]
    exact emit_of_size_le hsettled hshape' htargets'
  · rw [hcode]
    intro hsize e hemit
    exact exists_far_of_emit hsettled hshape' hsize hemit

end Layout

namespace Body

/-- The code of a body whose targets are attached and whose operands fit their opcodes is laid out
with as few long branches as possible. -/
theorem exists_widens_ranked {b : Body}
    (htargets : ∀ e ∈ b.entries, ∀ t ∈ e.2.operand.targets, b.contains t = true)
    (hshape : ∀ e ∈ b.entries, e.2.operand.hasShape e.2.opcode.operand = true) :
    ∃ W, Layout.Widens b.ranked.code W ∧
      ((∀ h ∈ b.handlers, ∀ t ∈ h.boundaries, b.contains t = true) →
        b.listing = .ok b.ranked) := by
  obtain ⟨W, hW⟩ := Layout.exists_widens (targets_ranked htargets) (shape_ranked hshape)
  exact ⟨W, hW, fun hboundaries => Linked.listing_eq ⟨htargets, hboundaries⟩⟩

/-- A short branch over 128 instructions of one byte, one more than it reaches. -/
def overreaching : Body :=
  { Body.empty ⟨0, 0⟩ with
    toArena := .ofInstructions (⟨.brS, .target ⟨⟨0, 0⟩, 129⟩, none⟩
      :: List.replicate 128 ⟨.nop, .none, none⟩ ++ [⟨.ret, .none, none⟩]) }

theorem exists_widens_ranked_overreaching : ∃ W, Layout.Widens overreaching.ranked.code W ∧
    ((∀ h ∈ overreaching.handlers, ∀ t ∈ h.boundaries, overreaching.contains t = true) →
      overreaching.listing = .ok overreaching.ranked) :=
  exists_widens_ranked (by decide +kernel) (by decide +kernel)

end Body

theorem Layout.codeSize_replicate (count : Nat) (i : Instruction Nat) :
    codeSize (List.replicate count i) = count * i.size := by
  induction count with
  | zero =>
      rw [Nat.zero_mul]
      rfl
  | succ count ih =>
      rw [List.replicate_succ, codeSize, ih, Nat.succ_mul, Nat.add_comm]

namespace Listing

/-- A branch over so many switches, all of whose cases go back to the branch, and where it leads. -/
def spanning (count cases : Nat) (last : Instruction Nat) : Listing where
  code := ⟨.br, .target (count + 1), none⟩ ::
    (List.replicate count ⟨.switch, .switch (List.replicate cases 0), none⟩ ++ [last])
  handlers := []
  maxStack := 0
  locals := .null
  initLocals := false

variable {count cases : Nat} {i last : Instruction Nat}

theorem mem_spanning (hi : i ∈ (spanning count cases last).code) :
    i = ⟨.br, .target (count + 1), none⟩ ∨
      i = ⟨.switch, .switch (List.replicate cases 0), none⟩ ∨ i = last := by
  rw [spanning, List.mem_cons, List.mem_append, List.mem_replicate, List.mem_singleton] at hi
  rcases hi with hbranch | hswitch | hlast
  · exact .inl hbranch
  · exact .inr (.inl hswitch.2)
  · exact .inr (.inr hlast)

theorem length_spanning : (spanning count cases last).code.length = count + 2 := by
  simp [spanning]

theorem getElem?_spanning : (spanning count cases last).code[count + 1]? = some last := by
  simp [spanning]

theorem linked_spanning (htargets : last.operand.targets = []) :
    (spanning count cases last).Linked := by
  constructor
  · intro i hi t ht
    rw [length_spanning]
    rcases mem_spanning hi with rfl | rfl | rfl
    · rw [List.mem_singleton.mp ht]
      exact Nat.lt_succ_self _
    · rw [List.eq_of_mem_replicate ht]
      exact Nat.succ_pos _
    · rw [htargets] at ht
      cases ht
  · intro h hh
    cases hh

theorem shape_spanning (hlast : last.operand.hasShape last.opcode.operand = true)
    (hi : i ∈ (spanning count cases last).code) :
    i.operand.hasShape i.opcode.operand = true := by
  rcases mem_spanning hi with rfl | rfl | rfl
  · rfl
  · rfl
  · exact hlast

theorem ranked_spanning (htargets : last.operand.targets = []) (hoffset : last.offset = none)
    (id : BodyId) :
    (Body.ofListing id (spanning count cases last)).ranked = spanning count cases last := by
  refine Body.ranked_ofListing (linked_spanning htargets) fun i hi => ?_
  rcases mem_spanning hi with rfl | rfl | rfl
  · rfl
  · rfl
  · exact hoffset

theorem codeSize_spanning : Layout.codeSize (spanning count cases last).code
    = 5 + count * (5 + 4 * cases) + last.size := by
  have hbranch : (⟨.br, .target (count + 1), none⟩ : Instruction Nat).size = 5 := rfl
  have hswitch : (⟨.switch, .switch (List.replicate cases 0), none⟩ : Instruction Nat).size
      = 5 + 4 * cases := by
    change 1 + (4 + 4 * (List.replicate cases 0).length) = _
    rw [List.length_replicate]
    omega
  simp only [spanning, Layout.codeSize, Layout.codeSize_append, Layout.codeSize_replicate, hbranch,
    hswitch]
  omega

/-- There is no short branch, unless the last instruction is one. -/
theorem settled_spanning (hlast : last.opcode.operand ≠ .shortTarget) :
    Layout.Settled (spanning count cases last).code := by
  refine Layout.settled_of_overflows_eq_false fun p i hi => ?_
  rcases mem_spanning (List.mem_of_getElem? hi) with rfl | rfl | rfl
  · rfl
  · rfl
  · unfold Layout.overflows
    split
    · rename_i hshort _
      exact absurd hshort hlast
    · rfl

theorem displacement_spanning :
    (Layout.ofCode (spanning count cases last).code).displacement 0 (count + 1)
      = ((count * (5 + 4 * cases) : Nat) : Int) := by
  have hall := @codeSize_spanning count cases last
  have hfirst : (spanning count cases last).code[0]? = some ⟨.br, .target (count + 1), none⟩ := rfl
  have hend := Layout.offset_succ (@getElem?_spanning count cases last)
  have hnext := Layout.offset_succ hfirst
  rw [Layout.offset_zero] at hnext
  have hstop : (Layout.ofCode (spanning count cases last).code).offset (count + 1 + 1)
      = Layout.codeSize (spanning count cases last).code := by
    rw [← Layout.size_ofCode, Layout.size, Layout.code_ofCode, length_spanning]
  rw [hstop, hall] at hend
  change _ = 0 + 5 at hnext
  rw [Layout.displacement, hnext]
  generalize count * (5 + 4 * cases) = total at hend ⊢
  omega

theorem emit_spanning (h : 0x80000000 ≤ count * (5 + 4 * cases)) :
    (Layout.ofCode (spanning count cases last).code).emit
      = .error (.malformed (.branchRange 0)) := by
  have hfar : Layout.fitsWord
      ((Layout.ofCode (spanning count cases last).code).displacement 0 (count + 1)) = false := by
    rw [displacement_spanning, Layout.fitsWord, Bool.and_eq_false_iff, decide_eq_false_iff_not,
      decide_eq_false_iff_not]
    omega
  have hfirst : (Layout.ofCode (spanning count cases last).code).instructionBytes 0
      ⟨.br, .target (count + 1), none⟩ = .error (.malformed (.branchRange 0)) := by
    rw [Layout.instructionBytes]
    refine map_eq_error.mpr ?_
    change Layout.wordBytes _ _ = _
    rw [Layout.wordBytes, hfar]
    rfl
  refine map_eq_error.mpr ?_
  rw [Layout.code_ofCode]
  conv_lhs => rw [spanning]
  rw [List.zipIdx_cons, List.mapM_cons]
  exact bind_eq_error.mpr (.inl hfirst)

end Listing

namespace Body

/-- A branch over more than 2 GiB of code, to the end of the method. -/
def crossing : Body :=
  ofListing ⟨0, 0⟩ (.spanning 8192 65536 ⟨.ret, .none, none⟩)

theorem emit_crossing_far :
    (∀ e ∈ crossing.entries, ∀ t ∈ e.2.operand.targets, crossing.contains t = true) ∧
    (∀ e ∈ crossing.entries, e.2.operand.hasShape e.2.opcode.operand = true) ∧
    Layout.codeSize crossing.ranked.code < UInt32.size ∧
    ∃ l, Layout.make crossing.ranked.code = .ok l ∧
      l.emit = .error (.malformed (.branchRange 0)) := by
  have hlinked : (Listing.spanning 8192 65536 ⟨.ret, .none, none⟩).Linked :=
    Listing.linked_spanning rfl
  have hsize : Layout.codeSize (Listing.spanning 8192 65536 ⟨.ret, .none, none⟩).code
      < UInt32.size := by
    rw [Listing.codeSize_spanning]
    decide
  rw [crossing, Listing.ranked_spanning rfl rfl]
  exact ⟨(linked_ofListing hlinked).targets,
    shape_ofListing _ fun _ hi => Listing.shape_spanning rfl hi, hsize, _,
    Layout.make_of_settled (Listing.settled_spanning (by decide)) hsize,
    Listing.emit_spanning (by decide)⟩

end Body

end CilEdit

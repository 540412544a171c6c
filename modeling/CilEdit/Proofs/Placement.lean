import CilEdit.Proofs.KeyChecks
import CilEdit.Proofs.Reencoding
import CilEdit.Proofs.Scanning
import CilEdit.Proofs.Widening

/-!
Where the instructions of an unshifted body are stored.

Replacements that leave a body unshifted keep the sizes of its instructions, so the offsets recorded
in it are those of its code as it stands. The stored code has them too, unless a short branch was
given a target out of its reach: such a branch is lengthened, and moves what follows it by three
bytes.
-/

namespace CilEdit

/-- The number of positions before `p` at which the opcodes differ. -/
def Opcode.changedBefore (before after : List Opcode) (p : Nat) : Nat :=
  ((before.zip after).take p).countP fun (old, new) => new != old

namespace Layout

variable {code final : List (Instruction Nat)} {i j : Instruction Nat} {p q : Nat} {W : Finset Nat}

theorem opcode_lengthen_ne (hshort : i.opcode.operand = .shortTarget) :
    (lengthen i).opcode ≠ i.opcode := by
  intro heq
  have hlong := operand_lengthen hshort
  rw [heq, hshort] at hlong
  cases hlong

theorem size_lengthen (hshort : i.opcode.operand = .shortTarget)
    (hshape : i.operand.hasShape i.opcode.operand = true) : (lengthen i).size = i.size + 3 := by
  obtain ⟨long, hlong, hoperand, -⟩ := Opcode.exists_long hshort
  have hopcode := size_long hlong
  rw [hshort] at hshape
  obtain ⟨t, htarget⟩ := Operand.exists_target hshape
  simp only [Instruction.size, lengthen, hlong, Option.getD_some, htarget, Operand.size, hshort,
    hoperand, hopcode, OperandKind.size?]

theorem codeSize_take_stretched (h : List.Forall₂ Stretched code final)
    (hshape : ∀ i ∈ code, i.operand.hasShape i.opcode.operand = true) (p : Nat) :
    codeSize (final.take p) = codeSize (code.take p) + 3 * Opcode.changedBefore
      (code.map Instruction.opcode) (final.map Instruction.opcode) p := by
  induction h generalizing p with
  | nil => simp [Opcode.changedBefore]
  | @cons i j code final hij _ ih =>
      obtain ⟨hi, hrest⟩ := List.forall_mem_cons.mp hshape
      cases p with
      | zero => rfl
      | succ p =>
          have htail := ih hrest p
          have hhead : j.size = i.size + 3 * (if j.opcode != i.opcode then 1 else 0) := by
            rcases hij with rfl | ⟨hshort, rfl⟩
            · rw [bne_self_eq_false]
              rfl
            · rw [size_lengthen hshort hi, if_pos (bne_iff_ne.mpr (opcode_lengthen_ne hshort))]
          rw [List.take_succ_cons, List.take_succ_cons, codeSize, codeSize, htail, hhead]
          simp only [Opcode.changedBefore, List.map_cons, List.zip_cons_cons, List.take_succ_cons,
            List.countP_cons]
          omega

theorem offset_stretched (h : List.Forall₂ Stretched code final)
    (hshape : ∀ i ∈ code, i.operand.hasShape i.opcode.operand = true) (hp : p ≤ code.length) :
    (ofCode final).offset p = (ofCode code).offset p + 3 * Opcode.changedBefore
      (code.map Instruction.opcode) (final.map Instruction.opcode) p := by
  rw [offset_ofCode (h.length_eq ▸ hp), offset_ofCode hp, codeSize_take_stretched h hshape]

/-- Nothing before the first lengthened branch is moved. -/
theorem offset_lengthened (hW : ∀ q ∈ W, p ≤ q) (hp : p ≤ code.length) :
    (ofCode (lengthened W code)).offset p = (ofCode code).offset p := by
  have htake : (lengthened W code).take p = code.take p := by
    refine List.ext_getElem? fun q => ?_
    rw [List.getElem?_take, List.getElem?_take]
    split
    · rename_i hq
      have hnot : q ∉ W := fun hmem => Nat.not_lt.mpr (hW q hmem) hq
      simp only [lengthened, List.getElem?_mapIdx, if_neg hnot, Option.map_id']
    · rfl
  have hp' : p ≤ (lengthened W code).length := by
    rw [lengthened, List.length_mapIdx]
    exact hp
  rw [offset_ofCode hp', offset_ofCode hp, htake]

/-- Every short branch but that of the last instruction reaches its target from where it stands. -/
def ReachingBeforeEnd (code : List (Instruction Nat)) : Prop :=
  ∀ p i t, code[p]? = some i → p + 1 < code.length → i.opcode.operand = .shortTarget →
    i.operand = .target t → fitsByte ((ofCode code).displacement p t) = true

/-- The last instruction, if it is a short branch. -/
def lastShort (code : List (Instruction Nat)) : Finset Nat :=
  (Finset.range code.length).filter fun p =>
    p + 1 = code.length ∧ code[p]?.any (fun i => i.opcode.operand == .shortTarget) = true

theorem mem_lastShort : p ∈ lastShort code ↔
    p + 1 = code.length ∧ ∃ i, code[p]? = some i ∧ i.opcode.operand = .shortTarget := by
  rw [lastShort, Finset.mem_filter, Finset.mem_range, Option.any_eq_true]
  constructor
  · rintro ⟨-, hlast, i, hi, hshort⟩
    exact ⟨hlast, i, hi, beq_iff_eq.mp hshort⟩
  · rintro ⟨hlast, i, hi, hshort⟩
    exact ⟨by omega, hlast, i, hi, beq_iff_eq.mpr hshort⟩

theorem ReachingBeforeEnd.suffices (h : ReachingBeforeEnd code)
    (htargets : ∀ i ∈ code, ∀ t ∈ i.operand.targets, t < code.length)
    (hshape : ∀ i ∈ code, i.operand.hasShape i.opcode.operand = true) :
    Suffices code (lastShort code) := by
  refine ⟨fun p hp => (mem_lastShort.mp hp).2, ?_⟩
  intro p i hi hshort
  rw [lengthened, List.getElem?_mapIdx, Option.map_eq_some_iff] at hi
  obtain ⟨i', hi', hsame⟩ := hi
  have hnot : p ∉ lastShort code := by
    intro hmem
    obtain ⟨-, j, hj, hjshort⟩ := mem_lastShort.mp hmem
    cases hi'.symm.trans hj
    rw [if_pos hmem] at hsame
    have hlong := operand_lengthen hjshort
    rw [hsame, hshort] at hlong
    cases hlong
  rw [if_neg hnot] at hsame
  subst hsame
  have hlt := (List.getElem?_eq_some_iff.mp hi').1
  have hinner : p + 1 < code.length := by
    by_contra hge
    exact hnot (mem_lastShort.mpr ⟨by omega, i', hi', hshort⟩)
  have hi := hshape i' (List.mem_of_getElem? hi')
  rw [hshort] at hi
  obtain ⟨t, hoperand⟩ := Operand.exists_target hi
  have ht : t < code.length := htargets i' (List.mem_of_getElem? hi') t (by
    rw [hoperand]
    exact List.mem_singleton_self t)
  have hbefore : ∀ q < code.length, ∀ r ∈ lastShort code, q ≤ r := by
    intro q hq r hr
    have hlast := (mem_lastShort.mp hr).1
    omega
  have hfits := h p i' t hi' hinner hshort hoperand
  refine ⟨t, hoperand, ?_⟩
  rw [displacement, offset_lengthened (hbefore t ht) (Nat.le_of_lt ht),
    offset_lengthened (hbefore (p + 1) hinner) (Nat.le_of_lt hinner)]
  simp only [fitsByte, Bool.and_eq_true, decide_eq_true_eq] at hfits
  exact hfits

section

variable {l : Layout} (hmake : make code = .ok l)
  (hshape : ∀ i ∈ code, i.operand.hasShape i.opcode.operand = true)

include hmake hshape

theorem reachingBeforeEnd_of_offsets
    (htargets : ∀ i ∈ code, ∀ t ∈ i.operand.targets, t < code.length)
    (hkept : ∀ p < code.length, l.offset p = (ofCode code).offset p) : ReachingBeforeEnd code := by
  obtain ⟨final, rfl, hsettled, hstretched, -⟩ := make_eq_ok hmake
  intro p i t hi hinner hshort hoperand
  obtain ⟨j, hj, hij⟩ := exists_getElem?_of_forall₂ hstretched hi
  have ht : t < code.length := htargets i (List.mem_of_getElem? hi) t (by
    rw [hoperand]
    exact List.mem_singleton_self t)
  have hnext := hkept (p + 1) hinner
  rcases hij with rfl | ⟨-, rfl⟩
  · have hfits := hsettled.overflows_eq_false hj
    simp only [overflows, hshort, hoperand, Bool.not_eq_false'] at hfits
    rwa [displacement, hkept t ht, hnext] at hfits
  · rw [offset_succ hi, offset_succ hj, hkept p (Nat.lt_of_succ_lt hinner),
      size_lengthen hshort (hshape i (List.mem_of_getElem? hi))] at hnext
    omega

theorem ReachingBeforeEnd.offset_eq (h : ReachingBeforeEnd code)
    (htargets : ∀ i ∈ code, ∀ t ∈ i.operand.targets, t < code.length) (hp : p < code.length) :
    l.offset p = (ofCode code).offset p := by
  obtain ⟨W, hW⟩ := exists_widens htargets hshape
  have hmade := hW.made
  rw [hmake] at hmade
  split at hmade
  · cases hmade
    refine offset_lengthened (fun q hq => ?_) (Nat.le_of_lt hp)
    have hlast := (mem_lastShort.mp (hW.least.2 (h.suffices htargets hshape) hq)).1
    omega
  · cases hmade

end

end Layout

namespace Body

variable {b b' b'' : Body} {edits : List Edit} {h : Handle}

/-- A replacement that leaves the body unshifted is one of the same size, or has failed. -/
theorem Tracked.replace (hb : b.Tracked) {i : Instruction Handle}
    (hunshifted : ((Edit.replace h i).apply b).shifted = false) :
    ((Edit.replace h i).apply b).Tracked := by
  rcases replace_cases h i b with ⟨old, hold, -, heq⟩ | ⟨e, heq, -⟩
  · simp only [Edit.apply, heq] at hunshifted ⊢
    rw [Bool.or_eq_false_iff, bne_eq_false_iff_eq] at hunshifted
    exact hb.overwrite hold hunshifted.2
  · simp only [Edit.apply, heq]
    exact hb

end Body

/-- A replacement by an instruction that was made. -/
def Edit.Replacement (e : Edit) : Prop :=
  ∃ h opcode operand i, Instruction.make opcode operand = .ok i ∧ e = .replace h i

theorem Edit.Replacement.made {e : Edit} (he : e.Replacement) : e.Made := by
  obtain ⟨h, opcode, operand, i, hmake, rfl⟩ := he
  exact ⟨opcode, operand, hmake⟩

namespace Body

variable {b b' b'' : Body} {edits : List Edit} {layout : Layout}

theorem tracked_edited (hb : b.Tracked) (hedits : ∀ e ∈ edits, e.Replacement)
    (hunshifted : (b.edited edits).shifted = false) : (b.edited edits).Tracked := by
  induction edits generalizing b with
  | nil => exact hb
  | cons e edits ih =>
      obtain ⟨he, hrest⟩ := List.forall_mem_cons.mp hedits
      obtain ⟨h, opcode, operand, i, -, rfl⟩ := he
      exact ih (hb.replace (unshifted_of_edited hunshifted)) hrest hunshifted

theorem encodable_edited (hb : b.Encodable) (hedits : ∀ e ∈ edits, e.Made) :
    (b.edited edits).Encodable := by
  have hstep : ∀ (e : Edit) (b b' : Body), e.Made → Change e b b' → b.Encodable →
      b'.Encodable := fun e b b' he hchange hb => hchange.encodable he hb
  exact edited_induction hstep hb edits hedits

theorem recorded_eq_map {f : Nat → Nat}
    (hoffsets : ∀ (p : Nat) (e : Handle × Instruction Handle), b.entries[p]? = some e →
      e.2.offset = some (f p)) : b.recorded = (List.range b.length).map f := by
  have hall : b.entries.map (fun e => e.2.offset)
      = (List.range b.length).map fun p => some (f p) := by
    refine List.ext_getElem? fun p => ?_
    rw [List.getElem?_map, List.getElem?_map, ← length_entries]
    cases he : b.entries[p]? with
    | none =>
        rw [List.getElem?_eq_none_iff] at he
        rw [List.getElem?_eq_none (by rwa [List.length_range])]
        rfl
    | some e =>
        rw [List.getElem?_range (List.getElem?_eq_some_iff.mp he).1]
        exact congrArg some (hoffsets p e he)
  have hsplit : b.recorded = (b.entries.map fun e => e.2.offset).filterMap fun n => n := by
    rw [List.filterMap_map]
    rfl
  rw [hsplit, hall, List.filterMap_map, ← List.filterMap_eq_map]
  rfl

/-- By the recorded offsets, every short branch but that of the last instruction reaches its
target. -/
def ReachesRecorded (b : Body) : Prop :=
  ∀ p e t j source target, b.entries[p]? = some e → p + 1 < b.length →
    e.2.opcode.operand = .shortTarget → e.2.operand = .target t → b.get? t = some j →
      e.2.offset = some source → j.offset = some target →
        Layout.fitsByte (target - (source + e.2.size : Nat)) = true

theorem getElem?_entries_rank {t : Handle} {j : Instruction Handle} (hj : b.get? t = some j) :
    b.entries[b.rank t]? = some (t, j) := by
  have hmem := contains_of_get? hj
  have hslot := (at?_eq_some_iff.mp (at?_rank hmem)).2
  exact getElem?_entries.mpr ⟨t.slot, hslot, (handle_slot hmem).symm, (get?_eq_some_iff.mp hj).2⟩

theorem Tracked.displacement_eq (hb : b.Tracked) {p source target : Nat}
    {e : Handle × Instruction Handle} {t : Handle} {j : Instruction Handle}
    (he : b.entries[p]? = some e) (hj : b.get? t = some j) (hsource : e.2.offset = some source)
    (htarget : j.offset = some target) :
    (Layout.ofCode b.ranked.code).displacement p (b.rank t)
      = target - (source + e.2.size : Nat) := by
  have hget : b.ranked.code[p]? = some ⟨e.2.opcode, e.2.operand.map b.rank, none⟩ :=
    getElem?_ranked.trans (congrArg _ he)
  cases hsource.symm.trans (hb p e he)
  cases htarget.symm.trans (hb _ _ (getElem?_entries_rank hj))
  rw [Layout.displacement, Layout.offset_succ hget, size_map]

theorem Tracked.reachesRecorded_iff (hb : b.Tracked) (hlinked : b.Linked) :
    b.ReachesRecorded ↔ Layout.ReachingBeforeEnd b.ranked.code := by
  have hlength : b.ranked.code.length = b.length := by
    rw [ranked, List.length_map, length_entries]
  rw [Layout.ReachingBeforeEnd, hlength]
  constructor
  · intro hreach p i n hi hinner hshort hoperand
    rw [getElem?_ranked, Option.map_eq_some_iff] at hi
    obtain ⟨e, he, rfl⟩ := hi
    cases htarget : e.2.operand with
    | target t =>
        rw [htarget] at hoperand
        cases hoperand
        have hmem := hlinked.targets e (List.mem_of_getElem? he) t (by
          rw [htarget]
          exact List.mem_singleton_self t)
        obtain ⟨j, hj⟩ := exists_get? hmem
        have hsource := hb p e he
        have hoffset := hb _ _ (getElem?_entries_rank hj)
        rw [hb.displacement_eq he hj hsource hoffset]
        exact hreach p e t j _ _ he hinner hshort htarget hj hsource hoffset
    | none | immediate v | token t | switch ts =>
        rw [htarget] at hoperand
        cases hoperand
  · intro hreach p e t j source target he hinner hshort hoperand hj hsource htarget
    have hget : b.ranked.code[p]? = some ⟨e.2.opcode, e.2.operand.map b.rank, none⟩ :=
      getElem?_ranked.trans (congrArg _ he)
    rw [← hb.displacement_eq he hj hsource htarget]
    exact hreach p _ (b.rank t) hget hinner hshort (congrArg (Operand.map b.rank) hoperand)

def opcodes (b : Body) : List Opcode :=
  b.entries.map fun e => e.2.opcode

/-- What the stored form of a body, read back as `b''`, keeps of the offsets recorded in it. -/
structure Relocates (b b'' : Body) (layout : Layout) : Prop where
  restores : b.Restores b'' layout
  moved : ∀ (p : Nat) (e : Handle × Instruction Handle), b.entries[p]? = some e →
    ∃ n, e.2.offset = some n ∧
      layout.offset p = n + 3 * Opcode.changedBefore b.opcodes b''.opcodes p
  kept_iff : (∀ (p : Nat) (e : Handle × Instruction Handle), b.entries[p]? = some e →
    e.2.offset = some (layout.offset p)) ↔ b.ReachesRecorded
  recorded_iff : b''.recorded = b.recorded ↔ b.ReachesRecorded

theorem opcodes_ranked (b : Body) : b.ranked.code.map Instruction.opcode = b.opcodes := by
  rw [ranked, List.map_map]
  rfl

theorem opcodes_ofListing (id : BodyId) (l : Listing) :
    (ofListing id l).opcodes = l.code.map Instruction.opcode := by
  rw [opcodes, entries_ofListing, List.map_map]
  calc l.code.zipIdx.map _ = (l.code.zipIdx.map Prod.fst).map Instruction.opcode := by
        rw [List.map_map]
        rfl
    _ = l.code.map Instruction.opcode := by rw [List.zipIdx_map_fst]

theorem Tracked.kept_iff (hb : b.Tracked) (hencodable : b.Encodable)
    (hmake : Layout.make b.ranked.code = .ok layout) :
    (∀ p < b.length, layout.offset p = (Layout.ofCode b.ranked.code).offset p) ↔
      b.ReachesRecorded := by
  have hwell := hencodable.wellFormed
  have hlength : b.ranked.code.length = b.length := by
    rw [ranked, List.length_map, length_entries]
  rw [hb.reachesRecorded_iff hencodable.linked, ← hlength]
  exact ⟨Layout.reachingBeforeEnd_of_offsets hmake hwell.shape hwell.targets,
    fun hreach p hp => hreach.offset_eq hmake hwell.shape hwell.targets hp⟩

theorem Tracked.recorded_eq (hb : b.Tracked) :
    b.recorded = (List.range b.length).map (Layout.ofCode b.ranked.code).offset :=
  recorded_eq_map hb

theorem Restores.recorded_eq (hb : b.Restores b'' layout) :
    b''.recorded = (List.range b.length).map layout.offset := by
  rw [← hb.length]
  refine recorded_eq_map fun p e'' he'' => ?_
  have hp : p < b.entries.length := by
    rw [length_entries, ← hb.length, ← length_entries]
    exact (List.getElem?_eq_some_iff.mp he'').1
  exact (hb.instructions p _ e'' (List.getElem?_eq_getElem hp) he'').2.2

theorem Tracked.placed_iff (hb : b.Tracked) :
    (∀ (p : Nat) (e : Handle × Instruction Handle), b.entries[p]? = some e →
      e.2.offset = some (layout.offset p)) ↔
      ∀ p < b.length, layout.offset p = (Layout.ofCode b.ranked.code).offset p := by
  constructor
  · intro hall p hp
    rw [← length_entries] at hp
    have he := List.getElem?_eq_getElem hp
    exact Option.some_inj.mp ((hall p _ he).symm.trans (hb p _ he))
  · intro hall p e he
    have hp : p < b.length := by
      rw [← length_entries]
      exact (List.getElem?_eq_some_iff.mp he).1
    rw [hall p hp]
    exact hb p e he

/-- The stored form of a tracked body has its instructions at the recorded offsets, but for what
lengthened branches move. -/
theorem Tracked.relocates (hb : b.Tracked) (hencodable : b.Encodable) {resolve : Resolver}
    {returnsValue : Bool} {out : Bytes} (hout : b.encode resolve returnsValue = .ok out)
    (id : BodyId) : ∃ layout b'', Layout.make b.ranked.code = .ok layout ∧
      decode id out = .ok b'' ∧ b.Relocates b'' layout := by
  obtain ⟨final, header, code, hmake, hstretched, -, -, hdecode, -⟩ :=
    hencodable.decode_eq hout id
  have hrestores := restores_ofListing hencodable hstretched id (header.stored code).maxStack
  have hlength : b.ranked.code.length = b.length := by
    rw [ranked, List.length_map, length_entries]
  have hkept := hb.kept_iff hencodable hmake
  refine ⟨.ofCode final, _, hmake, hdecode, hrestores, ?_, hb.placed_iff.trans hkept, ?_⟩
  · intro p e he
    have hp : p < b.ranked.code.length := by
      rw [hlength, ← length_entries]
      exact (List.getElem?_eq_some_iff.mp he).1
    refine ⟨_, hb p e he, ?_⟩
    rw [opcodes_ofListing, ← opcodes_ranked]
    exact Layout.offset_stretched hstretched hencodable.wellFormed.shape (Nat.le_of_lt hp)
  · rw [← hkept, hrestores.recorded_eq, hb.recorded_eq, List.map_inj_left]
    exact forall_congr' fun p => by rw [List.mem_range]

/-- However the instructions of a decoded body are replaced, as long as it stays unshifted its
stored form has every instruction at the offset recorded for it, moved by three bytes for each short
branch before it that had to be lengthened; and no instruction is moved exactly if by the recorded
offsets every short branch but that of the last instruction reaches its target. -/
theorem relocates_edited {id : BodyId} {data out : Bytes} {resolve : Resolver}
    {returnsValue : Bool} (h : decode id data = .ok b) (hedits : ∀ e ∈ edits, e.Replacement)
    (hunshifted : (b.edited edits).shifted = false)
    (hout : (b.edited edits).encode resolve returnsValue = .ok out) (id' : BodyId) :
    ∃ layout b'', Layout.make (b.edited edits).ranked.code = .ok layout ∧
      decode id' out = .ok b'' ∧ (b.edited edits).Relocates b'' layout := by
  have hfresh := fresh_of_decode h
  have htracked := tracked_edited hfresh.inPlace.offsets hedits hunshifted
  have hencodable := encodable_edited hfresh.toEncodable fun e he => (hedits e he).made
  exact htracked.relocates hencodable hout id'

end Body

/-- A branch, and a switch that is longer than a short branch reaches. -/
def Listing.dispatch (opcode : Opcode) (target : Nat) : Listing where
  code := [⟨opcode, .target target, none⟩, ⟨.ldcI40, .none, none⟩,
    ⟨.switch, .switch (List.replicate 31 3), none⟩, ⟨.ret, .none, none⟩]
  handlers := []
  maxStack := 8
  locals := .null
  initLocals := false

theorem Listing.linked_dispatch (opcode : Opcode) {target : Nat} (h : target < 4) :
    (dispatch opcode target).Linked where
  targets := by
    have hrest : ∀ i ∈ (dispatch .br 0).code.tail, ∀ t ∈ i.operand.targets, t < 4 := by decide
    exact List.forall_mem_cons.mpr ⟨List.forall_mem_singleton.mpr h, hrest⟩
  boundaries _ hh := (List.not_mem_nil hh).elim

namespace Body

/-- The stored form, with the bytes of the branch. -/
def dispatchBytes (codeSize : UInt8) (branch : Bytes) : Bytes :=
  [0x03, 0x30, 8, 0, codeSize, 0, 0, 0, 0, 0, 0, 0] ++ branch ++ [0x16, 0x45, 31, 0, 0, 0]
    ++ List.replicate 124 0 ++ [0x2A]

theorem decode_dispatchBytes {codeSize : UInt8} {branch : Bytes} {opcode : Opcode} {target : Nat}
    (htarget : target < 4) (hheader : Header.parse (dispatchBytes codeSize branch)
      = .ok ⟨12, codeSize.toNat, 8, .null, true, false, []⟩)
    (hcode : Header.code ⟨12, codeSize.toNat, 8, .null, true, false, []⟩
      (dispatchBytes codeSize branch) = .ok ((dispatchBytes codeSize branch).drop 12))
    (hraws : Stream.decode ((dispatchBytes codeSize branch).drop 12)
      = .ok (Layout.raws (Listing.dispatch opcode target).code)) (id : BodyId) :
    decode id (dispatchBytes codeSize branch) = .ok (ofListing id (.dispatch opcode target)) :=
  decode_eq_ofListing (Listing.linked_dispatch opcode htarget) hheader hcode hraws rfl
    ⟨rfl, rfl, rfl, rfl⟩ id

theorem decode_dispatch (id : BodyId) :
    decode id (dispatchBytes 133 [0x2B, 0]) = .ok (ofListing id (.dispatch .brS 1)) :=
  decode_dispatchBytes (by decide) (by decide +kernel) (by decide +kernel) (by decide +kernel) id

theorem decode_dispatch_far (id : BodyId) :
    decode id (dispatchBytes 136 [0x38, 130, 0, 0, 0]) = .ok (ofListing id (.dispatch .br 3)) :=
  decode_dispatchBytes (by decide) (by decide +kernel) (by decide +kernel) (by decide +kernel) id

/-- The branch goes over the switch, to the last instruction. -/
def farBranch : Instruction Handle :=
  ⟨.brS, .target ⟨⟨0, 0⟩, 3⟩, none⟩

theorem encode_dispatch_far :
    ((ofListing ⟨0, 0⟩ (.dispatch .brS 1)).edited [.replace ⟨⟨0, 0⟩, 0⟩ farBranch]).encode
      (fun _ => none) false = .ok (dispatchBytes 136 [0x38, 130, 0, 0, 0]) := by
  have hlinked : ((ofListing ⟨0, 0⟩ (.dispatch .brS 1)).edited
      [.replace ⟨⟨0, 0⟩, 0⟩ farBranch]).Linked :=
    linked_edited (linked_ofListing (Listing.linked_dispatch .brS (by decide))) _
  have hranked : ((ofListing ⟨0, 0⟩ (.dispatch .brS 1)).edited
      [.replace ⟨⟨0, 0⟩, 0⟩ farBranch]).ranked = .dispatch .brS 3 := by
    decide +kernel
  have hassemble : (Listing.dispatch .brS 3).assemble (fun _ => none) false
      = .ok (⟨0, 136, 8, .null, false, false, []⟩,
        (dispatchBytes 136 [0x38, 130, 0, 0, 0]).drop 12) := by
    decide +kernel
  rw [← hranked] at hassemble
  exact encode_of_listing hlinked.listing_eq hassemble (by decide +kernel)

theorem relocates_dispatch : ∃ b out, decode ⟨0, 0⟩ (dispatchBytes 133 [0x2B, 0]) = .ok b ∧
    (b.edited [.replace ⟨⟨0, 0⟩, 0⟩ farBranch]).shifted = false ∧
    (b.edited [.replace ⟨⟨0, 0⟩, 0⟩ farBranch]).encode (fun _ => none) false = .ok out ∧
    ∃ layout b'', Layout.make (b.edited [.replace ⟨⟨0, 0⟩, 0⟩ farBranch]).ranked.code
      = .ok layout ∧ decode ⟨1, 0⟩ out = .ok b'' ∧
        (b.edited [.replace ⟨⟨0, 0⟩, 0⟩ farBranch]).Relocates b'' layout := by
  have hunshifted : ((ofListing ⟨0, 0⟩ (.dispatch .brS 1)).edited
      [.replace ⟨⟨0, 0⟩, 0⟩ farBranch]).shifted = false := by
    decide +kernel
  have hedits : ∀ e ∈ [Edit.replace ⟨⟨0, 0⟩, 0⟩ farBranch], e.Replacement :=
    List.forall_mem_singleton.mpr ⟨_, .brS, .target ⟨⟨0, 0⟩, 3⟩, farBranch, rfl, rfl⟩
  exact ⟨_, _, decode_dispatch ⟨0, 0⟩, hunshifted, encode_dispatch_far,
    relocates_edited (decode_dispatch ⟨0, 0⟩) hedits hunshifted encode_dispatch_far ⟨1, 0⟩⟩

/-- The body stays unshifted, but its branch is lengthened and moves all that follows. -/
theorem moved_dispatch : ∃ b out b'',
    decode ⟨0, 0⟩ (dispatchBytes 133 [0x2B, 0]) = .ok b ∧
    Instruction.make .brS (.target ⟨⟨0, 0⟩, 3⟩) = .ok farBranch ∧
    (b.edited [.replace ⟨⟨0, 0⟩, 0⟩ farBranch]).shifted = false ∧
    (b.edited [.replace ⟨⟨0, 0⟩, 0⟩ farBranch]).encode (fun _ => none) false = .ok out ∧
    decode ⟨1, 0⟩ out = .ok b'' ∧
    (b.edited [.replace ⟨⟨0, 0⟩, 0⟩ farBranch]).recorded = [0, 2, 3, 132] ∧
    b''.recorded = [0, 5, 6, 135] :=
  ⟨_, _, _, decode_dispatch ⟨0, 0⟩, rfl, by decide +kernel, encode_dispatch_far,
    decode_dispatch_far ⟨1, 0⟩, by decide +kernel, by decide +kernel⟩

end Body

end CilEdit

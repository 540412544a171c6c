import CilEdit.Proofs.Linking
import CilEdit.Proofs.Serialization

namespace CilEdit

open Reader

namespace Stream

/-- The instructions follow each other from an offset on, and short branches reach their targets. -/
inductive Contiguous : Nat → List RawInstruction → Prop
  | nil (first : Nat) : Contiguous first []
  | cons {raw : RawInstruction} {rest : List RawInstruction} (short : raw.Short)
      (tail : Contiguous raw.stop rest) : Contiguous raw.offset (raw :: rest)

theorem Run.contiguous {i : Input} {raws : List RawInstruction} (h : Run i raws) :
    Contiguous i.pos raws := by
  induction h with
  | done _ => exact .nil _
  | step hread _ ih =>
      obtain ⟨hoffset, hstop, hshort⟩ := RawInstruction.next_of_read hread
      rw [hstop] at ih
      rw [← hoffset]
      exact .cons hshort ih

theorem contiguous_decode {code : Bytes} {raws : List RawInstruction}
    (h : decode code = .ok raws) : Contiguous 0 raws :=
  (run_decode h).contiguous

theorem Contiguous.short {first : Nat} {raws : List RawInstruction} (h : Contiguous first raws) :
    ∀ raw ∈ raws, raw.Short := by
  induction h with
  | nil => exact fun _ hraw => (List.not_mem_nil hraw).elim
  | cons hshort _ ih => exact List.forall_mem_cons.mpr ⟨hshort, ih⟩

/-- Instructions of the same sizes have the offsets of the stream. -/
theorem Contiguous.offset_eq {first : Nat} {raws : List RawInstruction}
    {code : List (Instruction Nat)} (h : Contiguous first raws)
    (hsizes : List.Forall₂ (fun raw i => raw.stop = raw.offset + i.size) raws code) {p : Nat}
    {raw : RawInstruction} (hraw : raws[p]? = some raw) :
    raw.offset = first + Layout.codeSize (code.take p) := by
  induction h generalizing code p with
  | nil => cases hraw
  | @cons head rest hshort _ ih =>
      obtain ⟨i, code, hsize, hrest, rfl⟩ := List.forall₂_cons_left_iff.mp hsizes
      cases p with
      | zero =>
          cases hraw
          rfl
      | succ p =>
          rw [ih hrest hraw, hsize, List.take_succ_cons, Layout.codeSize, Nat.add_assoc]

end Stream

namespace Body

variable {id : BodyId} {data : Bytes} {b : Body}

/-- Every instruction stands where the layout of the code puts it, and no short branch has to be
lengthened. -/
structure InPlace (b : Body) : Prop where
  settled : Layout.Settled b.ranked.code
  offsets : ∀ (p : Nat) (e : Handle × Instruction Handle), b.entries[p]? = some e →
    e.2.offset = some ((Layout.ofCode b.ranked.code).offset p)

/-- Every instruction has the offset recorded at which the code as it stands would put it. -/
def Tracked (b : Body) : Prop :=
  ∀ (p : Nat) (e : Handle × Instruction Handle), b.entries[p]? = some e →
    e.2.offset = some ((Layout.ofCode b.ranked.code).offset p)

theorem getElem?_ranked {p : Nat} : b.ranked.code[p]?
    = b.entries[p]?.map fun e => ⟨e.2.opcode, e.2.operand.map b.rank, none⟩ := by
  rw [ranked, List.getElem?_map]

theorem operand_size_map {τ σ : Type} (f : τ → σ) (operand : Operand τ) (opcode : Opcode) :
    (operand.map f).size opcode = operand.size opcode := by
  cases operand <;> simp [Operand.map, Operand.size]

theorem operand_size_of_traverse {τ σ : Type} {f : τ → Except Error σ} {operand : Operand τ}
    {found : Operand σ} (h : operand.traverse f = .ok found) (opcode : Opcode) :
    found.size opcode = operand.size opcode := by
  cases operand with
  | none | immediate v | token t =>
      cases h
      rfl
  | target t =>
      obtain ⟨t', -, rfl⟩ := map_eq_ok.mp h
      rfl
  | switch ts =>
      obtain ⟨ts', hts, rfl⟩ := map_eq_ok.mp h
      simp only [Operand.size, (mapM_eq_ok_iff.mp hts).length_eq]

/-- The body holds the linked instructions of a stream and what the header of the stream tells. -/
structure ReadFrom (id : BodyId) (header : Header) (codeSize : Nat) (raws : List RawInstruction)
    (b : Body) : Prop where
  identity : b.id = id
  unshifted : b.shifted = false
  order : b.order = Array.range raws.length
  entries : List.Forall₂ (fun raw e => linkInstruction id (slotsByOffset raws) raw = .ok e.2) raws
    b.entries
  handlers : List.Forall₂ (fun c k => linkClause id (slotsByOffset raws) codeSize c = .ok k)
    header.clauses b.handlers
  maxStack : b.maxStack = header.maxStack
  locals : b.locals = header.locals
  initLocals : b.initLocals = header.initLocals

theorem readFrom_of_decode (h : decode id data = .ok b) :
    ∃ header code raws, Header.parse data = .ok header ∧ header.code data = .ok code ∧
      Stream.decode code = .ok raws ∧ ReadFrom id header code.length raws b := by
  obtain ⟨header, code, raws, instructions, handlers, hheader, hcode, hraws, hinstructions,
    hhandlers, rfl⟩ := decode_eq_ok h
  rw [mapM_eq_ok_iff] at hinstructions hhandlers
  refine ⟨header, code, raws, hheader, hcode, hraws, rfl, rfl, ?_, ?_, hhandlers, rfl, rfl, rfl⟩
  · change Array.range instructions.length = _
    rw [← hinstructions.length_eq]
  · rw [entries_ofInstructions rfl, List.forall₂_map_right_iff]
    rw [← List.zipIdx_map_fst 0 instructions, List.forall₂_map_right_iff] at hinstructions
    exact hinstructions

theorem rank_of_range {n : Nat} {t : Handle} (horder : b.order = Array.range n)
    (ht : b.contains t = true) : b.rank t = t.slot := by
  obtain ⟨hbody, hslot⟩ := contains_iff.mp ht
  rw [horder, Array.mem_range] at hslot
  refine rank_of_at? (at?_eq_some_iff.mpr ⟨hbody, ?_⟩)
  rw [horder, Array.getElem?_range, if_pos hslot]

theorem nonneg_of_linkTarget {starts : Std.HashMap Nat Nat} {offset : Nat} {target : Int}
    {t : Handle} (h : linkTarget id starts offset target = .ok t) : 0 ≤ target := by
  simp only [linkTarget] at h
  by_contra hneg
  rw [if_pos (Int.not_le.mp hneg)] at h
  cases h

namespace ReadFrom

variable {header : Header} {codeSize p : Nat} {raws : List RawInstruction}

theorem exists_raw (hb : ReadFrom id header codeSize raws b) {e : Handle × Instruction Handle}
    (he : b.entries[p]? = some e) :
    ∃ raw, raws[p]? = some raw ∧ linkInstruction id (slotsByOffset raws) raw = .ok e.2 := by
  have hp : p < raws.length := by
    rw [hb.entries.length_eq]
    exact (List.getElem?_eq_some_iff.mp he).1
  have hget := List.getElem?_eq_getElem hp
  exact ⟨raws[p], hget, forall₂_getElem? hb.entries hget he⟩

theorem sizes (hb : ReadFrom id header codeSize raws b) :
    List.Forall₂ (fun raw i => raw.stop = raw.offset + i.size) raws b.ranked.code := by
  rw [ranked, List.forall₂_map_right_iff]
  refine hb.entries.imp fun raw e he => ?_
  obtain ⟨hopcode, -, hoperand⟩ := linkInstruction_eq_ok he
  simp only [Instruction.size, operand_size_map, RawInstruction.stop, hopcode,
    operand_size_of_traverse hoperand]

/-- An instruction has the position and the offset of the one that it was read from. -/
theorem of_getElem?_entries (hb : ReadFrom id header codeSize raws b)
    {e : Handle × Instruction Handle} (he : b.entries[p]? = some e) :
    e.1 = ⟨id, p⟩ ∧ ∃ raw, raws[p]? = some raw ∧ e.2.offset = some raw.offset := by
  obtain ⟨raw, hraw, hlink⟩ := hb.exists_raw he
  obtain ⟨slot, hslot, hhandle, -⟩ := getElem?_entries.mp he
  rw [hb.order, Array.getElem?_range, if_pos (List.getElem?_eq_some_iff.mp hraw).1] at hslot
  cases hslot
  refine ⟨?_, raw, hraw, (linkInstruction_eq_ok hlink).2.1⟩
  rw [hhandle, handle, hb.identity]

variable (hb : ReadFrom id header codeSize raws b) (hraws : Stream.Contiguous 0 raws)

include hb hraws

theorem offset_eq {raw : RawInstruction} (hraw : raws[p]? = some raw) :
    (Layout.ofCode b.ranked.code).offset p = raw.offset := by
  have hp : p < b.ranked.code.length := by
    rw [← hb.sizes.length_eq]
    exact (List.getElem?_eq_some_iff.mp hraw).1
  rw [Layout.offset_ofCode (Nat.le_of_lt hp), hraws.offset_eq hb.sizes hraw, Nat.zero_add]

theorem offset_succ {raw : RawInstruction} (hraw : raws[p]? = some raw) :
    (Layout.ofCode b.ranked.code).offset (p + 1) = raw.stop := by
  have hp : p < b.ranked.code.length := by
    rw [← hb.sizes.length_eq]
    exact (List.getElem?_eq_some_iff.mp hraw).1
  have hget := List.getElem?_eq_getElem hp
  rw [Layout.offset_succ hget, hb.offset_eq hraws hraw, ← forall₂_getElem? hb.sizes hraw hget]

theorem offset_rank {t : Handle} {offset : Nat} (ht : LinkedTo id raws t offset) :
    (Layout.ofCode b.ranked.code).offset (b.rank t) = offset := by
  obtain ⟨hbody, raw, hraw, rfl⟩ := ht
  have hmem : b.contains t = true := by
    refine contains_iff.mpr ⟨hbody.trans hb.identity.symm, ?_⟩
    rw [hb.order, Array.mem_range]
    exact (List.getElem?_eq_some_iff.mp hraw).1
  rw [rank_of_range hb.order hmem, hb.offset_eq hraws hraw]

theorem offset_target {t : Handle} {source : Nat} {target : Int}
    (ht : linkTarget id (slotsByOffset raws) source target = .ok t) :
    ((Layout.ofCode b.ranked.code).offset (b.rank t) : Int) = target := by
  rw [hb.offset_rank hraws (linkedTo_of_linkTarget ht), Int.toNat_of_nonneg
    (nonneg_of_linkTarget ht)]

end ReadFrom

/-- Every instruction of a decoded body is in its place. -/
theorem inPlace_of_decode (h : decode id data = .ok b) : b.InPlace := by
  obtain ⟨header, stored, raws, -, -, hstream, hb⟩ := readFrom_of_decode h
  have hraws := Stream.contiguous_decode hstream
  constructor
  · apply Layout.settled_of_overflows_eq_false
    intro p i hi
    rw [getElem?_ranked, Option.map_eq_some_iff] at hi
    obtain ⟨e, he, rfl⟩ := hi
    obtain ⟨raw, hget, hlink⟩ := hb.exists_raw he
    obtain ⟨hopcode, -, hoperand⟩ := linkInstruction_eq_ok hlink
    simp only [Layout.overflows]
    split
    · rename_i position hshort htarget
      -- The target is the offset of the instruction that the branch was linked to.
      rw [hopcode] at hshort
      obtain ⟨d, hd, hfits⟩ := hraws.short raw (List.mem_of_getElem? hget) hshort
      rw [hd] at hoperand
      obtain ⟨t, ht, hsame⟩ := map_eq_ok.mp hoperand
      rw [← hsame] at htarget
      cases htarget
      have hdisplacement : (Layout.ofCode b.ranked.code).displacement p (b.rank t) = d := by
        rw [Layout.displacement, hb.offset_target hraws ht, hb.offset_succ hraws hget]
        omega
      rw [hdisplacement, hfits]
      rfl
    · rfl
  · intro p e he
    obtain ⟨raw, hget, hlink⟩ := hb.exists_raw he
    rw [(linkInstruction_eq_ok hlink).2.1, hb.offset_eq hraws hget]

theorem rank_overwrite (b : Body) (slot : Nat) (opcode : Opcode) (operand : Operand Handle) :
    (b.overwrite slot opcode operand).rank = b.rank := by
  funext t
  have hsame : (b.overwrite slot opcode operand).contains t = b.contains t :=
    Bool.eq_iff_iff.mpr contains_overwrite
  rw [rank, rank, position, position, hsame]
  rfl

theorem entries_overwrite (b : Body) (slot : Nat) (opcode : Opcode) (operand : Operand Handle) :
    (b.overwrite slot opcode operand).entries = b.entries.map fun e =>
      (e.1, if e.1.slot = slot then { e.2 with opcode, operand } else e.2) := by
  rw [entries, entries, List.map_filterMap]
  refine List.filterMap_congr fun n _ => ?_
  change (b.slots.modify slot _)[n]?.map _ = _
  rw [Array.getElem?_modify]
  by_cases hn : slot = n
  · subst hn
    simp only [if_true, Option.map_map]
    congr 1
    funext s
    simp [handle, overwrite]
  · simp only [if_neg hn, Option.map_map]
    congr 1
    funext s
    simp [handle, overwrite, Ne.symm hn]

end Body

/-- The second instruction is the first one, or one of the same size without targets. -/
def Instruction.Rewritten (i j : Instruction Nat) : Prop :=
  j.size = i.size ∧ (j = i ∨ j.operand.targets = [])

namespace Layout

variable {code code' : List (Instruction Nat)}

theorem offset_congr (h : List.Forall₂ (fun i j => j.size = i.size) code code') :
    (ofCode code').offset = (ofCode code).offset := by
  have hsizes : code'.map Instruction.size = code.map Instruction.size := map_eq_of_forall₂ h
  have hoffsets : ∀ code : List (Instruction Nat), runningOffsets code
      = ((code.map Instruction.size).foldl (fun s size =>
        (s.1.push (s.2 + size), s.2 + size)) (#[0], 0)).1 := by
    intro code
    rw [List.foldl_map]
    rfl
  funext p
  rw [offset, offset, ofCode, ofCode, hoffsets, hoffsets, hsizes]

theorem Settled.rewritten (hsettled : Settled code)
    (h : List.Forall₂ Instruction.Rewritten code code') : Settled code' := by
  have hoffset := offset_congr (h.imp fun _ _ hij => hij.1)
  apply settled_of_overflows_eq_false
  intro p j hj
  have hp : p < code.length := by
    rw [h.length_eq]
    exact (List.getElem?_eq_some_iff.mp hj).1
  have hi := List.getElem?_eq_getElem hp
  obtain ⟨-, rfl | hnone⟩ := forall₂_getElem? h hi hj
  · have hfits := hsettled.overflows_eq_false hi
    simpa only [overflows, displacement, hoffset] using hfits
  · unfold overflows
    split
    · rename_i t _ htarget
      rw [htarget] at hnone
      cases hnone
    · rfl

end Layout

namespace Body

variable {b : Body} {h : Handle} {old : Instruction Handle} {opcode : Opcode}
  {operand : Operand Handle}

/-- Overwriting changes one instruction of the code. -/
theorem forall₂_overwrite {R : Instruction Nat → Instruction Nat → Prop}
    (hold : b.instruction h = .ok old) (hrefl : ∀ i, R i i)
    (hnew : R ⟨old.opcode, old.operand.map b.rank, none⟩ ⟨opcode, operand.map b.rank, none⟩) :
    List.Forall₂ R b.ranked.code (b.overwrite h.slot opcode operand).ranked.code := by
  rw [ranked, ranked, rank_overwrite, entries_overwrite, List.map_map,
    List.forall₂_map_left_iff, List.forall₂_map_right_iff, List.forall₂_same]
  intro e he
  rw [Function.comp_apply]
  split
  · rename_i heq
    -- The instruction of the slot is the old one.
    have hsame := (mem_entries_iff.mp he).2
    rw [heq, (instruction_eq_ok_iff.mp hold).2] at hsame
    cases hsame
    exact hnew
  · exact hrefl _

/-- An instruction can be written over another one of the same size. -/
theorem Tracked.overwrite (hb : b.Tracked) (hold : b.instruction h = .ok old)
    (hsize : opcode.size + operand.size opcode = old.size) :
    (b.overwrite h.slot opcode operand).Tracked := by
  have hsizes : List.Forall₂ (fun i j => j.size = i.size) b.ranked.code
      (b.overwrite h.slot opcode operand).ranked.code := by
    refine forall₂_overwrite hold (fun _ => rfl) ?_
    rw [Instruction.size, Instruction.size, operand_size_map, operand_size_map]
    exact hsize
  intro p e he
  rw [Layout.offset_congr hsizes]
  rw [entries_overwrite, List.getElem?_map, Option.map_eq_some_iff] at he
  obtain ⟨e', he', rfl⟩ := he
  have hoffset := hb p e' he'
  dsimp only
  split
  · exact hoffset
  · exact hoffset

/-- One without targets leaves the branches as they are. -/
theorem InPlace.overwrite (hb : b.InPlace) (hold : b.instruction h = .ok old)
    (hsize : opcode.size + operand.size opcode = old.size) (htargets : operand.targets = []) :
    (b.overwrite h.slot opcode operand).InPlace := by
  refine ⟨hb.settled.rewritten ?_, Tracked.overwrite hb.offsets hold hsize⟩
  refine forall₂_overwrite hold (fun _ => ⟨rfl, .inl rfl⟩) ⟨?_, .inr ?_⟩
  · rw [Instruction.size, Instruction.size, operand_size_map, operand_size_map]
    exact hsize
  · rw [Operand.targets_map, htargets]
    rfl

end Body

end CilEdit

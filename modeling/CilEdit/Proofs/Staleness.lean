import CilEdit.Proofs.Descriptors

namespace CilEdit

/-- What an edit appends was not decoded from anywhere. -/
def Edit.Unrecorded : Edit → Prop
  | .push i => i.offset = none
  | .replace _ _ | .remove _ | .splice _ _ => True

/-- Whether an edit of `b` succeeds and moves code. A replacement does so only if the new
instruction has another size. -/
def Edit.moves (b : Body) : Edit → Bool
  | .push i => (Body.push i b).1.isOk
  | .replace h i =>
    (Body.replace h i b).1.isOk && (b.get? h).any fun old => i.size != old.size
  | .remove h => (Body.remove h b).1.isOk
  | .splice anchor s => (Body.splice anchor s b).1.isOk

/-- Whether some edit of a run moves code. -/
def Body.moves : Body → List Edit → Bool
  | _, [] => false
  | b, e :: edits => e.moves b || moves (e.apply b) edits

namespace Body

theorem Mirrors.refl (b : Body) : b.Mirrors (fun t => t) b :=
  ⟨rfl, List.forall₂_same.mpr fun _ _ => ⟨rfl, rfl⟩⟩

theorem Mirrors.trans {b b' b'' : Body} (h : b.Mirrors (fun t => t) b')
    (h' : b'.Mirrors (fun t => t) b'') : b.Mirrors (fun t => t) b'' :=
  ⟨h'.shifted.trans h.shifted, forall₂_trans (fun _ _ _ hxy hyz =>
    ⟨hyz.1.trans hxy.1, hyz.2.trans hxy.2⟩) h.entries h'.entries⟩

end Body

/-- An edit moves code and leaves the offsets stale, or it leaves every instruction at its position
and with the offset recorded for it. -/
theorem Edit.moves_cases {e : Edit} (he : e.Unrecorded) (b : Body) :
    e.moves b = true ∧ (e.apply b).shifted = true ∨
      e.moves b = false ∧ b.Mirrors (fun t => t) (e.apply b) := by
  cases e with
  | push i =>
      rcases Body.push_cases i b with ⟨-, heq⟩ | ⟨e, -, heq⟩
      · have hnew : i.offset.isNone = true := Option.isNone_iff_eq_none.mpr he
        refine .inl ⟨by rw [moves, heq]; rfl, ?_⟩
        simp only [apply, heq, hnew, Bool.or_true]
      · refine .inr ⟨by rw [moves, heq]; rfl, ?_⟩
        simp only [apply, heq]
        exact .refl b
  | replace h i =>
      rcases Body.replace_cases h i b with ⟨old, hold, -, heq⟩ | ⟨e, heq, -⟩
      · have hmoves : moves b (.replace h i) = (i.size != old.size) := by
          rw [moves, heq, Body.instruction_eq_ok_iff_get?.mp hold]
          rfl
        cases hsize : i.size != old.size with
        | true =>
            refine .inl ⟨hmoves.trans hsize, ?_⟩
            simp only [apply, heq, hsize, Bool.or_true]
        | false =>
            refine .inr ⟨hmoves.trans hsize, ?_, ?_⟩
            · simp only [apply, heq, hsize, Bool.or_false]
            · simp only [apply, heq]
              exact (b.mirrors_overwrite h.slot i.opcode i.operand).entries
      · refine .inr ⟨by rw [moves, heq]; rfl, ?_⟩
        simp only [apply, heq]
        exact .refl b
  | remove h =>
      rcases Body.remove_cases h b with ⟨-, -, heq⟩ | ⟨-, e, heq⟩
      · refine .inl ⟨by rw [moves, heq]; rfl, ?_⟩
        simp only [apply, heq]
        rfl
      · refine .inr ⟨by rw [moves, heq]; rfl, ?_⟩
        simp only [apply, heq]
        exact .refl b
  | splice anchor s =>
      rcases Body.splice_cases anchor s b with ⟨_, _, -, -, -, heq⟩ | ⟨e, heq, -⟩
      · refine .inl ⟨by rw [moves, heq]; rfl, ?_⟩
        simp only [apply, heq]
        rfl
      · refine .inr ⟨by rw [moves, heq]; rfl, ?_⟩
        simp only [apply, heq]
        exact .refl b

namespace Body

variable {b b' : Body} {f : Handle → Handle} {edits : List Edit}

theorem edited_append (b : Body) (edits more : List Edit) :
    b.edited (edits ++ more) = (b.edited edits).edited more :=
  List.foldl_append

theorem shifted_edited (b : Body) (hnew : ∀ e ∈ edits, e.Unrecorded) :
    (b.edited edits).shifted = (b.shifted || moves b edits) := by
  induction edits generalizing b with
  | nil => exact (Bool.or_false _).symm
  | cons e edits ih =>
      obtain ⟨he, hrest⟩ := List.forall_mem_cons.mp hnew
      have hlast := ih (e.apply b) hrest
      rcases Edit.moves_cases he b with ⟨hmoves, hshifted⟩ | ⟨hmoves, hmirrors⟩
      · rw [hshifted, Bool.true_or] at hlast
        rw [moves, hmoves, Bool.true_or, Bool.or_true]
        exact hlast
      · rw [hmirrors.shifted] at hlast
        rw [moves, hmoves, Bool.false_or]
        exact hlast

theorem mirrors_edited (b : Body) (hnew : ∀ e ∈ edits, e.Unrecorded)
    (hmoves : moves b edits = false) : b.Mirrors (fun t => t) (b.edited edits) := by
  induction edits generalizing b with
  | nil => exact .refl b
  | cons e edits ih =>
      obtain ⟨he, hrest⟩ := List.forall_mem_cons.mp hnew
      rw [moves, Bool.or_eq_false_iff] at hmoves
      rcases Edit.moves_cases he b with ⟨hmoved, -⟩ | ⟨-, hmirrors⟩
      · rw [hmoves.1] at hmoved
        cases hmoved
      · exact hmirrors.trans (ih (e.apply b) hrest hmoves.2)

theorem handles_eq (b : Body) : b.handles = b.entries.map Prod.fst := by
  rw [handles, ← List.forall₂_eq_eq_eq, List.forall₂_map_left_iff, List.forall₂_map_right_iff]
  exact b.forall₂_entries.imp fun _ _ he => he.1.symm

theorem Mirrors.handles (hb : b.Mirrors f b') : b'.handles = b.handles.map f := by
  rw [handles_eq, handles_eq, List.map_map]
  exact map_eq_of_forall₂ (hb.entries.imp fun _ _ he => he.1)

theorem Mirrors.findByOffset (hb : b.Mirrors f b') (offset : Nat) :
    b'.findByOffset offset = (b.findByOffset offset).map f := by
  rw [Body.findByOffset, Body.findByOffset, hb.find?_offset, checkFresh, checkFresh, hb.shifted]
  cases b.shifted with
  | true => rfl
  | false => cases b.find? fun i => i.offset == some offset <;> rfl

/-- Every look-up by offset fails, and a descriptor with a site at an offset is not applied. -/
structure RefusesOffsets (b : Body) : Prop where
  findByOffset : ∀ offset, b.findByOffset offset = .error .staleOffsets
  locateOffsets : ∀ offsets, b.locateOffsets offsets = .error .staleOffsets
  resolve : ∀ d : Descriptor, d.offsets ≠ [] → d.resolve b = .error .staleOffsets
  apply : ∀ (d : Descriptor) (m : Module) (place : Module.MethodPlace), d.offsets ≠ [] →
    d.validate = .ok () → m.patchedBody d.typeName d.methodName = .ok (place, b) →
    d.apply m = (.error .staleOffsets, m)

theorem refusesOffsets_of_shifted (hb : b.shifted = true) : b.RefusesOffsets := by
  have hfresh : b.checkFresh = .error .staleOffsets := by rw [checkFresh, if_pos hb]
  have hresolve : ∀ d : Descriptor, d.offsets ≠ [] → d.resolve b = .error .staleOffsets := by
    intro d hd
    have hsome : (!d.offsets.isEmpty) = true ∧ b.shifted = true := by
      rw [Bool.not_eq_true', List.isEmpty_eq_false_iff]
      exact ⟨hd, hb⟩
    have hlocate : d.locate b = .error .staleOffsets := by rw [Descriptor.locate, if_pos hsome]
    rw [Descriptor.resolve, Descriptor.findings, hlocate]
    rfl
  refine ⟨fun _ => ?_, fun _ => ?_, hresolve, fun d m place hd hvalid hbody => ?_⟩
  · rw [Body.findByOffset, hfresh]
    rfl
  · rw [Body.locateOffsets, hfresh]
    rfl
  · exact Descriptor.apply_of_resolve_eq_error hvalid hbody (hresolve d hd)

theorem findByOffset_of_unshifted (hb : b.shifted = false) (offset : Nat) :
    b.findByOffset offset =
      match b.entries.find? fun e => e.2.offset == some offset with
      | some e => .ok e.1
      | none => .error (.offsetNotFound offset) := by
  have hfresh : b.checkFresh = .ok () := by
    rw [checkFresh, hb]
    rfl
  rw [findByOffset, hfresh, find?]
  cases b.entries.find? fun e => e.2.offset == some offset <;> rfl

variable {id : BodyId} {header : Header} {codeSize : Nat} {raws : List RawInstruction}
  {raw : RawInstruction} {p : Nat}

theorem ReadFrom.handles_eq (hb : ReadFrom id header codeSize raws b) :
    b.handles = (List.range raws.length).map (Handle.mk id) := by
  rw [handles, hb.order, Array.toList_range]
  refine List.map_congr_left fun n _ => ?_
  rw [handle, hb.identity]

theorem ReadFrom.findByOffset_eq_ok (hb : ReadFrom id header codeSize raws b)
    (hraws : Stream.Regular 0 raws) (hraw : raws[p]? = some raw) :
    b.findByOffset raw.offset = .ok ⟨id, p⟩ := by
  have hp : p < b.entries.length := by
    rw [← hb.entries.length_eq]
    exact (List.getElem?_eq_some_iff.mp hraw).1
  rw [findByOffset_of_unshifted hb.unshifted]
  split
  · rename_i e hfound
    obtain ⟨q, he⟩ := List.mem_iff_getElem?.mp (List.mem_of_find?_eq_some hfound)
    obtain ⟨hhandle, raw', hraw', hoffset⟩ := hb.of_getElem?_entries he
    have hfirst := List.find?_some hfound
    rw [hoffset, beq_iff_eq, Option.some_inj] at hfirst
    rw [hhandle, hraws.eq_of_offset_eq hraw' hraw hfirst]
  · rename_i hfound
    obtain ⟨-, raw', hraw', hoffset⟩ := hb.of_getElem?_entries (List.getElem?_eq_getElem hp)
    rw [hraw] at hraw'
    cases hraw'
    refine absurd ?_ (List.find?_eq_none.mp hfound _ (List.getElem_mem hp))
    rw [hoffset, beq_self_eq_true]

theorem ReadFrom.findByOffset_eq_error (hb : ReadFrom id header codeSize raws b) {offset : Nat}
    (hnone : ∀ raw ∈ raws, raw.offset ≠ offset) :
    b.findByOffset offset = .error (.offsetNotFound offset) := by
  rw [findByOffset_of_unshifted hb.unshifted]
  split
  · rename_i e hfound
    obtain ⟨q, he⟩ := List.mem_iff_getElem?.mp (List.mem_of_find?_eq_some hfound)
    obtain ⟨-, raw, hraw, hoffset⟩ := hb.of_getElem?_entries he
    have hfirst := List.find?_some hfound
    rw [hoffset, beq_iff_eq, Option.some_inj] at hfirst
    exact absurd hfirst (hnone raw (List.mem_of_getElem? hraw))
  · rfl

end Body

/-- What a run of edits leaves of the offsets that the instructions were decoded from. -/
structure Body.OffsetsKept (b : Body) (id : BodyId) (raws : List RawInstruction)
    (edits : List Edit) : Prop where
  shifted : (b.edited edits).shifted = moves b edits
  lasting : ∀ more : List Edit, (∀ e ∈ more, e.Unrecorded) → (b.edited edits).shifted = true →
    (b.edited (edits ++ more)).shifted = true
  handles : (b.edited edits).shifted = false →
    (b.edited edits).handles = (List.range raws.length).map (Handle.mk id)
  found : (b.edited edits).shifted = false → ∀ (p : Nat) (raw : RawInstruction),
    raws[p]? = some raw → (b.edited edits).findByOffset raw.offset = .ok ⟨id, p⟩
  missing : (b.edited edits).shifted = false → ∀ offset, (∀ raw ∈ raws, raw.offset ≠ offset) →
    (b.edited edits).findByOffset offset = .error (.offsetNotFound offset)
  refused : (b.edited edits).shifted = true → (b.edited edits).RefusesOffsets

/-- A decoded body finds by an offset the instruction that was decoded there, until the first edit
that moves code; from then on every look-up by offset is refused. -/
theorem Body.offsetsKept_of_decode {id : BodyId} {data : Bytes} {b : Body} {edits : List Edit}
    (h : decode id data = .ok b) (hnew : ∀ e ∈ edits, e.Unrecorded) :
    ∃ header code raws, Header.parse data = .ok header ∧ header.code data = .ok code ∧
      Stream.decode code = .ok raws ∧ b.OffsetsKept id raws edits := by
  obtain ⟨header, code, raws, hheader, hcode, hstream, hb⟩ := readFrom_of_decode h
  have hraws := Stream.regular_decode hstream
  have hshifted : (b.edited edits).shifted = moves b edits := by
    rw [shifted_edited b hnew, hb.unshifted, Bool.false_or]
  have hmirrors : (b.edited edits).shifted = false → b.Mirrors (fun t => t) (b.edited edits) :=
    fun hfresh => mirrors_edited b hnew (hshifted.symm.trans hfresh)
  refine ⟨header, code, raws, hheader, hcode, hstream, hshifted, ?_, ?_, ?_, ?_, ?_⟩
  · intro more hmore hstale
    rw [edited_append, shifted_edited _ hmore, hstale, Bool.true_or]
  · intro hfresh
    rw [(hmirrors hfresh).handles, hb.handles_eq, List.map_id']
  · intro hfresh p raw hraw
    rw [(hmirrors hfresh).findByOffset, hb.findByOffset_eq_ok hraws hraw]
    rfl
  · intro hfresh offset hnone
    rw [(hmirrors hfresh).findByOffset, hb.findByOffset_eq_error hnone]
    rfl
  · exact fun hstale => refusesOffsets_of_shifted hstale

/-- A replacement of the same size, and then an instruction more. -/
theorem Body.offsetsKept_return : ∃ b, decode ⟨0, 0⟩ [6, 42] = .ok b ∧
    ∃ header code raws, Header.parse [6, 42] = .ok header ∧ header.code [6, 42] = .ok code ∧
      Stream.decode code = .ok raws ∧
      b.OffsetsKept ⟨0, 0⟩ raws [.replace ⟨⟨0, 0⟩, 0⟩ ⟨.nop, .none, none⟩,
        .push ⟨.ret, .none, none⟩] := by
  obtain ⟨b, hb⟩ := decode_return
  refine ⟨b, hb, offsetsKept_of_decode hb ?_⟩
  intro e he
  rcases List.mem_pair.mp he with rfl | rfl
  · exact trivial
  · rfl

end CilEdit

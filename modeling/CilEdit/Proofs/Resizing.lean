import CilEdit.Proofs.Resolving

namespace CilEdit

/-- The module after descriptors one after another, those that are refused included. -/
def Module.patchedBy (m : Module) (ds : List Descriptor) : Module :=
  ds.foldl (fun m d => (d.apply m).2) m

namespace Operand

variable {x y : Operand Handle} {opcode : Opcode}

/-- Operands that are not switch tables have the size that the opcode tells. -/
theorem size_cases (x : Operand Handle) (opcode : Opcode) :
    (∃ ts, x = .switch ts) ∨ x.size opcode = opcode.operand.size?.getD 0 := by
  cases x with
  | switch ts => exact .inl ⟨ts, rfl⟩
  | none | immediate v | token t | target t => exact .inr rfl

theorem exists_switch (h : x.hasShape .switch = true) : ∃ ts, x = .switch ts := by
  cases x with
  | switch ts => exact ⟨ts, rfl⟩
  | none | token t | target t => cases h
  | immediate v => cases v <;> cases h

/-- Operands of one opcode that have no targets have the same size. -/
theorem size_of_targets (hx : x.hasShape opcode.operand = true)
    (hy : y.hasShape opcode.operand = true) (hxs : x.targets = []) (hys : y.targets = []) :
    x.size opcode = y.size opcode := by
  by_cases hkind : opcode.operand = .switch
  · rw [hkind] at hx hy
    obtain ⟨ts, rfl⟩ := exists_switch hx
    obtain ⟨us, rfl⟩ := exists_switch hy
    obtain rfl : ts = [] := hxs
    obtain rfl : us = [] := hys
    rfl
  · exact Body.size_of_shape hkind hx hy

end Operand

namespace Descriptor

variable {d : Descriptor} {b b' : Body} {handles : List Handle} {h : Handle} {s : Site}
  {i j : Instruction Handle} {edits made : List (Site × Handle × Instruction Handle)}

/-- What applying a descriptor to a body does to the sizes of instructions, and so to the offsets. -/
structure Resizes (d : Descriptor) (b : Body) (handles : List Handle) (b' : Body) : Prop where
  replaces : d.Replaces b handles b'
  shifted : b'.shifted = true ↔
    b.shifted = true ∨ ∃ h i j, b.get? h = some i ∧ b'.get? h = some j ∧ j.size ≠ i.size
  /-- Only switch tables are of different sizes. -/
  resized : ∀ h i j, b.get? h = some i → b'.get? h = some j → j.size ≠ i.size →
    h ∈ d.replacedAt handles ∧ (i.opcode = .switch ∨ ∃ ts, i.operand = .switch ts)
  /-- Where operands suit their opcodes, a size changes exactly if a table that has entries is
  replaced. -/
  emptied : (∀ e ∈ b.entries, e.2.operand.hasShape e.2.opcode.operand = true) →
    ∀ h i j, b.get? h = some i → b'.get? h = some j →
      (j.size ≠ i.size ↔ h ∈ d.replacedAt handles ∧ ∃ ts, ts ≠ [] ∧ i.operand = .switch ts)
  kept : d.Switchless →
    (∀ e ∈ b.entries, e.2.operand.hasShape e.2.opcode.operand = true) →
    b'.shifted = b.shifted ∧ ∀ h i j, b.get? h = some i → b'.get? h = some j → j.size = i.size

/-- Some replacement of a run is of another size than the instruction that it is for. -/
def Moves (b : Body) (made : List (Site × Handle × Instruction Handle)) : Prop :=
  ∃ e ∈ made, ∃ i, b.get? e.2.1 = some i ∧ e.2.2.size ≠ i.size

/-- The replacements made so far, with what they have done to the body and to its flag. -/
structure Marks (d : Descriptor) (b : Body) (handles : List Handle)
    (made : List (Site × Handle × Instruction Handle)) (b' : Body) : Prop where
  mem : ∀ e ∈ made, e ∈ d.replacements handles
  overwritten : Body.Overwritten made b b'
  shifted : b'.shifted = true ↔ b.shifted = true ∨ Moves b made

theorem marks_nil (d : Descriptor) (b : Body) (handles : List Handle) : d.Marks b handles [] b where
  mem _ he := (List.not_mem_nil he).elim
  overwritten := Body.overwritten_nil b
  shifted := (or_iff_left fun ⟨_, he, _⟩ => List.not_mem_nil he).symm

section

variable (hvalid : d.validate = .ok ()) (hresolve : d.resolve b = .ok handles)

include hvalid hresolve

/-- A replacement has the opcode of the instruction that it is for, and suits it. -/
theorem exists_get?_of_replacement {e : Site × Handle × Instruction Handle}
    (he : e ∈ d.replacements handles) : ∃ i, b.get? e.2.1 = some i ∧ i.opcode = e.2.2.opcode ∧
      e.2.2.operand.hasShape e.2.2.opcode.operand = true ∧ e.2.2.operand.targets = [] := by
  obtain ⟨hzip, operand, hoperand, hmake⟩ := mem_replacements.mp he
  obtain ⟨i, hi, -, hopcode⟩ := exists_get?_of_resolve hresolve hzip
  obtain ⟨htargets, hfits⟩ := replacement_spec hvalid (List.of_mem_zip hzip).1 hoperand
  rw [hmake]
  exact ⟨i, hi, hopcode, Operand.hasShape_of_fits hfits, htargets⟩

/-- All replacements at an instruction leave it with the same size. -/
theorem size_eq_of_replacements {e f : Site × Handle × Instruction Handle}
    (he : e ∈ d.replacements handles) (hf : f ∈ d.replacements handles) (heq : e.2.1 = f.2.1) :
    e.2.2.size = f.2.2.size := by
  obtain ⟨i, hi, hopcode, hshape, htargets⟩ := exists_get?_of_replacement hvalid hresolve he
  obtain ⟨j, hj, hopcode', hshape', htargets'⟩ := exists_get?_of_replacement hvalid hresolve hf
  rw [← heq, hi] at hj
  cases hj
  rw [← hopcode'] at hshape'
  rw [← hopcode] at hshape
  rw [Instruction.size, Instruction.size, ← hopcode, ← hopcode',
    Operand.size_of_targets hshape hshape' htargets htargets']

theorem size_rewritten (hmade : ∀ f ∈ made, f ∈ d.replacements handles)
    {e : Site × Handle × Instruction Handle} (he : e ∈ made) (i : Instruction Handle) :
    (rewritten e.2.1 made i).size = e.2.2.size := by
  rcases rewritten_cases e.2.1 made i with ⟨hne, -⟩ | ⟨f, hf, hat, heq⟩
  · exact absurd rfl (hne e he)
  · rw [heq]
    exact size_eq_of_replacements hvalid hresolve (hmade f hf) (hmade e he) hat

/-- A replacement more moves code if it changes the size of what is there by now. -/
theorem moves_concat_iff (hmade : ∀ f ∈ made, f ∈ d.replacements handles)
    {e : Site × Handle × Instruction Handle} (he : e ∈ d.replacements handles)
    (hi : b.get? e.2.1 = some i) : Moves b (made ++ [e]) ↔
      Moves b made ∨ e.2.2.size ≠ (rewritten e.2.1 made i).size := by
  rcases rewritten_cases e.2.1 made i with ⟨-, heq⟩ | ⟨f, hf, hat, -⟩
  · rw [heq]
    constructor
    · rintro ⟨f, hf, j, hj, hsize⟩
      rcases List.mem_append.mp hf with hf | hf
      · exact .inl ⟨f, hf, j, hj, hsize⟩
      · obtain rfl := List.mem_singleton.mp hf
        rw [hi] at hj
        cases hj
        exact .inr hsize
    · rintro (⟨f, hf, hmoved⟩ | hsize)
      · exact ⟨f, List.mem_append_left _ hf, hmoved⟩
      · exact ⟨e, List.mem_append_right _ List.mem_cons_self, i, hi, hsize⟩
  · -- A replacement before this one has left the size that this one leaves.
    have hsame := size_eq_of_replacements hvalid hresolve he (hmade f hf) hat.symm
    have hsize : e.2.2.size = (rewritten e.2.1 made i).size := by
      rw [← hat, size_rewritten hvalid hresolve hmade hf, hsame]
    rw [or_iff_left (not_not.mpr hsize)]
    constructor
    · rintro ⟨g, hg, hmoved⟩
      rcases List.mem_append.mp hg with hg | hg
      · exact ⟨g, hg, hmoved⟩
      · obtain rfl := List.mem_singleton.mp hg
        exact ⟨f, hf, by rwa [hat, ← hsame]⟩
    · rintro ⟨g, hg, hmoved⟩
      exact ⟨g, List.mem_append_left _ hg, hmoved⟩

theorem Marks.exists_replace (hb : d.Marks b handles made b')
    {e : Site × Handle × Instruction Handle} (he : e ∈ d.replacements handles) :
    ∃ b'', Body.replace e.2.1 e.2.2 b' = (.ok (), b'') ∧ d.Marks b handles (made ++ [e]) b'' := by
  obtain ⟨i, hi, -, -, htargets⟩ := exists_get?_of_replacement hvalid hresolve he
  have hget : b'.get? e.2.1 = some (rewritten e.2.1 made i) := by
    rw [hb.overwritten.instructions, hi, Option.map_some]
  rcases Body.replace_cases e.2.1 e.2.2 b' with ⟨old, hold, -, heq⟩ | ⟨e', -, herror | ⟨-, herror⟩⟩
  · rw [Body.instruction_eq_ok_iff_get?, hget] at hold
    cases hold
    refine ⟨_, heq, List.forall_mem_append.mpr ⟨hb.mem, List.forall_mem_singleton.mpr he⟩, ?_, ?_⟩
    · exact hb.overwritten.append
        (Body.overwritten_overwrite e.1 e.2.2 (Body.contains_of_get? hget) _)
    · rw [moves_concat_iff hvalid hresolve hb.mem he hi, ← or_assoc, ← hb.shifted]
      simp only [Bool.or_eq_true, bne_iff_ne]
  · rw [Body.instruction_eq_ok_iff_get?.mpr hget] at herror
    cases herror
  · rw [Body.checkTargets, htargets] at herror
    cases herror

theorem marks_of_replaceAll (hrun : replaceAll (d.replacements handles) b = (.ok (), b')) :
    d.Marks b handles (d.replacements handles) b' := by
  obtain ⟨b'', hrun', hb''⟩ := replaceAll_induction (P := d.Marks b handles)
    (fun _ _ _ he hb' => hb'.exists_replace hvalid hresolve he) [] (marks_nil d b handles)
  rw [hrun] at hrun'
  cases hrun'
  exact hb''

/-- An instruction is as it was, or it has the size of a replacement that is for it. -/
theorem Marks.size_cases (hb : d.Marks b handles (d.replacements handles) b')
    (hi : b.get? h = some i) (hj : b'.get? h = some j) :
    j = i ∨ ∃ e ∈ d.replacements handles, e.2.1 = h ∧ j.size = e.2.2.size := by
  rw [hb.overwritten.instructions, hi, Option.map_some, Option.some_inj] at hj
  subst hj
  rcases rewritten_cases h (d.replacements handles) i with ⟨-, heq⟩ | ⟨e, he, rfl, -⟩
  · exact .inl heq
  · exact .inr ⟨e, he, rfl, size_rewritten hvalid hresolve hb.mem he i⟩

theorem Marks.moves_iff (hb : d.Marks b handles (d.replacements handles) b') :
    Moves b (d.replacements handles) ↔
      ∃ h i j, b.get? h = some i ∧ b'.get? h = some j ∧ j.size ≠ i.size := by
  constructor
  · rintro ⟨e, he, i, hi, hsize⟩
    refine ⟨e.2.1, i, rewritten e.2.1 (d.replacements handles) i, hi, ?_, ?_⟩
    · rw [hb.overwritten.instructions, hi, Option.map_some]
    · rwa [size_rewritten hvalid hresolve hb.mem he]
  · rintro ⟨h, i, j, hi, hj, hsize⟩
    rcases hb.size_cases hvalid hresolve hi hj with rfl | ⟨e, he, rfl, hsame⟩
    · exact absurd rfl hsize
    · exact ⟨e, he, i, hi, hsame ▸ hsize⟩

theorem Marks.resized (hb : d.Marks b handles (d.replacements handles) b')
    (hi : b.get? h = some i) (hj : b'.get? h = some j) (hsize : j.size ≠ i.size) :
    h ∈ d.replacedAt handles ∧ (i.opcode = .switch ∨ ∃ ts, i.operand = .switch ts) := by
  rcases hb.size_cases hvalid hresolve hi hj with rfl | ⟨e, he, rfl, hsame⟩
  · exact absurd rfl hsize
  · refine ⟨List.mem_map_of_mem he, ?_⟩
    obtain ⟨i', hi', hopcode, hshape, -⟩ := exists_get?_of_replacement hvalid hresolve he
    rw [hi] at hi'
    cases hi'
    rw [hsame, Instruction.size, Instruction.size, hopcode] at hsize
    rcases e.2.2.operand.size_cases e.2.2.opcode with ⟨ts, hts⟩ | hnew
    · rw [hts, Operand.hasShape_switch_iff, ← hopcode] at hshape
      exact .inl (by_contra fun hne => operand_ne_switch hne hshape)
    · rcases i.operand.size_cases e.2.2.opcode with hold | hold
      · exact .inr hold
      · rw [hnew, hold] at hsize
        exact absurd rfl hsize

theorem Marks.resized_iff (hb : d.Marks b handles (d.replacements handles) b')
    (hshaped : ∀ e ∈ b.entries, e.2.operand.hasShape e.2.opcode.operand = true)
    (hi : b.get? h = some i) (hj : b'.get? h = some j) :
    j.size ≠ i.size ↔ h ∈ d.replacedAt handles ∧ ∃ ts, ts ≠ [] ∧ i.operand = .switch ts := by
  have hshape := Body.shape_of_instruction hshaped (Body.instruction_eq_ok_iff_get?.mpr hi)
  have hreplaced : ∀ e ∈ d.replacements handles, e.2.1 = h → e.2.2.opcode = i.opcode ∧
      e.2.2.operand.hasShape i.opcode.operand = true ∧ e.2.2.operand.targets = [] := by
    rintro e he rfl
    obtain ⟨i', hi', hopcode, hshape, htargets⟩ := exists_get?_of_replacement hvalid hresolve he
    rw [hi] at hi'
    cases hi'
    exact ⟨hopcode.symm, hopcode ▸ hshape, htargets⟩
  constructor
  · intro hsize
    obtain ⟨hmem, -⟩ := hb.resized hvalid hresolve hi hj hsize
    refine ⟨hmem, ?_⟩
    rcases hb.size_cases hvalid hresolve hi hj with rfl | ⟨e, he, hat, hsame⟩
    · exact absurd rfl hsize
    · obtain ⟨hopcode, hnew, htargets⟩ := hreplaced e he hat
      rw [hsame, Instruction.size, Instruction.size, hopcode] at hsize
      by_cases hkind : i.opcode.operand = .switch
      · obtain ⟨ts, hts⟩ := Operand.exists_switch (hkind ▸ hshape)
        refine ⟨ts, ?_, hts⟩
        rintro rfl
        exact hsize (congrArg _ (Operand.size_of_targets hnew hshape htargets (by rw [hts]; rfl)))
      · exact absurd (congrArg _ (Body.size_of_shape hkind hnew hshape)) hsize
  · rintro ⟨hmem, ts, hts, htable⟩ hsize
    obtain ⟨e, he, hat⟩ := List.mem_map.mp hmem
    obtain ⟨hopcode, hnew, htargets⟩ := hreplaced e he hat
    have hkind : i.opcode.operand = .switch := by
      rwa [htable, Operand.hasShape_switch_iff] at hshape
    obtain ⟨us, hus⟩ := Operand.exists_switch (hkind ▸ hnew)
    rw [hus] at htargets
    obtain rfl : us = [] := htargets
    rw [hb.overwritten.instructions, hi, Option.map_some, Option.some_inj, ← hat] at hj
    rw [← hj, size_rewritten hvalid hresolve hb.mem he, Instruction.size, Instruction.size, hopcode,
      hus, htable, Nat.add_left_cancel_iff] at hsize
    simp only [Operand.size, List.length_nil, Nat.mul_zero, Nat.add_zero] at hsize
    exact hts (List.length_eq_zero_iff.mp (by omega))

/-- A descriptor without switch tables keeps all sizes. -/
theorem Marks.kept (hb : d.Marks b handles (d.replacements handles) b') (hd : d.Switchless)
    (hshaped : ∀ e ∈ b.entries, e.2.operand.hasShape e.2.opcode.operand = true)
    (hi : b.get? h = some i) (hj : b'.get? h = some j) : j.size = i.size := by
  by_contra hsize
  obtain ⟨hmem, ts, -, htable⟩ := (hb.resized_iff hvalid hresolve hshaped hi hj).mp hsize
  obtain ⟨e, he, rfl⟩ := List.mem_map.mp hmem
  obtain ⟨hzip, operand, hoperand, hmake⟩ := mem_replacements.mp he
  obtain ⟨i', hi', hopcode, -⟩ := exists_get?_of_replacement hvalid hresolve he
  rw [hi] at hi'
  cases hi'
  have hshape := Body.shape_of_instruction hshaped (Body.instruction_eq_ok_iff_get?.mpr hi)
  rw [htable, Operand.hasShape_switch_iff, hopcode, hmake] at hshape
  exact operand_ne_switch (hd e.1 (List.of_mem_zip hzip).1 (by rw [hoperand]; rfl)) hshape

theorem resizes_of_replaceAll (hrun : replaceAll (d.replacements handles) b = (.ok (), b')) :
    d.Resizes b handles b' := by
  have hb := marks_of_replaceAll hvalid hresolve hrun
  refine ⟨replaces_of_overwritten hvalid hresolve hb.overwritten, ?_, ?_, ?_, ?_⟩
  · rw [hb.shifted, hb.moves_iff hvalid hresolve]
  · exact fun h i j hi hj => hb.resized hvalid hresolve hi hj
  · exact fun hshaped h i j hi hj => hb.resized_iff hvalid hresolve hshaped hi hj
  · intro hd hshaped
    have hsizes := fun h i j hi hj =>
      hb.kept hvalid hresolve (h := h) (i := i) (j := j) hd hshaped hi hj
    refine ⟨Bool.eq_iff_iff.mpr (hb.shifted.trans (or_iff_left ?_)), hsizes⟩
    rw [hb.moves_iff hvalid hresolve]
    rintro ⟨h, i, j, hi, hj, hne⟩
    exact hne (hsizes h i j hi hj)

theorem fresh_of_replaceAll (hb : b.Fresh) (hd : d.Switchless)
    (hrun : replaceAll (d.replacements handles) b = (.ok (), b')) : b'.Fresh := by
  obtain ⟨b'', hrun', hfresh, -⟩ :=
    exists_rewrites hb hvalid hd hresolve (edits_of_validate hvalid handles)
  rw [hrun] at hrun'
  cases hrun'
  exact hfresh

end

end Descriptor

namespace Module

variable {m : Module} {place : MethodPlace} {x : MethodDef} {b : Body}

/-- All bodies are as they are loaded. -/
def AllFresh (m : Module) : Prop :=
  ∀ t ∈ m.types, ∀ x ∈ t.methods, ∀ b, x.body = some b → b.Fresh

theorem allFresh_of_load {origin : Nat} {data : Bytes} (h : load origin data = .ok m) :
    m.AllFresh := fun _ ht _ hx _ hb =>
  (Image.loaded_of_read (read_of_load h)).fresh ht hx hb

theorem AllFresh.modifyMethod (hm : m.AllFresh) (hb : b.Fresh) (place : MethodPlace) :
    (m.modifyMethod place fun x => x.withBody b).AllFresh := by
  refine forall_mem_modify hm fun t ht => forall_mem_modify ht ?_
  rintro x - _ ⟨⟩
  exact hb

theorem AllFresh.fresh (hm : m.AllFresh) (hx : m.methodAt? place = some x)
    (hb : x.body = some b) : b.Fresh := by
  obtain ⟨t, ht, hxt⟩ := methodAt?_eq_some_iff.mp hx
  exact hm t (List.mem_of_getElem? ht) x (List.mem_of_getElem? hxt) b hb

theorem patchedBody_ne_staleOffsets (m : Module) (typeName methodName : String) :
    m.patchedBody typeName methodName ≠ .error .staleOffsets := by
  have hplace : m.placeMethod typeName ⟨methodName, none⟩ ≠ .error .staleOffsets := by
    intro h
    rcases bind_eq_error.mp h with h | ⟨t, -, h⟩
    · rw [findType] at h
      split at h <;> cases h
    · rcases bind_eq_error.mp h with h | ⟨index, -, h⟩
      · rw [typeIndex] at h
        split at h <;> cases h
      · rcases bind_eq_error.mp h with h | ⟨method, -, h⟩
        · rw [TypeDef.methodIndex] at h
          split at h <;> cases h
        · cases h
  intro h
  rcases bind_eq_error.mp h with h | ⟨place, -, h⟩
  · exact hplace h
  · split at h <;> cases h

end Module

namespace Descriptor

variable {d : Descriptor} {m m' : Module} {o : Outcome} {ds : List Descriptor}

theorem validate_ne_staleOffsets (d : Descriptor) : d.validate ≠ .error .staleOffsets := by
  intro h
  rw [validate] at h
  split at h <;> cases h

/-- What an application has gone through. -/
theorem exists_of_apply_eq_ok (h : d.apply m = (.ok o, m')) : ∃ place x b b' handles,
    d.validate = .ok () ∧ m.Finds d.typeName d.methodName place x ∧ x.body = some b ∧
      d.resolve b = .ok handles ∧ replaceAll (d.replacements handles) b = (.ok (), b') ∧
      m' = m.modifyMethod place fun x => x.withBody b' := by
  obtain ⟨place, b, edits, b', hplan, hrun, hm'⟩ := apply_eq_ok h
  obtain ⟨hvalid, hbody, handles, hresolve, hedits⟩ := plan_eq_ok hplan
  obtain ⟨x, hfinds, hx⟩ := Module.patchedBody_eq_ok_iff.mp hbody
  obtain rfl := eq_replacements hvalid hedits
  exact ⟨place, x, b, b', handles, hvalid, hfinds, hx, hresolve, hrun, hm'⟩

theorem allFresh_apply (hm : m.AllFresh) (hd : d.Switchless) : (d.apply m).2.AllFresh := by
  cases h : d.apply m with
  | mk answer m' =>
      cases answer with
      | error e =>
          obtain ⟨rfl, -⟩ := apply_eq_error h
          exact hm
      | ok o =>
          obtain ⟨place, x, b, b', handles, hvalid, hfinds, hx, hresolve, hrun, rfl⟩ :=
            exists_of_apply_eq_ok h
          have hfresh := hm.fresh hfinds.found hx
          exact hm.modifyMethod (fresh_of_replaceAll hvalid hresolve hfresh hd hrun) place

theorem allFresh_patchedBy (hm : m.AllFresh) (hds : ∀ d ∈ ds, d.Switchless) :
    (m.patchedBy ds).AllFresh := by
  induction ds generalizing m with
  | nil => exact hm
  | cons d ds ih =>
      obtain ⟨hd, hrest⟩ := List.forall_mem_cons.mp hds
      exact ih (allFresh_apply hm hd) hrest

/-- Offsets are not stale in a module whose bodies are as loaded. -/
theorem apply_ne_staleOffsets (hm : m.AllFresh) (d : Descriptor) (m' : Module) :
    d.apply m ≠ (.error .staleOffsets, m') := by
  intro h
  obtain ⟨-, hrefuses⟩ := apply_eq_error h
  cases hrefuses with
  | descriptor h => exact d.validate_ne_staleOffsets h
  | method _ h => exact m.patchedBody_ne_staleOffsets _ _ h
  | sites hvalid hbody h =>
      obtain ⟨x, hfinds, hx⟩ := Module.patchedBody_eq_ok_iff.mp hbody
      have hfresh := hm.fresh hfinds.found hx
      exact not_stale_of_unshifted hfresh.unshifted ((classified_of_fresh hvalid hfresh).stale.mp h)

/-- What a descriptor does to the sizes of the instructions, and what those before it leave of the
offsets that it may use. -/
structure KeepsOffsets (d : Descriptor) : Prop where
  resizes : ∀ m o m', d.apply m = (.ok o, m') → ∃ place x b b' handles,
    m.Finds d.typeName d.methodName place x ∧ x.body = some b ∧
      m' = (m.modifyMethod place fun x => x.withBody b') ∧ d.Resizes b handles b'
  lasting : ∀ origin data m ds, Module.load origin data = .ok m →
    (∀ e ∈ ds, Switchless e) →
    (∀ place x b, (m.patchedBy ds).methodAt? place = some x → x.body = some b →
      b.shifted = false) ∧
    ∀ m', d.apply (m.patchedBy ds) ≠ (.error .staleOffsets, m')

/-- A descriptor that is applied changes sizes, and leaves offsets stale, only where it empties a
switch table. After descriptors without switch tables offsets can be used. -/
theorem keepsOffsets (d : Descriptor) : d.KeepsOffsets where
  resizes m o m' h := by
    obtain ⟨place, x, b, b', handles, hvalid, hfinds, hx, hresolve, hrun, hm'⟩ :=
      exists_of_apply_eq_ok h
    exact ⟨place, x, b, b', handles, hfinds, hx, hm', resizes_of_replaceAll hvalid hresolve hrun⟩
  lasting origin data m ds hload hds := by
    have hfresh := allFresh_patchedBy (Module.allFresh_of_load hload) hds
    exact ⟨fun place x b hx hb => (hfresh.fresh hx hb).unshifted, apply_ne_staleOffsets hfresh d⟩

/-- After a method was made to return 7, what it returns is still found by its offset. -/
theorem keepsOffsets_returnSeven : ∃ m o m', Module.load 0 (imageReturning 5) = .ok m ∧
    returnSeven.apply m = (.ok o, m') ∧ (∃ place x b b' handles, m.Finds "T" "f" place x ∧
      x.body = some b ∧ m' = (m.modifyMethod place fun x => x.withBody b') ∧
      returnSeven.Resizes b handles b') ∧
    ∀ m'', returnSeven.apply (m.patchedBy [returnSeven]) ≠ (.error .staleOffsets, m'') := by
  have hrun : (Module.load 0 (imageReturning 5) >>= fun m => (returnSeven.apply m).1)
      = .ok ⟨"return-seven", "T::f", 1, 0⟩ := by
    decide +kernel
  obtain ⟨m, hload, happly⟩ := bind_eq_ok.mp hrun
  have hswitchless : ∀ e ∈ [returnSeven], Switchless e := by
    refine List.forall_mem_singleton.mpr fun s hs _ => ?_
    rw [List.mem_singleton.mp hs]
    nofun
  have happly' := Prod.ext happly (y := (_, (returnSeven.apply m).2)) rfl
  exact ⟨m, _, _, hload, happly', (keepsOffsets returnSeven).resizes m _ _ happly',
    ((keepsOffsets returnSeven).lasting 0 _ m _ hload hswitchless).2⟩

end Descriptor

/-- Code with a switch table of one entry. -/
def jumping : Listing where
  code := [⟨.ldcI40, .none, none⟩, ⟨.switch, .switch [2], none⟩, ⟨.ret, .none, none⟩]
  handlers := []
  maxStack := 8
  locals := .null
  initLocals := false

/-- The stored form of the code. -/
def jumpingBytes : Bytes :=
  [0x2E, 0x16, 0x45, 1, 0, 0, 0, 0, 0, 0, 0, 0x2A]

/-- A module of one type with one method. -/
def jumpingModule : Module :=
  { Module.empty "M" with
    types := [⟨.ofParts Token.typeDef 1, 0, "T", [],
      [⟨.ofParts Token.methodDef 1, .ofBits 0x10, "f", .ofStatic [] "System.Void",
        some (.ofListing ⟨0, 1⟩ jumping), some jumpingBytes⟩]⟩] }

theorem exists_load_jumpingModule : ∃ data, Module.load 0 data = .ok jumpingModule := by
  have hdecode : Body.decode ⟨0, 1⟩ jumpingBytes = .ok (.ofListing ⟨0, 1⟩ jumping) := by
    have hparse : Header.parse jumpingBytes = .ok ⟨1, 11, 8, .null, false, false, []⟩ := by
      decide +kernel
    have hraws : Stream.decode (jumpingBytes.drop 1) = .ok (Layout.raws jumping.code) := by
      decide +kernel
    have hlinked : jumping.Linked := ⟨by decide +kernel, fun _ h => (List.not_mem_nil h).elim⟩
    exact Body.decode_eq_ofListing hlinked hparse rfl hraws rfl ⟨rfl, rfl, rfl, rfl⟩ _
  have hmethods : ∀ t ∈ jumpingModule.types, ∀ x ∈ t.methods, x.Loaded 0 ∧ x.WellFormed :=
    List.forall_mem_singleton.mpr (List.forall_mem_singleton.mpr
      (MethodDef.loaded_of_decode (Token.table_ofParts (by decide)) (by decide) rfl rfl hdecode))
  have hfields : ∀ t ∈ jumpingModule.types, t.fields = [] := List.forall_mem_singleton.mpr rfl
  have hloaded : jumpingModule.Loaded 0 := ⟨by decide, by decide, fun t ht =>
    ⟨by rw [hfields t ht]; nofun, fun x hx => (hmethods t ht x hx).1⟩⟩
  have hwellFormed : jumpingModule.WellFormed := ⟨rfl, rfl, rfl, fun t ht =>
    ⟨by rw [hfields t ht]; nofun, fun x hx => (hmethods t ht x hx).2⟩, nofun⟩
  obtain ⟨data, hdata⟩ : ∃ data, jumpingModule.toBytes = .ok data :=
    exists_of_isOk (by decide +kernel)
  exact ⟨data, (Module.load_of_write hdata 0).trans (hloaded.read_eq hwellFormed nofun hdata)⟩

/-- The descriptor that leaves the method without entries to jump to. -/
def clearTable : Descriptor where
  name := "clear"
  description := "clear"
  typeName := "T"
  methodName := "f"
  sites := [⟨.offset 1, .ofOpcode .switch, .replace (.switch [])⟩]

/-- The descriptor that looks for the return at its offset. -/
def guardReturn : Descriptor where
  name := "guard"
  description := "guard"
  typeName := "T"
  methodName := "f"
  sites := [⟨.offset 10, .ofOpcode .ret, .check⟩]

/-- Both descriptors are valid, and the first one leaves the offsets stale for the second. -/
theorem Descriptor.staleOffsets_clearTable : ∃ data o m' place b b',
    Module.load 0 data = .ok jumpingModule ∧ clearTable.validate = .ok () ∧
      guardReturn.validate = .ok () ∧ clearTable.apply jumpingModule = (.ok o, m') ∧
      jumpingModule.patchedBody "T" "f" = .ok (place, b) ∧ b.shifted = false ∧
      m'.patchedBody "T" "f" = .ok (place, b') ∧ b'.shifted = true ∧
      guardReturn.apply m' = (.error .staleOffsets, m') := by
  have hrun : (jumpingModule.patchedBody "T" "f" >>= fun before =>
      (clearTable.apply jumpingModule).1 >>= fun o =>
      (clearTable.apply jumpingModule).2.patchedBody "T" "f" >>= fun after =>
        .ok (decide (before.1 = after.1), before.2.shifted, after.2.shifted,
          (guardReturn.apply (clearTable.apply jumpingModule).2).1))
      = .ok (true, false, true, .error .staleOffsets) := by
    decide +kernel
  obtain ⟨data, hload⟩ := exists_load_jumpingModule
  obtain ⟨⟨place, b⟩, hbefore, hrun⟩ := bind_eq_ok.mp hrun
  obtain ⟨o, happly, hrun⟩ := bind_eq_ok.mp hrun
  obtain ⟨⟨place', b'⟩, hafter, hrun⟩ := bind_eq_ok.mp hrun
  simp only [Except.ok.injEq, Prod.mk.injEq, decide_eq_true_eq] at hrun
  obtain ⟨rfl, hfresh, hshifted, hstale⟩ := hrun
  have hagain : guardReturn.apply (clearTable.apply jumpingModule).2
      = (.error .staleOffsets, (guardReturn.apply (clearTable.apply jumpingModule).2).2) :=
    Prod.ext hstale rfl
  rw [(apply_eq_error hagain).1] at hagain
  exact ⟨data, o, _, place, b, b', hload, rfl, rfl, Prod.ext happly rfl, hbefore, hfresh, hafter,
    hshifted, hagain⟩

end CilEdit

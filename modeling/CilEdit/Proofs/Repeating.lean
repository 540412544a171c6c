import CilEdit.Proofs.Resizing

namespace CilEdit

namespace Descriptor

/-- No site accepts what it leaves behind. -/
def Excludes (d : Descriptor) : Prop :=
  ∀ s ∈ d.sites, ∀ operand, s.replacement? = some operand →
    s.expect.accepts ⟨s.expect.opcode, operand, none⟩ = false

/-- The descriptor is refused over drift, and leaves the module as it is. -/
def Spent (d : Descriptor) (m : Module) : Prop :=
  ∃ e, e.isDrift = true ∧ d.apply m = (.error e, m)

end Descriptor

namespace Locator

variable {l : Locator} {b b' : Body} {h : Handle}

theorem place?_of_find (hfind : l.find b = .ok h) : l.place? b = some h := by
  cases l with
  | offset n => exact (find_offset_eq_ok_iff.mp hfind).2
  | index n => exact find_index_eq_ok_iff.mp hfind

theorem place?_of_mirrors {f : Handle → Handle} (hb : b.Mirrors f b') (l : Locator) :
    l.place? b' = (l.place? b).map f := by
  cases l with
  | offset n => exact hb.find?_offset n
  | index n => exact hb.at?_eq n

end Locator

namespace Site

variable {s : Site} {b b' : Body}

/-- A site that holds what it wrote does not match, if it does not accept that. -/
theorem Applied.met_eq (hs : s.Applied b) (hexcludes : ∀ operand, s.replacement? = some operand →
    s.expect.accepts ⟨s.expect.opcode, operand, none⟩ = false) : s.met b = false := by
  obtain ⟨hreplaces, h, hplace, hholds⟩ := hs
  obtain ⟨operand, hoperand⟩ := Option.isSome_iff_exists.mp hreplaces
  obtain ⟨i, hi, hopcode, hsame⟩ := hholds operand hoperand
  have hsome : s.instruction? b = some i := Option.bind_eq_some_iff.mpr ⟨h, hplace, hi⟩
  have hrefused := hexcludes operand hoperand
  rw [Pattern.accepts] at hrefused
  rw [met, hsome, Option.any_some, Pattern.accepts, hopcode, hsame]
  exact hrefused

/-- A site holds what it wrote in the body that is saved and loaded again. -/
theorem Applied.reloaded {d : Descriptor} (hvalid : d.validate = .ok ()) (hmem : s ∈ d.sites)
    (hs : s.Applied b) (hfresh : b.Fresh) {layout : Layout}
    (hmake : Layout.make b.ranked.code = .ok layout) (hb : b.Restores b' layout)
    (hshifted : b'.shifted = false) : s.Applied b' := by
  obtain ⟨hreplaces, h, hplace, hholds⟩ := hs
  refine ⟨hreplaces, b.reloaded b' h, ?_, fun operand hoperand => ?_⟩
  · rw [Locator.place?_of_mirrors (hfresh.mirrors hmake hb hshifted), hplace, Option.map_some]
  · obtain ⟨i, hi, hopcode, hsame⟩ := hholds operand hoperand
    obtain ⟨htargets, hfits⟩ := Descriptor.replacement_spec hvalid hmem hoperand
    have hlong : i.opcode.long? = none := by
      rw [Option.eq_none_iff_forall_ne_some]
      intro long hlong
      -- A short branch takes a target.
      have hshape := Operand.hasShape_of_fits hfits
      rw [← hopcode, Opcode.operand_of_long? hlong] at hshape
      obtain ⟨t, rfl⟩ := Operand.exists_target hshape
      cases htargets
    obtain ⟨j, hj, hopcode', hsame'⟩ := hb.exists_instruction
      (Body.instruction_eq_ok_iff_get?.mpr hi) hlong (by rw [hsame, htargets])
    exact ⟨j, Body.instruction_eq_ok_iff_get?.mp hj, hopcode'.trans hopcode, hsame'.trans hsame⟩

end Site

theorem exists_last {α : Type} {p : α → Prop} {xs : List α} (h : ∃ x ∈ xs, p x) :
    ∃ before x after, xs = before ++ x :: after ∧ p x ∧ ∀ y ∈ after, ¬p y := by
  induction xs with
  | nil =>
      obtain ⟨x, hx, -⟩ := h
      cases hx
  | cons x xs ih =>
      by_cases hlater : ∃ y ∈ xs, p y
      · obtain ⟨before, y, after, rfl, hy, hafter⟩ := ih hlater
        exact ⟨x :: before, y, after, rfl, hy, hafter⟩
      · obtain ⟨y, hy, hp⟩ := h
        rcases List.mem_cons.mp hy with rfl | hy
        · exact ⟨[], y, xs, rfl, hp, fun z hz hq => hlater ⟨z, hz, hq⟩⟩
        · exact absurd ⟨y, hy, hp⟩ hlater

namespace Descriptor

variable {d : Descriptor} {b b' : Body} {handles : List Handle} {s : Site}
  {edits : List (Site × Handle × Instruction Handle)}

/-- A run of replacements is a run of edits. -/
theorem edited_of_replaceAll (hrun : replaceAll edits b = (.ok (), b')) :
    b.edited (edits.map fun e => .replace e.2.1 e.2.2) = b' := by
  induction edits generalizing b with
  | nil => exact congrArg Prod.snd hrun
  | cons e edits ih =>
      obtain ⟨⟨⟩, next, hfirst, hrest⟩ := Step.bind_eq_ok.mp hrun
      have hnext : (Edit.replace e.2.1 e.2.2).apply b = next := congrArg Prod.snd hfirst
      rw [List.map_cons, Body.edited, List.foldl_cons, hnext]
      exact ih hrest

/-- Replacements that leave a body unshifted leave every instruction in its place. -/
theorem mirrors_of_replaceAll (hrun : replaceAll edits b = (.ok (), b'))
    (hfresh : b'.shifted = false) : b.Mirrors (fun t => t) b' := by
  have hnew : ∀ e ∈ edits.map (fun e => Edit.replace e.2.1 e.2.2), e.Unrecorded := by
    intro e he
    obtain ⟨f, -, rfl⟩ := List.mem_map.mp he
    exact trivial
  have hshifted := b.shifted_edited hnew
  rw [edited_of_replaceAll hrun, hfresh, eq_comm, Bool.or_eq_false_iff] at hshifted
  have hmirrors := b.mirrors_edited hnew hshifted.2
  rwa [edited_of_replaceAll hrun] at hmirrors

/-- The last site that replaces something is applied. -/
theorem Replaces.exists_applied (hb : d.Replaces b handles b')
    (hmirrors : b.Mirrors (fun t => t) b') (hsome : ∃ s ∈ d.sites, s.replacement?.isSome = true) :
    ∃ s ∈ d.sites, s.Applied b' := by
  obtain ⟨t, ht, hreplaces⟩ := hsome
  obtain ⟨n, hn⟩ := List.mem_iff_getElem?.mp ht
  obtain ⟨k, hk, -⟩ := exists_getElem?_of_forall₂ hb.located hn
  have hzip : (t, k) ∈ d.sites.zip handles :=
    List.mem_of_getElem? (List.getElem?_zip_eq_some.mpr ⟨hn, hk⟩)
  obtain ⟨before, ⟨s, h⟩, after, hsplit, hlast, hlater⟩ :=
    exists_last (p := fun p : Site × Handle => p.1.replacement?.isSome = true)
      ⟨_, hzip, hreplaces⟩
  have hmem : (s, h) ∈ d.sites.zip handles := by
    rw [hsplit]
    exact List.mem_append_right _ List.mem_cons_self
  refine ⟨s, (List.of_mem_zip hmem).1, hlast, h, ?_, hb.last before s h after hsplit ?_⟩
  · have hfind := (List.forall₂_iff_zip.mp hb.located).2 hmem
    rw [Locator.place?_of_mirrors hmirrors, Locator.place?_of_find hfind, Option.map_some]
  · intro p hp _
    exact Option.not_isSome_iff_eq_none.mp (hlater p hp)

variable {m m' m'' : Module} {place : Module.MethodPlace} {x : MethodDef} {o : Outcome}

theorem exists_drift_of_missed (hvalid : d.validate = .ok ()) (hfresh : b.Fresh)
    (hs : s ∈ d.sites) (hmet : s.met b = false) :
    ∃ e, e.isDrift = true ∧ d.resolve b = .error e := by
  have hclassified := classified_of_fresh hvalid hfresh
  have hstale : ¬d.Stale b := not_stale_of_unshifted hfresh.unshifted
  have hmissed : d.missed b ≠ [] :=
    List.ne_nil_of_mem (List.mem_filter.mpr ⟨hs, by rw [hmet]; rfl⟩)
  by_cases hpatched : d.Patched b
  · exact ⟨_, rfl, hclassified.applied.mpr ⟨hstale, hmissed, hpatched⟩⟩
  · obtain ⟨matched, hresolve, -⟩ := hclassified.incomplete hstale hmissed hpatched
    exact ⟨_, rfl, hresolve⟩

theorem spent_of_applied (hvalid : d.validate = .ok ()) (hexcludes : d.Excludes)
    (hfinds : m.Finds d.typeName d.methodName place x) (hbody : x.body = some b)
    (hfresh : b.Fresh) (hs : s ∈ d.sites) (happlied : s.Applied b) : d.Spent m := by
  obtain ⟨e, hdrift, hresolve⟩ :=
    exists_drift_of_missed hvalid hfresh hs (happlied.met_eq (hexcludes s hs))
  exact ⟨e, hdrift, apply_of_resolve_eq_error hvalid
    (Module.patchedBody_eq_ok_iff.mpr ⟨x, hfinds, hbody⟩) hresolve⟩

/-- A descriptor that replaces something, no switch table, and does not accept what it wrote is
refused by the module that it was applied to, and by whatever that is loaded as once it is saved. -/
theorem spent_of_apply {origin : Nat} {data : Bytes} (hload : Module.load origin data = .ok m)
    (hd : d.Switchless) (hsome : ∃ s ∈ d.sites, s.replacement?.isSome = true)
    (hexcludes : d.Excludes) (happly : d.apply m = (.ok o, m')) :
    d.Spent m' ∧ ∀ bytes again m'', m'.toBytes = .ok bytes → Module.load again bytes = .ok m'' →
      d.Spent m'' := by
  obtain ⟨place, x, b, b', handles, hvalid, hfinds, hx, hresolve, hrun, rfl⟩ :=
    exists_of_apply_eq_ok happly
  have hfresh := (Module.allFresh_of_load hload).fresh hfinds.found hx
  have hfresh' := fresh_of_replaceAll hvalid hresolve hfresh hd hrun
  obtain ⟨s, hs, happlied⟩ := (resizes_of_replaceAll hvalid hresolve hrun).replaces.exists_applied
    (mirrors_of_replaceAll hrun hfresh'.unshifted) hsome
  refine ⟨spent_of_applied hvalid hexcludes (hfinds.modifyMethod b') rfl hfresh' hs happlied, ?_⟩
  intro bytes again m'' hbytes hagain
  have heditable := (Module.editable_of_read (Module.read_of_load hload)).modifyMethod
    hfresh'.toEncodable place
  obtain ⟨hrestores, hloaded⟩ := heditable.restores_of_load hbytes hagain
  obtain ⟨x'', b'', layout, hfinds'', hx'', hfresh'', hmake, hb''⟩ :=
    hrestores.finds hloaded (hfinds.modifyMethod b') rfl rfl hfresh'.linked
  exact spent_of_applied hvalid hexcludes hfinds'' hx'' hfresh'' hs
    (happlied.reloaded hvalid hs hfresh' hmake hb'' hfresh''.unshifted)

end Descriptor

/-- The descriptor that makes a method return 7 that does not do so yet. -/
def returnSevenOnce : Descriptor :=
  { returnSeven with sites := [⟨.offset 0, ⟨.ldcI4S, .notEquals (.immediate (.int8 7))⟩,
      .replace (.immediate (.int8 7))⟩] }

theorem Descriptor.spent_of_apply_returnSevenOnce : ∃ m o m' m'',
    Module.load 0 (imageReturning 5) = .ok m ∧ returnSevenOnce.apply m = (.ok o, m') ∧
      returnSevenOnce.Spent m' ∧ m'.toBytes = .ok (imageReturning 7) ∧
      Module.load 1 (imageReturning 7) = .ok m'' ∧ returnSevenOnce.Spent m'' := by
  have hrun : (Module.load 0 (imageReturning 5) >>= fun m =>
      (returnSevenOnce.apply m).1 >>= fun _ => (returnSevenOnce.apply m).2.toBytes)
        = .ok (imageReturning 7) := by
    decide +kernel
  obtain ⟨m, hload, hrun⟩ := bind_eq_ok.mp hrun
  obtain ⟨o, happly, hbytes⟩ := bind_eq_ok.mp hrun
  obtain ⟨m'', hagain⟩ : ∃ m'', Module.load 1 (imageReturning 7) = .ok m'' :=
    exists_of_isOk (by decide +kernel)
  have hswitchless : returnSevenOnce.Switchless := List.forall_mem_singleton.mpr fun _ => nofun
  have hsome : ∃ s ∈ returnSevenOnce.sites, s.replacement?.isSome = true :=
    ⟨_, List.mem_cons_self, rfl⟩
  have hexcludes : returnSevenOnce.Excludes := by
    refine List.forall_mem_singleton.mpr ?_
    rintro operand ⟨⟩
    rfl
  obtain ⟨hspent, hreloaded⟩ :=
    spent_of_apply hload hswitchless hsome hexcludes (Prod.ext happly rfl)
  exact ⟨m, o, _, m'', hload, Prod.ext happly rfl, hspent, hbytes, hagain,
    hreloaded _ _ _ hbytes hagain⟩

end CilEdit

import CilEdit.Proofs.Locating

namespace CilEdit

theorem Opcode.operand_of_long? {op long : Opcode} (h : op.long? = some long) :
    op.operand = .shortTarget := by
  cases op <;> first | rfl | cases h

namespace Descriptor

variable {d : Descriptor} {b b' : Body} {handles : List Handle} {findings : List Finding}
  {opcode : Opcode} {v : Immediate}

theorem replacementFault_of_siteFault {seen : List Locator} {sites : List Site}
    (h : siteFault? seen sites = none) : ∀ s ∈ sites, replacementFault? s = none := by
  induction sites generalizing seen with
  | nil => exact fun _ hs => (List.not_mem_nil hs).elim
  | cons s sites ih =>
      rw [siteFault?] at h
      split at h
      · cases h
      · split at h
        · cases h
        · rename_i hfault
          exact List.forall_mem_cons.mpr ⟨hfault, ih h⟩

theorem nodup_of_siteFault {seen : List Locator} {sites : List Site}
    (h : siteFault? seen sites = none) :
    (sites.map Site.locator).Nodup ∧ ∀ s ∈ sites, s.locator ∉ seen := by
  induction sites generalizing seen with
  | nil => exact ⟨List.nodup_nil, fun _ hs => (List.not_mem_nil hs).elim⟩
  | cons s sites ih =>
      rw [siteFault?] at h
      split at h
      · cases h
      · rename_i hfirst
        split at h
        · cases h
        · obtain ⟨hnodup, hrest⟩ := ih h
          refine ⟨List.nodup_cons.mpr ⟨fun hmem => ?_, hnodup⟩, List.forall_mem_cons.mpr
            ⟨hfirst, fun t ht hmem => hrest t ht (List.mem_cons_of_mem _ hmem)⟩⟩
          obtain ⟨t, ht, hsame⟩ := List.mem_map.mp hmem
          exact hrest t ht (hsame ▸ List.mem_cons_self)

theorem siteFault_of_validate (h : d.validate = .ok ()) :
    d.sites ≠ [] ∧ siteFault? [] d.sites = none := by
  simp only [validate] at h
  split at h
  · cases h
  · rename_i hfault
    by_cases hempty : d.sites.isEmpty = true
    · rw [if_pos hempty] at hfault
      cases hfault
    · rw [if_neg hempty] at hfault
      exact ⟨fun hnil => hempty (List.isEmpty_iff.mpr hnil), hfault⟩

theorem validate_eq_ok (h : d.validate = .ok ()) :
    d.sites ≠ [] ∧ ∀ s ∈ d.sites, replacementFault? s = none :=
  ⟨(siteFault_of_validate h).1, replacementFault_of_siteFault (siteFault_of_validate h).2⟩

theorem exists_of_inspect_eq_matched {s : Site} {located : Option Handle} {h : Handle}
    (hs : inspect b s located = .ok (.matched h)) :
    located = some h ∧ ∃ i, b.instruction h = .ok i ∧ s.expect.accepts i = true := by
  cases located with
  | none => cases hs
  | some k =>
      obtain ⟨i, hi, hs⟩ := bind_eq_ok.mp hs
      cases hdrift : s.expect.drift? i with
      | some drift =>
          simp only [hdrift] at hs
          cases hs
      | none =>
          simp only [hdrift] at hs
          cases hs
          refine ⟨rfl, i, hi, ?_⟩
          unfold Pattern.drift? at hdrift
          split at hdrift
          · assumption
          · cases hdrift

theorem matched_of_drifts {sites : List Site} {located : List (Option Handle)}
    (hlength : located.length = sites.length)
    (hall : List.Forall₂ (fun p finding => inspect b p.1 p.2 = .ok finding) (sites.zip located)
      findings)
    (hnone : drifts findings = []) :
    located = (matched findings).map some ∧
      List.Forall₂ (fun s h => ∃ i, b.instruction h = .ok i ∧ s.expect.accepts i = true) sites
        (matched findings) := by
  induction sites generalizing located findings with
  | nil =>
      obtain rfl := List.length_eq_zero_iff.mp hlength
      cases hall
      exact ⟨rfl, .nil⟩
  | cons s sites ih =>
      obtain ⟨l, located, rfl⟩ := List.exists_cons_of_length_eq_add_one hlength
      obtain ⟨finding, rest, hhead, htail, rfl⟩ := List.forall₂_cons_left_iff.mp hall
      cases finding with
      | drifted drift applied => cases hnone
      | matched h =>
          obtain ⟨rfl, hread⟩ := exists_of_inspect_eq_matched hhead
          obtain ⟨hlocated, hsites⟩ := ih (Nat.succ.inj hlength) htail hnone
          exact ⟨congrArg (some h :: ·) hlocated, .cons hread hsites⟩

theorem length_of_locate {located : List (Option Handle)} (h : d.locate b = .ok located) :
    located.length = d.sites.length := by
  rw [locate] at h
  split at h
  · cases h
  · cases h
    exact List.length_map _

/-- What was found at the sites decides. -/
theorem resolve_of_findings (h : d.findings b = .ok findings) : d.resolve b =
    if (drifts findings).isEmpty then .ok (matched findings)
    else if appliedCount findings = (drifts findings).length ∧
        appliedCount findings = d.replaceCount then .error (.alreadyApplied d.name)
    else .error (.incompletePatch d.method (matched findings).length d.sites.length
      (drifts findings)) := by
  rw [resolve, bind_of_ok h]
  dsimp only
  split
  · rfl
  · split <;> rfl

/-- If the sites can be resolved, all are found and every one holds what it expects. -/
theorem resolve_eq_ok (h : d.resolve b = .ok handles) :
    d.locate b = .ok (handles.map some) ∧
      List.Forall₂ (fun s h => ∃ i, b.instruction h = .ok i ∧ s.expect.accepts i = true) d.sites
        handles := by
  obtain ⟨findings, hfindings, h⟩ := bind_eq_ok.mp h
  obtain ⟨located, hlocate, hinspect⟩ := bind_eq_ok.mp hfindings
  rw [mapM_eq_ok_iff] at hinspect
  by_cases hnone : (drifts findings).isEmpty = true
  · simp only [if_pos hnone] at h
    cases h
    obtain ⟨hlocated, hsites⟩ := matched_of_drifts (length_of_locate hlocate) hinspect
      (List.isEmpty_iff.mp hnone)
    exact ⟨by rw [hlocate, ← hlocated], hsites⟩
  · simp only [if_neg hnone] at h
    split at h <;> cases h

/-- If all sites are found and every one holds what it expects, they can be resolved. -/
theorem resolve_of_accepts (hlocate : d.locate b = .ok (handles.map some))
    (hall : List.Forall₂ (fun s h => ∃ i, b.instruction h = .ok i ∧ s.expect.accepts i = true)
      d.sites handles) : d.resolve b = .ok handles := by
  have hinspect : (d.sites.zip (handles.map some)).mapM (fun p => inspect b p.1 p.2)
      = .ok (handles.map .matched) := by
    rw [mapM_eq_ok_iff]
    clear hlocate
    generalize d.sites = sites at hall
    induction hall with
    | nil => exact .nil
    | @cons s h sites handles hread _ ih =>
        obtain ⟨i, hi, haccepts⟩ := hread
        refine .cons ?_ ih
        rw [inspect, bind_of_ok hi]
        simp only [Pattern.drift?, haccepts, if_true]
        rfl
  have hdrifts : drifts (handles.map .matched) = [] := by
    rw [drifts, List.filterMap_map]
    exact List.filterMap_eq_nil_iff.mpr fun _ _ => rfl
  have hmatched : matched (handles.map .matched) = handles := by
    rw [matched, List.filterMap_map]
    exact List.filterMap_some
  have hfound : d.findings b = .ok (handles.map .matched) := by
    rw [findings, bind_of_ok hlocate]
    exact hinspect
  rw [resolve_of_findings hfound, hdrifts, if_pos List.isEmpty_nil, hmatched]

/-- Every site expects an opcode with anything but a literal, and writes the literal. -/
def Writes (d : Descriptor) (opcode : Opcode) (v : Immediate) : Prop :=
  ∀ s ∈ d.sites, s.expect = ⟨opcode, .notEquals (.immediate v)⟩ ∧
    s.action = .replace (.immediate v)

/-- The sites are found, and every one holds the literal. -/
def Written (d : Descriptor) (opcode : Opcode) (v : Immediate) (b : Body) : Prop :=
  ∃ handles : List Handle, d.locate b = .ok (handles.map some) ∧
    ∀ h ∈ handles, ∃ i, b.instruction h = .ok i ∧ i.opcode = opcode ∧ i.operand = .immediate v

theorem Writes.kind_eq (hd : d.Writes opcode v) (h : d.validate = .ok ()) :
    v.kind = opcode.operand := by
  obtain ⟨hsites, hfault⟩ := validate_eq_ok h
  obtain ⟨s, hs⟩ := List.exists_mem_of_ne_nil _ hsites
  obtain ⟨hexpect, haction⟩ := hd s hs
  have hnone := hfault s hs
  simp only [replacementFault?, Site.replacement?, haction, hexpect] at hnone
  by_cases hfits : (Operand.immediate v : Operand Handle).fits opcode = true
  · exact Operand.fits_immediate_iff.mp hfits
  · simp [Operand.targets, hfits] at hnone

theorem inspect_of_written {s : Site} {h : Handle} {i : Instruction Handle}
    (hexpect : s.expect = ⟨opcode, .notEquals (.immediate v)⟩)
    (haction : s.action = .replace (.immediate v)) (hkind : v.kind = opcode.operand)
    (hi : b.instruction h = .ok i) (hopcode : i.opcode = opcode)
    (hoperand : i.operand = .immediate v) :
    ∃ drift, inspect b s (some h) = .ok (.drifted drift true) := by
  have hrefused : s.expect.accepts i = false := by
    rw [hexpect, Pattern.accepts, OperandPattern.accepts, hoperand, bne_self_eq_false,
      Bool.and_false]
  have hholds : s.holdsReplacement i = true := by
    have hfits : (Operand.immediate v : Operand Handle).fits opcode = true :=
      Operand.fits_immediate_iff.mpr hkind
    simp only [Site.holdsReplacement, Site.replacement?, haction, hexpect, hfits, hopcode, hoperand,
      BEq.rfl, Bool.and_self]
  rw [inspect, bind_of_ok hi]
  simp only [Pattern.drift?, hrefused, hholds]
  exact ⟨_, rfl⟩

theorem count_of_applied (h : ∀ f ∈ findings, ∃ drift, f = .drifted drift true) :
    (drifts findings).length = findings.length ∧ appliedCount findings = findings.length := by
  induction findings with
  | nil => exact ⟨rfl, rfl⟩
  | cons f findings ih =>
      obtain ⟨⟨drift, rfl⟩, hrest⟩ := List.forall_mem_cons.mp h
      obtain ⟨hdrifts, happlied⟩ := ih hrest
      have hcount : appliedCount (.drifted drift true :: findings) = appliedCount findings + 1 :=
        List.countP_cons_of_pos rfl
      exact ⟨congrArg Nat.succ hdrifts, hcount.trans (congrArg Nat.succ happlied)⟩

/-- A descriptor whose sites hold what they write counts as applied. -/
theorem Written.resolve_eq (hb : d.Written opcode v b) (hd : d.Writes opcode v)
    (hkind : v.kind = opcode.operand) (hsites : d.sites ≠ []) :
    d.resolve b = .error (.alreadyApplied d.name) := by
  obtain ⟨handles, hlocate, hread⟩ := hb
  have hlength := length_of_locate hlocate
  have hinspect : ∀ p ∈ d.sites.zip (handles.map some),
      ∃ finding, inspect b p.1 p.2 = .ok finding ∧ ∃ drift, finding = .drifted drift true := by
    rintro ⟨s, l⟩ hp
    obtain ⟨hs, hl⟩ := List.of_mem_zip hp
    obtain ⟨h, hh, rfl⟩ := List.mem_map.mp hl
    obtain ⟨i, hi, hopcode, hoperand⟩ := hread h hh
    obtain ⟨hexpect, haction⟩ := hd s hs
    obtain ⟨drift, hdrift⟩ := inspect_of_written hexpect haction hkind hi hopcode hoperand
    exact ⟨_, hdrift, drift, rfl⟩
  obtain ⟨findings, hfindings, hcount, happlied⟩ := exists_mapM_eq_ok hinspect
  rw [List.length_zip, hlength, Nat.min_self] at hcount
  obtain ⟨hdrifts, happliedCount⟩ := count_of_applied happlied
  have hreplace : d.replaceCount = d.sites.length := by
    rw [replaceCount, List.countP_eq_length]
    intro s hs
    rw [Site.replacement?, (hd s hs).2]
    rfl
  have hsome : ¬ (drifts findings).isEmpty = true := by
    rw [List.isEmpty_iff, ← List.length_eq_zero_iff, hdrifts, hcount]
    exact fun hzero => hsites (List.length_eq_zero_iff.mp hzero)
  have hfound : d.findings b = .ok findings := by
    rw [Descriptor.findings, bind_of_ok hlocate]
    exact hfindings
  rw [resolve_of_findings hfound, if_neg hsome, happliedCount, hdrifts, hcount, hreplace,
    if_pos ⟨rfl, rfl⟩]

/-- The replacements of a descriptor that writes a literal. -/
def literalEdits (d : Descriptor) (opcode : Opcode) (v : Immediate) (handles : List Handle) :
    List (Site × Handle × Instruction Handle) :=
  (d.sites.zip handles).map fun (s, h) => (s, h, ⟨opcode, .immediate v, none⟩)

theorem edits_eq_ok (hd : d.Writes opcode v) (hkind : v.kind = opcode.operand)
    (handles : List Handle) : d.edits handles = .ok (d.literalEdits opcode v handles) := by
  have hsites : ((d.sites.zip handles).filterMap fun (s, h) =>
      s.replacement?.map fun operand => (s, h, operand))
      = (d.sites.zip handles).map fun (s, h) => (s, h, (.immediate v : Operand Handle)) := by
    rw [← List.filterMap_eq_map]
    refine List.filterMap_congr ?_
    rintro ⟨s, h⟩ hp
    simp only [Site.replacement?, (hd s (List.of_mem_zip hp).1).2]
    rfl
  have hfits : (Operand.immediate v : Operand Handle).fits opcode = true :=
    Operand.fits_immediate_iff.mpr hkind
  rw [edits, hsites, mapM_map]
  apply mapM_eq_ok_map
  rintro ⟨s, h⟩ hp
  simp only [Function.comp_apply, (hd s (List.of_mem_zip hp).1).1, Instruction.make, Operand.check,
    if_pos hfits]
  rfl

/-- If every replacement of a run succeeds and keeps an invariant of the body and of the replacements
made so far, then so does the run. -/
theorem replaceAll_induction {P : List (Site × Handle × Instruction Handle) → Body → Prop}
    {edits : List (Site × Handle × Instruction Handle)}
    (hstep : ∀ made e b, e ∈ edits → P made b →
      ∃ b', Body.replace e.2.1 e.2.2 b = (.ok (), b') ∧ P (made ++ [e]) b')
    (made : List (Site × Handle × Instruction Handle)) (hb : P made b) :
    ∃ b', replaceAll edits b = (.ok (), b') ∧ P (made ++ edits) b' := by
  induction edits generalizing made b with
  | nil => exact ⟨b, rfl, by rwa [List.append_nil]⟩
  | cons e edits ih =>
      obtain ⟨b', hreplace, hb'⟩ := hstep made e b List.mem_cons_self hb
      obtain ⟨b'', hrun, hb''⟩ :=
        ih (fun made f b hf => hstep made f b (List.mem_cons_of_mem _ hf)) (made ++ [e]) hb'
      refine ⟨b'', ?_, ?_⟩
      · rw [replaceAll, Step.bind_ok hreplace]
        exact hrun
      · rwa [List.append_cons]

/-- The literal is written over the instructions at `hs`, and nothing else has changed. -/
structure Fills (opcode : Opcode) (v : Immediate) (hs : List Handle) (b b' : Body) : Prop where
  fresh : b'.Fresh
  mirrors : b.Mirrors (fun t => t) b'
  instructions : ∀ k i, b.instruction k = .ok i →
    ∃ j, b'.instruction k = .ok j ∧ j.opcode = i.opcode ∧
      (k ∈ hs ∨ i.operand = .immediate v → j.operand = .immediate v)

theorem fills_nil (hb : b.Fresh) : Fills opcode v [] b b where
  fresh := hb
  mirrors := ⟨rfl, List.forall₂_same.mpr fun _ _ => ⟨rfl, rfl⟩⟩
  instructions _ i hi := ⟨i, hi, rfl, fun h => h.resolve_left nofun⟩

theorem Fills.replace {hs : List Handle} {h : Handle} {i : Instruction Handle}
    (hb : Fills opcode v hs b b') (hkind : v.kind = opcode.operand) (hi : b.instruction h = .ok i)
    (hopcode : i.opcode = opcode) : ∃ b'', Body.replace h ⟨opcode, .immediate v, none⟩ b'
      = (.ok (), b'') ∧ Fills opcode v (hs ++ [h]) b b'' := by
  obtain ⟨old, hold, hsame, -⟩ := hb.instructions h i hi
  obtain ⟨hreplace, hfresh⟩ := hb.fresh.replace_literal hold (hsame.trans hopcode) hkind
  refine ⟨_, hreplace, hfresh, ⟨hb.mirrors.shifted, ?_⟩, ?_⟩
  · exact forall₂_trans (fun x y z hxy hyz => ⟨hyz.1.trans hxy.1, hyz.2.trans hxy.2⟩)
      hb.mirrors.entries (b'.mirrors_overwrite h.slot opcode (.immediate v)).entries
  · intro k was hwas
    obtain ⟨j, hj, hkept, hwritten⟩ := hb.instructions k was hwas
    refine ⟨_, Body.instruction_overwrite (Body.instruction_eq_ok_iff.mp hold).1 hj, ?_⟩
    by_cases heq : h = k
    · subst heq
      rw [hi] at hwas
      cases hwas
      rw [if_pos rfl]
      exact ⟨hopcode.symm, fun _ => rfl⟩
    · rw [if_neg heq]
      refine ⟨hkept, fun hor => hwritten (hor.imp_left fun hmem => ?_)⟩
      exact (List.mem_append.mp hmem).resolve_right fun hlast =>
        heq (List.mem_singleton.mp hlast).symm

/-- A run of replacements by one literal writes it at every handle. -/
theorem exists_replaceAll (hb : b.Fresh) (hkind : v.kind = opcode.operand)
    {edits : List (Site × Handle × Instruction Handle)}
    (hall : ∀ e ∈ edits, e.2.2 = ⟨opcode, .immediate v, none⟩ ∧
      ∃ i, b.instruction e.2.1 = .ok i ∧ i.opcode = opcode) :
    ∃ b', replaceAll edits b = (.ok (), b') ∧
      Fills opcode v (edits.map fun e => e.2.1) b b' := by
  refine replaceAll_induction
    (P := fun made b' => Fills opcode v (made.map fun e => e.2.1) b b') ?_ [] (fills_nil hb)
  intro made e b' he hb'
  obtain ⟨hliteral, i, hi, hopcode⟩ := hall e he
  rw [hliteral, List.map_append]
  exact hb'.replace hkind hi hopcode

/-- A descriptor that is applied to a fresh body leaves a fresh body with the literals written. -/
theorem exists_written (hb : b.Fresh) (hd : d.Writes opcode v) (hvalid : d.validate = .ok ())
    (hresolve : d.resolve b = .ok handles) : ∃ b',
      replaceAll (d.literalEdits opcode v handles) b = (.ok (), b') ∧ b'.Fresh ∧
        d.Written opcode v b' := by
  obtain ⟨hlocate, hsites⟩ := resolve_eq_ok hresolve
  have hread : ∀ p ∈ d.sites.zip handles, ∃ i, b.instruction p.2 = .ok i ∧ i.opcode = opcode := by
    rintro ⟨s, h⟩ hp
    obtain ⟨i, hi, haccepts⟩ := (List.forall₂_iff_zip.mp hsites).2 hp
    rw [(hd s (List.of_mem_zip hp).1).1, Pattern.accepts, Bool.and_eq_true, beq_iff_eq] at haccepts
    exact ⟨i, hi, haccepts.1⟩
  have hall : ∀ e ∈ d.literalEdits opcode v handles, e.2.2 = ⟨opcode, .immediate v, none⟩ ∧
      ∃ i, b.instruction e.2.1 = .ok i ∧ i.opcode = opcode := by
    intro e he
    obtain ⟨p, hp, rfl⟩ := List.mem_map.mp he
    exact ⟨rfl, hread p hp⟩
  obtain ⟨b', heq, hb'⟩ := exists_replaceAll hb (hd.kind_eq hvalid) hall
  refine ⟨b', heq, hb'.fresh, handles, ?_, ?_⟩
  · have hlocate' := locate_of_mirrors hb'.mirrors hlocate
    simpa [Function.comp_def] using hlocate'
  · intro h hh
    obtain ⟨s, hp⟩ : ∃ s, (s, h) ∈ d.sites.zip handles := by
      obtain ⟨n, hn⟩ := List.mem_iff_getElem?.mp hh
      have hlt : n < d.sites.length := by
        rw [hsites.length_eq]
        exact (List.getElem?_eq_some_iff.mp hn).1
      refine ⟨d.sites[n], List.mem_of_getElem? (i := n) ?_⟩
      exact List.getElem?_zip_eq_some.mpr ⟨List.getElem?_eq_getElem hlt, hn⟩
    obtain ⟨i, hi, hopcode⟩ := hread _ hp
    obtain ⟨j, hj, hsame, hwritten⟩ := hb'.instructions h i hi
    refine ⟨j, hj, hsame.trans hopcode, hwritten (.inl ?_)⟩
    rw [literalEdits, List.map_map]
    exact List.mem_map.mpr ⟨_, hp, rfl⟩

/-- The literals are still written after the body was saved and loaded. -/
theorem Written.reloaded (hwritten : d.Written opcode v b) (hfresh : b.Fresh)
    (hkind : v.kind = opcode.operand) {layout : Layout}
    (hmake : Layout.make b.ranked.code = .ok layout) (hb : b.Restores b' layout)
    (hshifted : b'.shifted = false) : d.Written opcode v b' := by
  obtain ⟨handles, hlocate, hread⟩ := hwritten
  refine ⟨handles.map (b.reloaded b'), ?_, ?_⟩
  · have hlocate' := locate_of_mirrors (hfresh.mirrors hmake hb hshifted) hlocate
    rwa [List.map_map] at hlocate' ⊢
  · intro k hk
    obtain ⟨h, hh, rfl⟩ := List.mem_map.mp hk
    obtain ⟨i, hi, hopcode, hoperand⟩ := hread h hh
    have hlong : i.opcode.long? = none := by
      rw [Option.eq_none_iff_forall_ne_some]
      intro long hlong
      rw [hopcode] at hlong
      rw [Opcode.operand_of_long? hlong] at hkind
      cases v <;> cases hkind
    obtain ⟨j, hj, hsame, hvalue⟩ := hb.exists_instruction hi hlong (by rw [hoperand]; rfl)
    exact ⟨j, hj, hsame.trans hopcode, hvalue.trans hoperand⟩

variable {m m' : Module} {place : Module.MethodPlace}
  {edits : List (Site × Handle × Instruction Handle)}

theorem plan_eq_ok (h : d.plan m = .ok (place, b, edits)) :
    d.validate = .ok () ∧ m.patchedBody d.typeName d.methodName = .ok (place, b) ∧
      ∃ handles, d.resolve b = .ok handles ∧ d.edits handles = .ok edits := by
  obtain ⟨⟨⟩, hvalid, h⟩ := bind_eq_ok.mp h
  obtain ⟨⟨place', b'⟩, hbody, h⟩ := bind_eq_ok.mp h
  obtain ⟨handles, hresolve, h⟩ := bind_eq_ok.mp h
  obtain ⟨edits', hedits, h⟩ := bind_eq_ok.mp h
  cases h
  exact ⟨hvalid, hbody, handles, hresolve, hedits⟩

theorem apply_eq_ok {o : Outcome} (h : d.apply m = (.ok o, m')) :
    ∃ place b edits b', d.plan m = .ok (place, b, edits) ∧ replaceAll edits b = (.ok (), b') ∧
      m' = m.modifyMethod place fun x => x.withBody b' := by
  obtain ⟨⟨place, b, edits⟩, last, hplan, h⟩ := Step.bind_eq_ok.mp h
  rw [Step.read_apply, Prod.mk.injEq] at hplan
  obtain ⟨hplan, rfl⟩ := hplan
  obtain ⟨⟨⟩, last, hedit, hreturn⟩ := Step.bind_eq_ok.mp h
  obtain ⟨b', hrun, rfl⟩ := ModuleStep.editBody_eq_ok_iff.mp hedit
  cases hreturn
  exact ⟨place, b, edits, b', hplan, hrun, rfl⟩

/-- A descriptor that writes a literal applies wherever its sites can be resolved. -/
theorem apply_of_resolve_eq_ok (hd : d.Writes opcode v) (hvalid : d.validate = .ok ())
    (hbody : m.patchedBody d.typeName d.methodName = .ok (place, b)) (hb : b.Fresh)
    (hresolve : d.resolve b = .ok handles) : d.apply m =
      (.ok ⟨d.name, d.method, (d.literalEdits opcode v handles).length, 0⟩,
        m.modifyMethod place fun x => x.withBody (replaceAll (d.literalEdits opcode v handles) b).2) := by
  have hedits := edits_eq_ok hd (hd.kind_eq hvalid) handles
  obtain ⟨b', hrun, -⟩ := exists_written hb hd hvalid hresolve
  have hplan : d.plan m = .ok (place, b, d.literalEdits opcode v handles) := by
    rw [plan, bind_of_ok hvalid, bind_of_ok hbody]
    exact (bind_of_ok hresolve).trans (bind_of_ok hedits)
  have hread : Step.read d.plan m = (.ok (place, b, d.literalEdits opcode v handles), m) := by
    rw [Step.read_apply, hplan]
  rw [hrun, apply, Step.bind_ok hread]
  exact Step.bind_ok (ModuleStep.editBody_eq_ok_iff.mpr ⟨b', hrun, rfl⟩)

theorem apply_of_plan_eq_error {e : Error} (h : d.plan m = .error e) :
    d.apply m = (.error e, m) := by
  rw [apply, Step.bind_apply, Step.read_apply, h]

theorem apply_of_resolve_eq_error {e : Error} (hvalid : d.validate = .ok ())
    (hbody : m.patchedBody d.typeName d.methodName = .ok (place, b))
    (h : d.resolve b = .error e) : d.apply m = (.error e, m) := by
  refine apply_of_plan_eq_error ?_
  rw [plan, bind_of_ok hvalid, bind_of_ok hbody]
  exact bind_eq_error.mpr (.inl h)

end Descriptor

end CilEdit

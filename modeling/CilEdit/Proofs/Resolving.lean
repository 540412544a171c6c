import CilEdit.Proofs.Replacing
import CilEdit.Proofs.Scanning

namespace CilEdit

/-- The first instruction recorded at an offset, or the instruction at a position. -/
def Locator.place? (b : Body) : Locator → Option Handle
  | .offset n => b.find? fun i => i.offset == some n
  | .index n => b.at? n

namespace Site

def instruction? (s : Site) (b : Body) : Option (Instruction Handle) :=
  (s.locator.place? b).bind b.get?

/-- The site finds what it expects. -/
def met (s : Site) (b : Body) : Bool :=
  (s.instruction? b).any s.expect.accepts

/-- The site has its instruction already as it would leave it behind. -/
def Applied (s : Site) (b : Body) : Prop :=
  s.replacement?.isSome = true ∧ ∃ h, s.locator.place? b = some h ∧ s.Holds b h

/-- What is told about a site that does not match. -/
def drift (s : Site) (b : Body) : Drift where
  offset := match s.locator with
    | .offset n => some n
    | .index _ => (s.instruction? b).bind Instruction.offset
  index := match s.locator with
    | .offset _ => none
    | .index n => some n
  expected := s.expect.describe
  actual := (s.instruction? b).elim "no instruction" Instruction.describe

end Site

namespace Descriptor

/-- The sites that do not match, in the order of the descriptor. -/
def missed (d : Descriptor) (b : Body) : List Site :=
  d.sites.filter fun s => !s.met b

/-- The body is shifted, and some site is to be found by an offset. -/
def Stale (d : Descriptor) (b : Body) : Prop :=
  b.shifted = true ∧ ∃ s ∈ d.sites, s.locator.isOffset = true

/-- Exactly the sites that replace something do not match, and each of them is applied. -/
def Patched (d : Descriptor) (b : Body) : Prop :=
  (∀ s ∈ d.sites, s.met b = false ↔ s.replacement?.isSome = true) ∧
    ∀ s ∈ d.missed b, s.Applied b

/-- What resolving gives, told from what every site finds on its own. -/
structure Classified (d : Descriptor) (b : Body) : Prop where
  stale : d.resolve b = .error .staleOffsets ↔ d.Stale b
  resolved : (∃ handles, d.resolve b = .ok handles) ↔ ¬d.Stale b ∧ d.missed b = []
  handles : ∀ handles, d.resolve b = .ok handles →
    d.sites.map (fun s => s.locator.place? b) = handles.map some
  applied : d.resolve b = .error (.alreadyApplied d.name) ↔
    ¬d.Stale b ∧ d.missed b ≠ [] ∧ d.Patched b
  incomplete : ¬d.Stale b → d.missed b ≠ [] → ¬d.Patched b →
    ∃ matched, d.resolve b = .error (.incompletePatch d.method matched d.sites.length
        ((d.missed b).map fun s => s.drift b)) ∧
      matched + (d.missed b).length = d.sites.length

end Descriptor

theorem Locator.exists_of_place? {l : Locator} {b : Body} {h : Handle} (hplace : l.place? b = some h) :
    ∃ i, b.get? h = some i ∧ ∀ n, l = .offset n → i.offset = some n := by
  cases l with
  | offset n =>
      rw [place?] at hplace
      obtain ⟨i, hmem, htest⟩ := Body.exists_of_find? hplace
      refine ⟨i, ?_, ?_⟩
      · exact Body.instruction_eq_ok_iff_get?.mp
          (Body.instruction_eq_ok_iff.mpr (Body.mem_entries_iff.mp hmem))
      · rintro m ⟨⟩
        exact beq_iff_eq.mp htest
  | index n =>
      obtain ⟨i, hi⟩ := Body.exists_get? (Body.contains_of_at? hplace)
      exact ⟨i, hi, nofun⟩

namespace Site

variable {s : Site} {b : Body} {h : Handle} {i : Instruction Handle}

def applied (s : Site) (b : Body) : Bool :=
  (s.instruction? b).any s.holdsReplacement

def finding (s : Site) (b : Body) : Descriptor.Finding :=
  match s.met b, s.locator.place? b with
  | true, some h => .matched h
  | _, _ => .drifted (s.drift b) (s.applied b)

theorem inspect_place? (s : Site) (b : Body) :
    Descriptor.inspect b s (s.locator.place? b) = .ok (s.finding b) := by
  cases hplace : s.locator.place? b with
  | none =>
      have hnone : s.instruction? b = none := by rw [instruction?, hplace]; rfl
      rw [Descriptor.inspect, finding, met, applied, drift, hnone, hplace]
      cases s.locator <;> rfl
  | some h =>
      obtain ⟨i, hi, hoffset⟩ := Locator.exists_of_place? hplace
      have hsome : s.instruction? b = some i := by rw [instruction?, hplace]; exact hi
      rw [Descriptor.inspect, bind_of_ok (Body.instruction_eq_ok_iff_get?.mpr hi), finding, met,
        applied, drift, hsome, hplace, Pattern.drift?]
      cases haccepts : s.expect.accepts i with
      | true =>
          simp only [Option.any_some, haccepts, if_true]
          rfl
      | false =>
          -- The recorded offset is that of the site, if the site has one.
          cases hlocator : s.locator with
          | offset n =>
              simp only [Option.any_some, haccepts, hoffset n hlocator]
              rfl
          | index n =>
              simp only [Option.any_some, haccepts]
              rfl

theorem finding_cases (s : Site) (b : Body) :
    (s.met b = true ∧ ∃ h, s.locator.place? b = some h ∧ s.finding b = .matched h) ∨
      (s.met b = false ∧ s.finding b = .drifted (s.drift b) (s.applied b)) := by
  cases hmet : s.met b with
  | false =>
      refine .inr ⟨rfl, ?_⟩
      rw [finding, hmet]
  | true =>
      obtain ⟨i, hi, -⟩ := (Option.any_eq_true _ _).mp hmet
      obtain ⟨h, hplace, -⟩ := Option.bind_eq_some_iff.mp hi
      refine .inl ⟨rfl, h, hplace, ?_⟩
      rw [finding, hmet, hplace]

/-- A valid site is applied if it holds its replacement. -/
theorem applied_iff {d : Descriptor} (hvalid : d.validate = .ok ()) (hs : s ∈ d.sites) :
    s.applied b = true ↔ s.Applied b := by
  rw [applied, Option.any_eq_true, Applied]
  constructor
  · rintro ⟨i, hi, hholds⟩
    obtain ⟨h, hplace, hget⟩ := Option.bind_eq_some_iff.mp hi
    rw [holdsReplacement] at hholds
    split at hholds
    · rename_i operand hoperand
      simp only [Bool.and_eq_true, beq_iff_eq] at hholds
      refine ⟨by rw [hoperand]; rfl, h, hplace, fun operand' hoperand' => ?_⟩
      rw [hoperand] at hoperand'
      cases hoperand'
      exact ⟨i, hget, hholds.1.2, hholds.2⟩
    · cases hholds
  · rintro ⟨hreplaces, h, hplace, hholds⟩
    obtain ⟨operand, hoperand⟩ := Option.isSome_iff_exists.mp hreplaces
    obtain ⟨i, hget, hopcode, hsame⟩ := hholds operand hoperand
    refine ⟨i, Option.bind_eq_some_iff.mpr ⟨h, hplace, hget⟩, ?_⟩
    have hfits := (Descriptor.replacement_spec hvalid hs hoperand).2
    simp only [holdsReplacement, hoperand, hfits, hopcode, hsame, BEq.rfl, Bool.and_self]

end Site

theorem countP_eq_iff {α : Type} {p q : α → Bool} {xs : List α}
    (himp : ∀ x ∈ xs, p x = true → q x = true) :
    xs.countP p = xs.countP q ↔ ∀ x ∈ xs, q x = true → p x = true := by
  induction xs with
  | nil => exact ⟨nofun, fun _ => rfl⟩
  | cons x xs ih =>
      obtain ⟨hx, hrest⟩ := List.forall_mem_cons.mp himp
      have hle : xs.countP p ≤ xs.countP q := List.countP_mono_left hrest
      rw [List.forall_mem_cons, ← ih hrest, List.countP_cons, List.countP_cons]
      cases hp : p x with
      | true => simp [hx hp]
      | false => cases hq : q x <;> simp; omega

namespace Descriptor

variable {d : Descriptor} {b : Body} {findings : List Finding}

theorem length_matched_add_drifts (findings : List Finding) :
    (matched findings).length + (drifts findings).length = findings.length := by
  induction findings with
  | nil => rfl
  | cons f findings ih =>
      cases f with
      | matched h =>
          exact (Nat.add_right_comm (matched findings).length 1 _).trans (congrArg Nat.succ ih)
      | drifted drift applied => exact congrArg Nat.succ ih

theorem drifts_findings (sites : List Site) (b : Body) :
    drifts (sites.map fun s => s.finding b)
      = (sites.filter fun s => !s.met b).map fun s => s.drift b := by
  induction sites with
  | nil => rfl
  | cons s sites ih =>
      rcases s.finding_cases b with ⟨hmet, h, -, heq⟩ | ⟨hmet, heq⟩
      · rw [List.map_cons, heq, List.filter_cons_of_neg (by simp [hmet])]
        exact ih
      · rw [List.map_cons, heq, List.filter_cons_of_pos (by simp [hmet])]
        exact congrArg (s.drift b :: ·) ih

theorem map_place?_of_met {sites : List Site} (hall : ∀ s ∈ sites, s.met b = true) :
    sites.map (fun s => s.locator.place? b)
      = (matched (sites.map fun s => s.finding b)).map some := by
  induction sites with
  | nil => rfl
  | cons s sites ih =>
      obtain ⟨hs, hrest⟩ := List.forall_mem_cons.mp hall
      rcases s.finding_cases b with ⟨-, h, hplace, heq⟩ | ⟨hmet, -⟩
      · rw [List.map_cons, List.map_cons, hplace, heq]
        exact congrArg (some h :: ·) (ih hrest)
      · rw [hs] at hmet
        cases hmet

theorem appliedCount_findings (sites : List Site) (b : Body) :
    appliedCount (sites.map fun s => s.finding b)
      = sites.countP fun s => !s.met b && s.applied b := by
  rw [appliedCount, List.countP_map]
  refine List.countP_congr fun s _ => ?_
  rcases s.finding_cases b with ⟨hmet, h, -, heq⟩ | ⟨hmet, heq⟩ <;>
    simp [heq, hmet]

/-- The counts agree if exactly the sites that replace something do not match, and all are applied. -/
theorem counts_iff (hvalid : d.validate = .ok ()) :
    (appliedCount (d.sites.map fun s => s.finding b) = (d.missed b).length ∧
      appliedCount (d.sites.map fun s => s.finding b) = d.replaceCount) ↔ d.Patched b := by
  have happlied : ∀ s ∈ d.sites, s.applied b = true → s.replacement?.isSome = true :=
    fun s hs h => ((Site.applied_iff hvalid hs).mp h).1
  have hlate : ∀ s : Site, (!s.met b && s.applied b) = true ↔
      s.met b = false ∧ s.applied b = true := fun s => by
    rw [Bool.and_eq_true, Bool.not_eq_true']
  rw [appliedCount_findings, missed, ← List.countP_eq_length_filter, replaceCount,
    countP_eq_iff fun s _ h => Bool.not_eq_true' _ |>.mpr ((hlate s).mp h).1,
    countP_eq_iff fun s hs h => happlied s hs ((hlate s).mp h).2]
  simp only [hlate, Bool.not_eq_true', Patched, missed, List.mem_filter, and_imp]
  constructor
  · rintro ⟨hmissed, hreplaces⟩
    refine ⟨fun s hs => ⟨fun hmet => ?_, fun hsome => (hreplaces s hs hsome).1⟩, fun s hs hmet => ?_⟩
    · exact happlied s hs (hmissed s hs hmet).2
    · exact (Site.applied_iff hvalid hs).mp (hmissed s hs hmet).2
  · rintro ⟨hexactly, hall⟩
    have hmissed : ∀ s ∈ d.sites, s.met b = false → s.met b = false ∧ s.applied b = true :=
      fun s hs hmet => ⟨hmet, (Site.applied_iff hvalid hs).mpr (hall s hs hmet)⟩
    exact ⟨hmissed, fun s hs hsome => hmissed s hs ((hexactly s hs).mpr hsome)⟩

theorem isEmpty_drifts (d : Descriptor) (b : Body) :
    (drifts (d.sites.map fun s => s.finding b)).isEmpty = true ↔ d.missed b = [] := by
  rw [drifts_findings, List.isEmpty_iff, List.map_eq_nil_iff]
  rfl

theorem offsets_eq_nil_iff : d.offsets = [] ↔ ∀ s ∈ d.sites, s.locator.isOffset = false := by
  rw [offsets, List.filterMap_eq_nil_iff]
  refine forall₂_congr fun s _ => ?_
  cases s.locator <;> simp [Locator.isOffset]

theorem stale_iff : d.Stale b ↔ d.offsets ≠ [] ∧ b.shifted = true := by
  rw [Stale, and_comm, ne_eq, offsets_eq_nil_iff]
  simp

/-- Where offsets ascend, the scan finds for each site what it denotes. -/
theorem findings_eq (hascend : b.shifted = false → Body.FirstsAscend b.recorded)
    (hfresh : ¬d.Stale b) : d.findings b = .ok (d.sites.map fun s => s.finding b) := by
  have hplaces : ∀ s ∈ d.sites, s.locator.reached b = s.locator.place? b := by
    intro s hs
    cases hlocator : s.locator with
    | index n => rfl
    | offset n =>
        have hshifted : b.shifted = false := Bool.eq_false_iff.mpr fun hshifted =>
          hfresh ⟨hshifted, s, hs, by rw [hlocator]; rfl⟩
        exact Body.reached_of_firstsAscend (hascend hshifted) n
  have hlocate : d.locate b = .ok (d.sites.map fun s => s.locator.place? b) := by
    refine locate_eq_ok_iff.mpr ⟨?_, (List.map_congr_left hplaces).symm⟩
    rwa [stale_iff, not_and_or, not_not, Bool.not_eq_true] at hfresh
  rw [findings, bind_of_ok hlocate, ← List.map_prod_left_eq_zip, mapM_map]
  exact mapM_eq_ok_map fun s _ => s.inspect_place? b

theorem not_stale_of_unshifted (hb : b.shifted = false) : ¬d.Stale b := by
  rintro ⟨hshifted, -⟩
  rw [hb] at hshifted
  cases hshifted

theorem resolve_of_stale (h : d.Stale b) : d.resolve b = .error .staleOffsets :=
  (Body.refusesOffsets_of_shifted h.1).resolve d (stale_iff.mp h).1

/-- The answers of `resolve`, each with what it needs. -/
inductive Resolution (d : Descriptor) (b : Body) : Except Error (List Handle) → Prop
  | stale (h : d.Stale b) : Resolution d b (.error .staleOffsets)
  | resolved {handles : List Handle} (hfresh : ¬d.Stale b) (hmet : d.missed b = [])
      (hplaces : d.sites.map (fun s => s.locator.place? b) = handles.map some) :
      Resolution d b (.ok handles)
  | applied (hfresh : ¬d.Stale b) (hmissed : d.missed b ≠ []) (hpatched : d.Patched b) :
      Resolution d b (.error (.alreadyApplied d.name))
  | incomplete {matched : Nat} (hfresh : ¬d.Stale b) (hmissed : d.missed b ≠ [])
      (hnot : ¬d.Patched b) (hcount : matched + (d.missed b).length = d.sites.length) :
      Resolution d b (.error (.incompletePatch d.method matched d.sites.length
        ((d.missed b).map fun s => s.drift b)))

theorem resolution (hvalid : d.validate = .ok ())
    (hascend : b.shifted = false → Body.FirstsAscend b.recorded) :
    d.Resolution b (d.resolve b) := by
  by_cases hstale : d.Stale b
  · rw [resolve_of_stale hstale]
    exact .stale hstale
  · have hlength := length_matched_add_drifts (d.sites.map fun s => s.finding b)
    rw [resolve_of_findings (findings_eq hascend hstale)]
    by_cases hmissed : d.missed b = []
    · rw [if_pos ((isEmpty_drifts d b).mpr hmissed)]
      rw [missed, List.filter_eq_nil_iff] at hmissed
      refine .resolved hstale (List.filter_eq_nil_iff.mpr hmissed) (map_place?_of_met fun s hs => ?_)
      simpa using hmissed s hs
    · rw [if_neg (mt (isEmpty_drifts d b).mp hmissed), drifts_findings, List.length_map]
      rw [drifts_findings, List.length_map, List.length_map] at hlength
      split
      · rename_i hcounts
        exact .applied hstale hmissed ((counts_iff hvalid).mp hcounts)
      · rename_i hcounts
        exact .incomplete hstale hmissed (mt (counts_iff hvalid).mpr hcounts) hlength

/-- A valid descriptor classifies the sites of a body in which offsets ascend. -/
theorem classified (hvalid : d.validate = .ok ())
    (hascend : b.shifted = false → Body.FirstsAscend b.recorded) : d.Classified b := by
  have hresolution := resolution hvalid hascend
  constructor
  all_goals
    generalize d.resolve b = answer at hresolution ⊢
  · cases hresolution <;> simp_all
  · cases hresolution <;> simp_all
  · rintro handles rfl
    cases hresolution with
    | resolved hfresh hmet hplaces => exact hplaces
  · cases hresolution <;> simp_all
  · intro hfresh hmissed hnot
    cases hresolution with
    | stale h => exact absurd h hfresh
    | resolved _ hmet => exact absurd hmet hmissed
    | applied _ _ hpatched => exact absurd hpatched hnot
    | incomplete _ _ _ hcount => exact ⟨_, rfl, hcount⟩

/-- In a body as it is loaded offsets ascend. -/
theorem classified_of_fresh (hvalid : d.validate = .ok ()) (hb : b.Fresh) : d.Classified b :=
  classified hvalid fun _ => Body.firstsAscend_of_pairwise hb.pairwise_recorded

/-- A valid descriptor classifies the sites of a decoded body, however it was edited by what records
no offsets. -/
theorem classified_of_decode {id : BodyId} {data : Bytes} {edits : List Edit}
    (hdecode : Body.decode id data = .ok b) (hnew : ∀ e ∈ edits, e.Unrecorded)
    (hvalid : d.validate = .ok ()) : d.Classified (b.edited edits) := by
  refine classified hvalid fun hfresh => (Body.firstsAscend_edited_iff hfresh).mpr ⟨?_, ?_⟩
  · exact Body.firstsAscend_of_pairwise (Body.fresh_of_decode hdecode).pairwise_recorded
  · exact b.addsInOrder_of_unrecorded hnew

/-- A method that returns 5 was made to return 7 by hand. -/
theorem classified_of_decode_returnSeven : ∃ b, Body.decode ⟨0, 0⟩ [14, 31, 5, 42] = .ok b ∧
    returnSeven.Classified
      (b.edited [.replace ⟨⟨0, 0⟩, 0⟩ ⟨.ldcI4S, .immediate (.int8 7), none⟩]) := by
  obtain ⟨b, hb⟩ : ∃ b, Body.decode ⟨0, 0⟩ [14, 31, 5, 42] = .ok b :=
    exists_of_isOk (by decide +kernel)
  exact ⟨b, hb, classified_of_decode hb (List.forall_mem_singleton.mpr trivial) rfl⟩

end Descriptor

end CilEdit

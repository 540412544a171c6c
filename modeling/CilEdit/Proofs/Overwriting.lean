import CilEdit.Proofs.Descriptors
import CilEdit.Proofs.Reencoding

namespace CilEdit

open Reader

namespace Stream

/-- The second instruction takes the place of the first one and has its opcode. It is the first one,
or that one satisfies `P`. -/
structure Replaces (P : RawInstruction → Prop) (raw raw' : RawInstruction) : Prop where
  opcode : raw'.opcode = raw.opcode
  stop : raw'.stop = raw.stop
  same : raw' = raw ∨ P raw

variable {P : RawInstruction → Prop} {i i' : Input} {raws raws' : List RawInstruction}

theorem Replaces.differ {raw raw' : RawInstruction} (h : Replaces P raw raw') {k : Nat}
    (hne : raw'.bytes[k]? ≠ raw.bytes[k]?) : P raw ∧ raw.opcode.size ≤ k := by
  refine ⟨h.same.resolve_left fun hsame => hne (by rw [hsame]), ?_⟩
  -- The opcodes are the same bytes.
  by_contra hlt
  have hopcode : k < raw.opcode.bytes.length := by
    rw [Opcode.length_bytes]
    exact Nat.not_le.mp hlt
  refine hne ?_
  rw [RawInstruction.bytes, RawInstruction.bytes, h.opcode, List.getElem?_append_left hopcode,
    List.getElem?_append_left hopcode]

/-- Code in which instructions were replaced differs inside their operands only. -/
theorem Run.differ (h : Run i raws) (h' : Run i' raws') (hpos : i'.pos = i.pos)
    (hall : List.Forall₂ (Replaces P) raws raws') :
    i'.rest.length = i.rest.length ∧ ∀ k, i'.rest[k]? ≠ i.rest[k]? →
      ∃ raw ∈ raws, P raw ∧ raw.offset + raw.opcode.size ≤ i.pos + k ∧ i.pos + k < raw.stop := by
  induction h generalizing i' raws' with
  | done hrest =>
      cases hall
      cases h' with
      | done hrest' =>
          rw [hrest, hrest']
          exact ⟨rfl, fun _ hne => absurd rfl hne⟩
  | @step i next raw raws hread _ ih =>
      obtain ⟨raw', raws', hraw, hrest, rfl⟩ := List.forall₂_cons_left_iff.mp hall
      cases h' with
      | @step _ next' _ _ hread' htail' =>
          obtain ⟨hoffset, hstop, -⟩ := RawInstruction.next_of_read hread
          obtain ⟨hoffset', hstop', -⟩ := RawInstruction.next_of_read hread'
          have hnext : next'.pos = next.pos := by rw [hstop', hstop, hraw.stop]
          obtain ⟨hlength, hdiffer⟩ := ih htail' hnext hrest
          have hend := RawInstruction.length_bytes_of_read hread
          have hsame : raw'.bytes.length = raw.bytes.length := by
            have hend' := RawInstruction.length_bytes_of_read hread'
            have hsame := hraw.stop
            omega
          rw [RawInstruction.rest_of_read hread, RawInstruction.rest_of_read hread',
            List.length_append, List.length_append, hsame, hlength]
          refine ⟨rfl, fun k hne => ?_⟩
          by_cases hk : k < raw.bytes.length
          · rw [List.getElem?_append_left hk, List.getElem?_append_left (hsame ▸ hk)] at hne
            obtain ⟨hP, hfirst⟩ := hraw.differ hne
            exact ⟨raw, List.mem_cons_self, hP, by omega, by omega⟩
          · rw [List.getElem?_append_right (Nat.not_lt.mp hk), List.getElem?_append_right (by omega),
              hsame] at hne
            obtain ⟨later, hmem, hP, hfirst, hlast⟩ := hdiffer _ hne
            exact ⟨later, List.mem_cons_of_mem _ hmem, hP, by omega, by omega⟩

theorem differ_of_decode {code code' : Bytes} (h : decode code = .ok raws)
    (h' : decode code' = .ok raws') (hall : List.Forall₂ (Replaces P) raws raws') :
    code'.length = code.length ∧ ∀ k, code'[k]? ≠ code[k]? →
      ∃ raw ∈ raws, P raw ∧ raw.offset + raw.opcode.size ≤ k ∧ k < raw.stop := by
  obtain ⟨hlength, hdiffer⟩ := (run_decode h).differ (run_decode h') rfl hall
  refine ⟨hlength, fun k hne => ?_⟩
  obtain ⟨raw, hmem, hraw, hfirst, hlast⟩ := hdiffer k hne
  rw [Input.ofBytes, Nat.zero_add] at hfirst hlast
  exact ⟨raw, hmem, hraw, hfirst, hlast⟩

end Stream

namespace Body

variable {b b' : Body} {hs : List Handle} {h : Handle} {p : Nat}

/-- The streams of a body and of the one that was rewritten differ at the handles. -/
theorem Rewrites.replaces (hb : b.Rewrites hs b') :
    List.Forall₂ (Stream.Replaces fun raw => ∃ (p : Nat) (e : Handle × Instruction Handle),
        b.entries[p]? = some e ∧ e.1 ∈ hs ∧ (Layout.raws b.ranked.code)[p]? = some raw)
      (Layout.raws b.ranked.code) (Layout.raws b'.ranked.code) := by
  have hlength : (Layout.raws b.ranked.code).length = (Layout.raws b'.ranked.code).length := by
    rw [length_raws, length_raws, hb.code.length_eq]
  refine List.forall₂_iff_get.mpr ⟨hlength, fun p hp hp' => ?_⟩
  have hget := List.getElem?_eq_getElem hp
  have hget' := List.getElem?_eq_getElem hp'
  have hraw := hget
  rw [getElem?_raws, Option.map_eq_some_iff] at hget hget'
  obtain ⟨e, he, hsame⟩ := hget
  obtain ⟨e', he', hsame'⟩ := hget'
  rw [List.get_eq_getElem, List.get_eq_getElem]
  rcases forall₂_getElem? hb.entries he he' with rfl | ⟨hmem, -, hopcode, hsize, -⟩
  · have heq : (Layout.raws b'.ranked.code)[p] = (Layout.raws b.ranked.code)[p] := by
      rw [← hsame, ← hsame', hb.rank, Layout.raw, Layout.raw, hb.offset_eq]
    exact ⟨congrArg _ heq, congrArg _ heq, .inl heq⟩
  · refine ⟨?_, ?_, .inr ⟨p, e, he, hmem, hraw⟩⟩
    · rw [← hsame, ← hsame']
      exact hopcode
    · rw [← hsame, ← hsame', RawInstruction.stop, RawInstruction.stop]
      simp only [Layout.raw, operand_size_map, hb.offset_eq]
      exact congrArg _ hsize

theorem Rewrites.overwrite (hb : b.Rewrites hs b') (hmem : h ∈ hs) {i old : Instruction Handle}
    (hold : b'.instruction h = .ok old) (hopcode : i.opcode = old.opcode) (hsize : i.size = old.size)
    (htargets : i.operand.targets = []) :
    b.Rewrites hs (b'.overwrite h.slot i.opcode i.operand) where
  rank := (rank_overwrite _ _ _ _).trans hb.rank
  handlers := hb.handlers
  maxStack := hb.maxStack
  locals := hb.locals
  initLocals := hb.initLocals
  entries := by
    obtain ⟨hcontains, hslot⟩ := instruction_eq_ok_iff.mp hold
    rw [entries_overwrite, List.forall₂_map_right_iff]
    refine forall₂_imp_mem hb.entries fun e _ e' hentry he => ?_
    by_cases heq : e'.1.slot = h.slot
    · -- The entry is the one at the handle, so its instruction is the old one.
      obtain ⟨hcontains', hslot'⟩ := mem_entries_iff.mp hentry
      have hsame : e'.1 = h := by rw [← handle_slot hcontains', heq, handle_slot hcontains]
      rw [heq, hslot] at hslot'
      cases hslot'
      obtain ⟨hhandle, hopcode', hsize'⟩ := he.handle_eq
      refine .inr ⟨?_, hhandle, ?_, ?_, ?_⟩
      · rwa [← hhandle, hsame]
      · simp only [if_pos heq, hopcode, hopcode']
      · simp only [if_pos heq]
        exact hsize.trans hsize'
      · simp only [if_pos heq, htargets]
    · simp only [if_neg heq]
      exact he

end Body

namespace Site

/-- The instruction that a site is about, in the stream that the body was decoded from. -/
def Names (s : Site) (raws : List RawInstruction) (raw : RawInstruction) : Prop :=
  match s.locator with
  | .offset n => raw ∈ raws ∧ raw.offset = n
  | .index n => raws[n]? = some raw

end Site

namespace Descriptor

variable {d : Descriptor} {b b' : Body} {hs handles : List Handle} {h : Handle} {s : Site}
  {edits : List (Site × Handle × Instruction Handle)}

/-- No site that replaces something expects a switch table. -/
def Switchless (d : Descriptor) : Prop :=
  ∀ s ∈ d.sites, s.replacement?.isSome = true → s.expect.opcode ≠ .switch

theorem replacement_spec (hvalid : d.validate = .ok ()) (hs : s ∈ d.sites)
    {operand : Operand Handle} (hoperand : s.replacement? = some operand) :
    operand.targets = [] ∧ operand.fits s.expect.opcode = true := by
  have hfault := (validate_eq_ok hvalid).2 s hs
  rw [replacementFault?, hoperand] at hfault
  dsimp only at hfault
  split at hfault
  · cases hfault
  · rename_i htargets
    split at hfault
    · cases hfault
    · rename_i hfits
      rw [Bool.not_eq_true', Bool.not_eq_false] at hfits htargets
      exact ⟨List.isEmpty_iff.mp htargets, hfits⟩

/-- What a site at an instruction leaves behind, if it replaces something. -/
def replacementAt (p : Site × Handle) : Option (Site × Handle × Instruction Handle) :=
  p.1.replacement?.map fun operand => (p.1, p.2, ⟨p.1.expect.opcode, operand, none⟩)

def replacements (d : Descriptor) (handles : List Handle) :
    List (Site × Handle × Instruction Handle) :=
  (d.sites.zip handles).filterMap replacementAt

theorem replacementAt_eq_some_iff {p : Site × Handle} {e : Site × Handle × Instruction Handle} :
    replacementAt p = some e ↔ p = (e.1, e.2.1) ∧ ∃ operand, e.1.replacement? = some operand ∧
      e.2.2 = ⟨e.1.expect.opcode, operand, none⟩ := by
  rw [replacementAt, Option.map_eq_some_iff]
  constructor
  · rintro ⟨operand, hoperand, rfl⟩
    exact ⟨rfl, operand, hoperand, rfl⟩
  · rintro ⟨rfl, operand, hoperand, hmake⟩
    exact ⟨operand, hoperand, by rw [← hmake]⟩

theorem mem_replacements {e : Site × Handle × Instruction Handle} :
    e ∈ d.replacements handles ↔ (e.1, e.2.1) ∈ d.sites.zip handles ∧
      ∃ operand, e.1.replacement? = some operand ∧ e.2.2 = ⟨e.1.expect.opcode, operand, none⟩ := by
  simp only [replacements, List.mem_filterMap, replacementAt_eq_some_iff]
  constructor
  · rintro ⟨p, hp, rfl, hmake⟩
    exact ⟨hp, hmake⟩
  · rintro ⟨hzip, hmake⟩
    exact ⟨_, hzip, rfl, hmake⟩

/-- A valid descriptor can make all the instructions that it leaves behind. -/
theorem edits_of_validate (hvalid : d.validate = .ok ()) (handles : List Handle) :
    d.edits handles = .ok (d.replacements handles) := by
  have hmake : ∀ e ∈ (d.sites.zip handles).filterMap fun p =>
        p.1.replacement?.map fun operand => (p.1, p.2, operand),
      (Instruction.make e.1.expect.opcode e.2.2).map (fun i => (e.1, e.2.1, i))
        = .ok (e.1, e.2.1, ⟨e.1.expect.opcode, e.2.2, none⟩) := by
    intro e he
    obtain ⟨p, hzip, hsome⟩ := List.mem_filterMap.mp he
    obtain ⟨operand, hoperand, rfl⟩ := Option.map_eq_some_iff.mp hsome
    have hfits := (replacement_spec hvalid (List.of_mem_zip hzip).1 hoperand).2
    simp only [Instruction.make, Operand.check, if_pos hfits]
    rfl
  refine (mapM_eq_ok_map hmake).trans (congrArg Except.ok ?_)
  rw [replacements, List.map_filterMap]
  refine List.filterMap_congr fun p _ => ?_
  rw [replacementAt, Option.map_map]
  rfl

theorem eq_replacements (hvalid : d.validate = .ok ()) (hedits : d.edits handles = .ok edits) :
    edits = d.replacements handles :=
  Except.ok.inj (hedits.symm.trans (edits_of_validate hvalid handles))

/-- A replacement at one of the handles that keeps the opcode, and so the size, of the instruction
there, and writes no targets. -/
structure KeepsOpcode (hs : List Handle) (b : Body) (e : Site × Handle × Instruction Handle) :
    Prop where
  mem : e.2.1 ∈ hs
  targets : e.2.2.operand.targets = []
  shape : e.2.2.operand.hasShape e.2.2.opcode.operand = true
  kind : e.2.2.opcode.operand ≠ .switch
  opcode : ∃ old, b.instruction e.2.1 = .ok old ∧ old.opcode = e.2.2.opcode

theorem KeepsOpcode.overwrite {e : Site × Handle × Instruction Handle} (he : KeepsOpcode hs b e)
    {i old : Instruction Handle} (hold : b.instruction h = .ok old) (hopcode : old.opcode = i.opcode) :
    KeepsOpcode hs (b.overwrite h.slot i.opcode i.operand) e where
  mem := he.mem
  targets := he.targets
  shape := he.shape
  kind := he.kind
  opcode := by
    obtain ⟨was, hwas, hsame⟩ := he.opcode
    refine ⟨_, Body.instruction_overwrite (Body.instruction_eq_ok_iff.mp hold).1 hwas, ?_⟩
    split
    · rename_i heq
      subst heq
      rw [hold] at hwas
      cases hwas
      exact hopcode.symm.trans hsame
    · exact hsame

theorem KeepsOpcode.exists_replace {e : Site × Handle × Instruction Handle}
    (he : KeepsOpcode hs b' e) (hfresh : b'.Fresh) (hb : b.Rewrites hs b') :
    ∃ b'', Body.replace e.2.1 e.2.2 b' = (.ok (), b'') ∧ b''.Fresh ∧ b.Rewrites hs b'' ∧
      ∀ f, KeepsOpcode hs b' f → KeepsOpcode hs b'' f := by
  obtain ⟨old, hold, hopcode⟩ := he.opcode
  have hbefore := Body.shape_of_instruction hfresh.shape hold
  rw [hopcode] at hbefore
  have hsize : e.2.2.size = old.size := by
    rw [Instruction.size, Instruction.size, hopcode, Body.size_of_shape he.kind he.shape hbefore]
  obtain ⟨hreplace, hfresh'⟩ := hfresh.replace hold hsize he.shape he.targets
  exact ⟨_, hreplace, hfresh', hb.overwrite he.mem hold hopcode.symm hsize he.targets,
    fun f hf => hf.overwrite hold hopcode⟩

/-- A run of replacements that keep opcodes succeeds and rewrites the body at their handles. -/
theorem exists_replaceAll_rewrites (hfresh : b.Fresh) (hall : ∀ e ∈ edits, KeepsOpcode hs b e) :
    ∃ b', replaceAll edits b = (.ok (), b') ∧ b'.Fresh ∧ b.Rewrites hs b' := by
  have hstep : ∀ (_ : List (Site × Handle × Instruction Handle)) e b', e ∈ edits →
      (b'.Fresh ∧ b.Rewrites hs b' ∧ ∀ f ∈ edits, KeepsOpcode hs b' f) →
      ∃ b'', Body.replace e.2.1 e.2.2 b' = (.ok (), b'') ∧ b''.Fresh ∧ b.Rewrites hs b'' ∧
        ∀ f ∈ edits, KeepsOpcode hs b'' f := by
    rintro _ e b' he ⟨hfresh, hb, hkeep⟩
    obtain ⟨b'', hreplace, hfresh', hb', hkept⟩ := (hkeep e he).exists_replace hfresh hb
    exact ⟨b'', hreplace, hfresh', hb', fun f hf => hkept f (hkeep f hf)⟩
  obtain ⟨b', hrun, hfresh', hb, -⟩ :=
    replaceAll_induction hstep [] ⟨hfresh, .refl _ b, hall⟩
  exact ⟨b', hrun, hfresh', hb⟩

theorem operand_ne_switch {op : Opcode} (h : op ≠ .switch) : op.operand ≠ .switch := by
  cases op <;> first | exact absurd rfl h | nofun

/-- A descriptor without switch tables rewrites the body at the handles of its replacements. -/
theorem exists_rewrites (hfresh : b.Fresh) (hvalid : d.validate = .ok ()) (hd : d.Switchless)
    (hresolve : d.resolve b = .ok handles) (hedits : d.edits handles = .ok edits) :
    ∃ b', replaceAll edits b = (.ok (), b') ∧ b'.Fresh ∧
      b.Rewrites (edits.map fun e => e.2.1) b' := by
  obtain rfl := eq_replacements hvalid hedits
  obtain ⟨-, hsites⟩ := resolve_eq_ok hresolve
  refine exists_replaceAll_rewrites hfresh fun e he => ?_
  obtain ⟨hzip, operand, hoperand, hi⟩ := mem_replacements.mp he
  have hs := (List.of_mem_zip hzip).1
  obtain ⟨htargets, hfits⟩ := replacement_spec hvalid hs hoperand
  obtain ⟨old, hold, haccepts⟩ := (List.forall₂_iff_zip.mp hsites).2 hzip
  rw [Pattern.accepts, Bool.and_eq_true, beq_iff_eq] at haccepts
  refine ⟨List.mem_map_of_mem he, ?_, ?_, ?_, old, hold, ?_⟩
  · rw [hi]
    exact htargets
  · rw [hi]
    exact Operand.hasShape_of_fits hfits
  · rw [hi]
    exact operand_ne_switch (hd e.1 hs (by rw [hoperand]; rfl))
  · rw [hi]
    exact haccepts.1

section

variable {id : BodyId} {header : Header} {codeSize : Nat} {raws : List RawInstruction}

/-- What the locator of a site denotes is the instruction that the site names. -/
theorem exists_names (hb : Body.ReadFrom id header codeSize raws b)
    (hfind : s.locator.find b = .ok h) :
    ∃ p raw, h = ⟨id, p⟩ ∧ raws[p]? = some raw ∧ s.Names raws raw := by
  cases hlocator : s.locator with
  | offset n =>
      rw [hlocator] at hfind
      obtain ⟨i, hmem, htest⟩ := Body.exists_of_find? (Locator.find_offset_eq_ok_iff.mp hfind).2
      obtain ⟨p, he⟩ := List.mem_iff_getElem?.mp hmem
      obtain ⟨hhandle, raw, hraw, hrecorded⟩ := hb.of_getElem?_entries he
      refine ⟨p, raw, hhandle, hraw, ?_⟩
      rw [Site.Names, hlocator]
      refine ⟨List.mem_of_getElem? hraw, Option.some_inj.mp ?_⟩
      rw [← hrecorded, ← beq_iff_eq.mp htest]
  | index n =>
      rw [hlocator, Locator.find_index_eq_ok_iff, Body.at?_eq, Option.map_eq_some_iff] at hfind
      obtain ⟨e, he, rfl⟩ := hfind
      obtain ⟨hhandle, raw, hraw, -⟩ := hb.of_getElem?_entries he
      refine ⟨n, raw, hhandle, hraw, ?_⟩
      rw [Site.Names, hlocator]
      exact hraw

/-- The byte at `k` belongs to the operand of an instruction that the descriptor replaces. -/
def Covers (d : Descriptor) (raws : List RawInstruction) (k : Nat) : Prop :=
  ∃ s ∈ d.sites, s.replacement?.isSome = true ∧ ∃ raw, s.Names raws raw ∧
    raw.offset + raw.opcode.size ≤ k ∧ k < raw.stop

/-- The instructions that are replaced in the body are those at the sites of replacements. -/
theorem exists_names_of_replacements (hb : Body.ReadFrom id header codeSize raws b)
    (hresolve : d.resolve b = .ok handles) {p : Nat} {e : Handle × Instruction Handle}
    {raw : RawInstruction} (he : b.entries[p]? = some e)
    (hmem : e.1 ∈ (d.replacements handles).map fun e => e.2.1) (hraw : raws[p]? = some raw) :
    ∃ s ∈ d.sites, s.replacement?.isSome = true ∧ s.Names raws raw := by
  obtain ⟨⟨s, h, i⟩, hedit, hhandle⟩ := List.mem_map.mp hmem
  obtain ⟨hzip, operand, hoperand, -⟩ := mem_replacements.mp hedit
  have hfind : s.locator.find b = .ok h :=
    (List.forall₂_iff_zip.mp (find_of_locate (resolve_eq_ok hresolve).1)).2 hzip
  obtain ⟨q, raw', hq, hraw', hnames⟩ := exists_names hb hfind
  -- The handle tells the position.
  dsimp only at hhandle
  rw [(hb.of_getElem?_entries he).1, hq] at hhandle
  cases hhandle
  rw [hraw] at hraw'
  cases hraw'
  exact ⟨s, (List.of_mem_zip hzip).1, by rw [hoperand]; rfl, hnames⟩

end

/-- The second stored body is the first one, with other bytes in the operands that the descriptor
replaces. -/
def Patches (d : Descriptor) (stored stored' : Bytes) : Prop :=
  ∃ header header' code code' raws, Header.parse stored = .ok header ∧
    header.code stored = .ok code ∧ Stream.decode code = .ok raws ∧
    Header.parse stored' = .ok header' ∧ header'.code stored' = .ok code' ∧
    header.Keeps header' ∧ code'.length = code.length ∧
    ∀ k, code'[k]? ≠ code[k]? → d.Covers raws k

/-- What is stored for a decoded body that a descriptor was applied to differs from what it was
decoded from inside the operands that were replaced. -/
theorem patches_of_encode {id : BodyId} {stored stored' : Bytes} {resolver : Resolver}
    {returnsValue : Bool} (hdecode : Body.decode id stored = .ok b)
    (hvalid : d.validate = .ok ()) (hd : d.Switchless) (hresolve : d.resolve b = .ok handles)
    (hedits : d.edits handles = .ok edits) (hrun : replaceAll edits b = (.ok (), b'))
    (hencode : b'.encode resolver returnsValue = .ok stored') : d.Patches stored stored' := by
  have hfresh := Body.fresh_of_decode hdecode
  obtain ⟨header, code, raws, hheader, hcode, hstream, hb⟩ := Body.readFrom_of_decode hdecode
  obtain ⟨b'', hrun', hfresh', hrewrites⟩ := exists_rewrites hfresh hvalid hd hresolve hedits
  obtain rfl := eq_replacements hvalid hedits
  rw [hrun] at hrun'
  cases hrun'
  obtain ⟨header', code', hheader', hcode', hkeeps, hstream'⟩ :=
    hb.encode_rewrites hstream hfresh.inPlace hrewrites hfresh'.toEncodable hencode
  have hsame := hb.raws_eq (Stream.contiguous_decode hstream) (Stream.run_decode hstream).sizes
  have hreplaces := hrewrites.replaces
  rw [hsame] at hreplaces
  obtain ⟨hlength, hdiffer⟩ := Stream.differ_of_decode hstream hstream' hreplaces
  refine ⟨header, header', code, code', raws, hheader, hcode, hstream, hheader', hcode', hkeeps,
    hlength, fun k hk => ?_⟩
  obtain ⟨raw, -, ⟨p, e, he, hmem, hraw⟩, hfirst, hlast⟩ := hdiffer k hk
  obtain ⟨s, hs, hreplacement, hnames⟩ := exists_names_of_replacements hb hresolve he hmem hraw
  exact ⟨s, hs, hreplacement, raw, hnames, hfirst, hlast⟩

end Descriptor

end CilEdit

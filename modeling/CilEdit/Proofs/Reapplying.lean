import CilEdit.Proofs.Commands
import CilEdit.Proofs.Descriptors
import CilEdit.Proofs.KeyChecks

/-!
The built-in patches apply once.

Each of the two patches leaves something behind that it looks for before it changes anything: the
one its literals, the other its call of `GetKey`. What is left behind is found again in the patched
module and in what that is loaded as once it is saved, so a second run changes nothing. That the
imported `GetKey` gets a token of its own is needed: a small game shows both patches, and with a
full table of imported types it takes the dialogue patch twice.
-/

namespace CilEdit

namespace Module

/-- Another run fails over `e` and changes nothing, in the module and in whatever it is loaded as
once it is saved. -/
structure Refuses {α : Type} (m : Module) (again : References → ModuleStep α) (e : Error) :
    Prop where
  here : ∀ r, again r m = (.error e, m)
  reloaded : ∀ bytes origin m', m.toBytes = .ok bytes → load origin bytes = .ok m' →
    ∀ r, again r m' = (.error e, m')

end Module

namespace Descriptor

variable {d : Descriptor} {m m' : Module} {opcode : Opcode} {v : Immediate}
  {place : Module.MethodPlace} {x : MethodDef} {b : Body} {o : Outcome}

/-- What a descriptor that writes a literal leaves in the module. -/
theorem exists_written_apply (hd : d.Writes opcode v) {origin : Nat} (hm : m.Loaded origin)
    (h : d.apply m = (.ok o, m')) : d.validate = .ok () ∧
      ∃ (place : Module.MethodPlace) (x : MethodDef) (b : Body),
      m' = m.modifyMethod place (fun x => x.withBody b) ∧
      m'.Finds d.typeName d.methodName place (x.withBody b) ∧ b.Fresh ∧ d.Written opcode v b := by
  obtain ⟨place, b, edits, b', hplan, hrun, rfl⟩ := apply_eq_ok h
  obtain ⟨hvalid, hbody, handles, hresolve, hedits⟩ := plan_eq_ok hplan
  obtain ⟨x, hfound, hbody⟩ := Module.patchedBody_eq_ok_iff.mp hbody
  obtain ⟨b'', hrun', hfresh, hwritten⟩ :=
    exists_written (hm.fresh_of_finds hfound hbody) hd hvalid hresolve
  rw [edits_eq_ok hd (hd.kind_eq hvalid)] at hedits
  cases hedits
  rw [hrun] at hrun'
  cases hrun'
  exact ⟨hvalid, place, x, b', rfl, hfound.modifyMethod b', hfresh, hwritten⟩

theorem editable_apply (hd : d.Writes opcode v) {origin : Nat} (hm : m.Loaded origin)
    (hm' : m.Editable) (h : d.apply m = (.ok o, m')) : m'.Editable := by
  obtain ⟨-, place, x, b, rfl, -, hfresh, -⟩ := exists_written_apply hd hm h
  exact hm'.modifyMethod hfresh.toEncodable place

theorem Written.apply_eq (hb : d.Written opcode v b) (hd : d.Writes opcode v)
    (hvalid : d.validate = .ok ()) (hfound : m.Finds d.typeName d.methodName place x)
    (hbody : x.body = some b) : d.apply m = (.error (.alreadyApplied d.name), m) :=
  apply_of_resolve_eq_error hvalid (Module.patchedBody_eq_ok_iff.mpr ⟨x, hfound, hbody⟩)
    (hb.resolve_eq hd (hd.kind_eq hvalid) (validate_eq_ok hvalid).1)

/-- A module with the literals of a descriptor written refuses the descriptor. -/
theorem Written.refuses (hb : d.Written opcode v b) (hd : d.Writes opcode v)
    (hvalid : d.validate = .ok ()) (hm : m.Editable)
    (hfound : m.Finds d.typeName d.methodName place (x.withBody b)) (hfresh : b.Fresh) :
    m.Refuses (fun _ => d.apply) (.alreadyApplied d.name) where
  here _ := hb.apply_eq hd hvalid hfound rfl
  reloaded bytes origin m' hbytes hload _ := by
    obtain ⟨hrestores, hloaded⟩ := hm.restores_of_load hbytes hload
    obtain ⟨x', b', layout, hfound', hbody', hfresh', hmake, hb'⟩ :=
      hrestores.finds hloaded hfound rfl rfl hfresh.linked
    exact (hb.reloaded hfresh (hd.kind_eq hvalid) hmake hb' hfresh'.unshifted).apply_eq hd hvalid
      hfound' hbody'

end Descriptor

theorem Transitions.writes_descriptor :
    descriptor.Writes .ldcR4 (.float32 0x38D1B717) := by
  intro s hs
  obtain ⟨offset, -, rfl⟩ := List.mem_map.mp hs
  exact ⟨rfl, rfl⟩

theorem map_lookup_zip {α β : Type} [BEq α] [LawfulBEq α] {xs : List α} (hnodup : xs.Nodup)
    {ys : List β} (hlength : ys.length = xs.length) :
    xs.map (fun x => (xs.zip ys).lookup x) = ys.map some := by
  induction xs generalizing ys with
  | nil =>
      obtain rfl := List.length_eq_zero_iff.mp hlength
      rfl
  | cons x xs ih =>
      obtain ⟨y, ys, rfl⟩ := List.exists_cons_of_length_eq_add_one hlength
      obtain ⟨hfresh, hnodup⟩ := List.nodup_cons.mp hnodup
      rw [List.map_cons, List.map_cons, List.zip_cons_cons, List.lookup_cons_self,
        ← ih hnodup (Nat.succ.inj hlength)]
      refine congrArg (some y :: ·) (List.map_congr_left fun x' hx' => ?_)
      have hne : (x' == x) = false := by
        rw [beq_eq_false_iff_ne]
        rintro rfl
        exact hfresh hx'
      rw [List.lookup_cons, hne]

namespace Transitions

variable {b : Body} {handles : List Handle}

/-- The menu patch fits a body with another literal at each of its offsets. -/
theorem resolve_of_scan (hshifted : b.shifted = false)
    (hscan : b.scan offsets = handles.map some) (hlength : handles.length = offsets.length)
    (hread : ∀ h ∈ handles, ∃ i, b.instruction h = .ok i ∧ i.opcode = .ldcR4 ∧
      i.operand ≠ duration) : descriptor.resolve b = .ok handles := by
  have hoffsets : descriptor.offsets.mergeSort = offsets := by
    change offsets.mergeSort = offsets
    exact List.mergeSort_of_pairwise (by decide)
  have hlocate : descriptor.locate b = .ok (handles.map some) := by
    have hlookup := map_lookup_zip (show offsets.Nodup by decide)
      ((List.length_map some).trans hlength)
    rw [Descriptor.locate, if_neg (by rw [hshifted]; exact fun h => Bool.false_ne_true h.2)]
    have hsites : descriptor.sites = offsets.map fun offset =>
        ⟨.offset offset, ⟨.ldcR4, .notEquals duration⟩, .replace duration⟩ := rfl
    simp only [hoffsets, hscan, hsites, List.map_map]
    change Except.ok (offsets.map (Option.join ∘ fun offset =>
      (offsets.zip (handles.map some)).lookup offset)) = _
    rw [← List.map_map, hlookup, List.map_map]
    exact congrArg Except.ok (List.map_id (handles.map some))
  refine Descriptor.resolve_of_accepts hlocate (List.forall₂_iff_zip.mpr ⟨?_, ?_⟩)
  · rw [hlength, descriptor, List.length_map]
  · rintro s h hp
    obtain ⟨hs, hh⟩ := List.of_mem_zip hp
    obtain ⟨offset, -, rfl⟩ := List.mem_map.mp hs
    obtain ⟨i, hi, hopcode, hoperand⟩ := hread h hh
    refine ⟨i, hi, ?_⟩
    simp [Pattern.accepts, OperandPattern.accepts, hopcode, hoperand]

end Transitions

namespace Dialogue

variable {r : References} {m m' : Module} {o : Outcome} {b : Body} {place : Module.MethodPlace}
  {x : MethodDef}

theorem Checked.refuses (hb : Checked m b) (hm : m.Editable)
    (hfound : m.Finds typeName methodName place (x.withBody b)) (hlinked : b.Linked) :
    m.Refuses Dialogue.apply (.alreadyApplied name) where
  here _ := apply_of_findSite (hb.findSite_eq hfound rfl)
  reloaded bytes origin m' hbytes hload _ := by
    obtain ⟨hrestores, hloaded⟩ := hm.restores_of_load hbytes hload
    obtain ⟨x', b', layout, hfound', hbody', -, -, hb'⟩ :=
      hrestores.finds hloaded hfound rfl rfl hlinked
    exact apply_of_findSite
      ((hb.reloaded hb' hrestores.typeRefs hrestores.memberRefs).findSite_eq hfound' hbody')

/-- The dialogue patch refuses the module that it was applied to. -/
theorem refuses_of_apply (hm : m.Editable) (hkey : KeyNamed r m) (h : apply r m = (.ok o, m')) :
    m'.Refuses Dialogue.apply (.alreadyApplied name) := by
  have hm' := editable_apply hm h
  obtain ⟨place, x, b, b', s, m₁, hfound, hbody, hsymbols, rfl, hencodable, k, hk⟩ :=
    exists_inserted h
  obtain ⟨hextends, -, m₂, himport, hlast⟩ := extends_importSymbols hm.wellFormed hsymbols
  have htable := table_importRequest hm.wellFormed.numbered himport
  obtain ⟨scope, kind, hsymbol⟩ := hkey _ _ himport
  have hsame : (m₁.modifyMethod place fun x => x.withBody b').symbol s.getKey
      = m₁.symbol s.getKey := Module.symbol_congr htable rfl rfl
  have hchecked : Checked (m₁.modifyMethod place fun x => x.withBody b') b' :=
    ⟨k, _, s.getKey, scope, kind, hk, rfl, rfl, htable,
      hsame.trans (hlast.symbol_eq htable hsymbol)⟩
  obtain ⟨t, ht, hx⟩ := Module.methodAt?_eq_some_iff.mp hfound.found
  have hb := hm.bodies t (List.mem_of_getElem? ht) x (List.mem_of_getElem? hx) b hbody
  exact hchecked.refuses hm' ((hfound.of_types hextends.types).modifyMethod b')
    (hencodable hb).linked

end Dialogue

theorem PatchSet.apply_of_head {p : Patch} {ps : List Patch} {r : References} {m : Module}
    {e : Error} (h : p.apply r m = (.error e, m)) :
    (PatchSet.mk (p :: ps)).apply r m = (.error (.patchFailed p.name e), m) := by
  rw [apply, applyAll, Step.bind_apply, Step.mapError, h]

/-- The menu patch is refused by the module that the whole set was applied to. -/
theorem PatchSet.refuses_of_apply {origin : Nat} {data : Bytes} {m m' : Module} {r : References}
    {set : PatchSet} {os : List Outcome} (hload : Image.read origin data = .ok m)
    (hset : builtin = .ok set) (h : set.apply r m = (.ok os, m')) :
    m'.Refuses set.apply
      (.patchFailed Transitions.name (.alreadyApplied Transitions.name)) := by
  rw [Command.builtin_eq_ok] at hset
  cases hset
  obtain ⟨first, second, m₁, htransitions, hdialogue, -⟩ :=
    Command.applied_builtin_iff.mp (apply_eq_ok_iff.mp h)
  have hloaded := Image.loaded_of_read hload
  have heditable := Descriptor.editable_apply Transitions.writes_descriptor hloaded
    (Module.editable_of_read hload) htransitions
  obtain ⟨hvalid, place, x, b, -, hfound, hfresh, hwritten⟩ :=
    Descriptor.exists_written_apply Transitions.writes_descriptor hloaded htransitions
  have hm' := Dialogue.editable_apply heditable hdialogue
  obtain ⟨other, y, c, c', s, m₂, hother, -, hsymbols, rfl, -, -⟩ :=
    Dialogue.exists_inserted hdialogue
  obtain ⟨hextends, -, -⟩ := Dialogue.extends_importSymbols heditable.wellFormed hsymbols
  have hkept := (hfound.of_types hextends.types).modifyMethod_of_ne (hother.of_types hextends.types)
    (by decide) c'
  have hrefuses := hwritten.refuses Transitions.writes_descriptor hvalid hm' hkept hfresh
  exact ⟨fun r => apply_of_head (hrefuses.here r),
    fun bytes origin m₃ hbytes hload r =>
      apply_of_head (hrefuses.reloaded bytes origin m₃ hbytes hload r)⟩

/-- The built-in patches apply to a loaded module at most once, the dialogue patch provided that the
token of the imported `GetKey` names it. Below the last rows of the tables it does. -/
theorem Module.builtin_applies_once {origin : Nat} {data : Bytes} {m : Module}
    (hload : Image.read origin data = .ok m) :
    (∀ set r os m', PatchSet.builtin = .ok set → set.apply r m = (.ok os, m') →
      m'.Refuses set.apply
        (.patchFailed Transitions.name (.alreadyApplied Transitions.name))) ∧
    (∀ r o m', Dialogue.apply r m = (.ok o, m') → Dialogue.KeyNamed r m →
      m'.Refuses Dialogue.apply (.alreadyApplied Dialogue.name)) ∧
    (m.typeRefs.length < Token.maxRow → m.memberRefs.length < Token.maxRow →
      ∀ r, Dialogue.KeyNamed r m) := by
  have hm := editable_of_read hload
  refine ⟨?_, ?_, ?_⟩
  · intro set r os m' hset happly
    exact PatchSet.refuses_of_apply hload hset happly
  · intro r o m' happly hkey
    exact Dialogue.refuses_of_apply hm hkey happly
  · intro htypeRefs hmemberRefs r
    exact Dialogue.keyNamed_of_length hm.wellFormed.numbered htypeRefs hmemberRefs

namespace Sample

def repeated (n : Nat) (opcode : Opcode) (operand : Operand Nat) : List (Instruction Nat) :=
  List.replicate n ⟨opcode, operand, none⟩

/-- How many instructions of nine bytes and of one byte come before each duration. -/
def gaps : List (Nat × Nat) :=
  [(10, 7), (21, 5), (15, 4), (8, 3), (4, 8), (5, 0), (8, 5), (4, 8), (5, 0)]

/-- Code that returns at once and has a duration at every offset of the menu patch. -/
def fades : Listing where
  code := ⟨.ret, .none, none⟩ :: (gaps.flatMap fun (longs, nops) =>
    repeated longs .ldcI8 (.immediate (.int64 0)) ++ repeated nops .nop .none ++
      [⟨.ldcR4, .immediate (.float32 0x3FC00000), none⟩])
  handlers := []
  maxStack := 8
  locals := .null
  initLocals := false

def fadesCode : Bytes :=
  0x2A :: (gaps.flatMap fun (longs, nops) =>
    (List.replicate longs ((0x21 : UInt8) :: List.replicate 8 0)).flatten ++
      (List.replicate nops 0 ++ [0x22, 0, 0, 0xC0, 0x3F]))

/-- Code that returns at once and has what the dialogue patch relies on, and the same once more
three positions earlier: there it is found again when the key check has moved everything by three. -/
def typing : Listing where
  code := [⟨.ret, .none, none⟩] ++ repeated 97 .nop .none ++ [⟨.ldarg0, .none, none⟩] ++
    repeated 2 .nop .none ++ [⟨.ldarg0, .none, none⟩] ++ repeated 33 .nop .none ++
    [⟨.br, .target 98, none⟩] ++ repeated 2 .nop .none ++ [⟨.br, .target 101, none⟩] ++
    repeated 3 .nop .none
  handlers := []
  maxStack := 8
  locals := .null
  initLocals := false

def typingCode : Bytes :=
  0x2A :: List.replicate 97 0 ++ [0x02, 0, 0, 0x02] ++ List.replicate 33 0 ++
    [0x38, 0xD6, 0xFF, 0xFF, 0xFF, 0, 0, 0x38, 0xD2, 0xFF, 0xFF, 0xFF, 0, 0, 0]

/-- A body with a fat header and without locals and handlers. -/
def stored (code : Bytes) : Bytes :=
  [0x03, 0x30, 8, 0] ++ (Bytes.ofNat 4 code.length ++ (Bytes.ofNat 4 0 ++ code))

def moveNext (row : Nat) (l : Listing) (code : Bytes) : MethodDef :=
  ⟨.ofParts Token.methodDef row, default, "MoveNext", .ofInstance [] "System.Boolean",
    some (Body.ofListing ⟨0, row⟩ l), some (stored code)⟩

def slowText : TypeDef :=
  ⟨.ofParts Token.typeDef 2, 0, Dialogue.typeName,
    [⟨.ofParts Token.fieldDef 1, 0, "$current", "System.Object"⟩,
      ⟨.ofParts Token.fieldDef 2, 0, "uiText", Dialogue.textType⟩,
      ⟨.ofParts Token.fieldDef 3, 0, "<t>__0", Dialogue.stringType⟩],
    [moveNext 2 typing typingCode]⟩

def coroutines : List TypeDef :=
  [⟨.ofParts Token.typeDef 1, 0, Transitions.typeName, [], [moveNext 1 fades fadesCode]⟩, slowText]

/-- A game with both coroutines that imports a type without a name so many times. -/
def smallGame (n : Nat) : Module :=
  { Module.ofTypeRefs n with types := coroutines }

theorem decode_fades (id : BodyId) :
    Body.decode id (stored fadesCode) = .ok (Body.ofListing id fades) := by
  have hparse : Header.parse (stored fadesCode)
      = .ok ⟨12, fadesCode.length, 8, .null, true, false, []⟩ := by decide +kernel
  have hcode : Header.code ⟨12, fadesCode.length, 8, .null, true, false, []⟩ (stored fadesCode)
      = .ok fadesCode := by decide +kernel
  have hraws : Stream.decode fadesCode = .ok (Layout.raws fades.code) := by decide +kernel
  have hlinked : fades.Linked := ⟨by decide +kernel, fun _ h => (List.not_mem_nil h).elim⟩
  exact Body.decode_eq_ofListing hlinked hparse hcode hraws rfl ⟨rfl, rfl, rfl, rfl⟩ id

theorem decode_typing (id : BodyId) :
    Body.decode id (stored typingCode) = .ok (Body.ofListing id typing) := by
  have hparse : Header.parse (stored typingCode)
      = .ok ⟨12, typingCode.length, 8, .null, true, false, []⟩ := by decide +kernel
  have hcode : Header.code ⟨12, typingCode.length, 8, .null, true, false, []⟩ (stored typingCode)
      = .ok typingCode := by decide +kernel
  have hraws : Stream.decode typingCode = .ok (Layout.raws typing.code) := by decide +kernel
  have hlinked : typing.Linked := ⟨by decide +kernel, fun _ h => (List.not_mem_nil h).elim⟩
  exact Body.decode_eq_ofListing hlinked hparse hcode hraws rfl ⟨rfl, rfl, rfl, rfl⟩ id

theorem loaded_moveNext (row : Nat) {l : Listing} {code : Bytes} (hpos : 0 < row) (hrow : row < 256)
    (hdecode : ∀ id, Body.decode id (stored code) = .ok (Body.ofListing id l)) :
    (moveNext row l code).Loaded 0 ∧ (moveNext row l code).WellFormed := by
  have hsame : (moveNext row l code).token.row = row := by
    rw [moveNext, Token.row_ofParts]
    omega
  refine MethodDef.loaded_of_decode (Token.table_ofParts (by decide)) (by omega) rfl rfl ?_
  rw [hsame]
  exact hdecode ⟨0, row⟩

theorem loaded_coroutines : ∀ t ∈ coroutines, t.Loaded 0 ∧ t.WellFormed := by
  have hfades := loaded_moveNext 1 (by decide) (by decide) decode_fades
  have htyping := loaded_moveNext 2 (by decide) (by decide) decode_typing
  refine List.forall_mem_cons.mpr ⟨⟨⟨nofun, ?_⟩, ⟨nofun, ?_⟩⟩,
    List.forall_mem_singleton.mpr ⟨⟨by decide, ?_⟩, ⟨by decide, ?_⟩⟩⟩
  · exact List.forall_mem_singleton.mpr hfades.1
  · exact List.forall_mem_singleton.mpr hfades.2
  · exact List.forall_mem_singleton.mpr htyping.1
  · exact List.forall_mem_singleton.mpr htyping.2

theorem loaded_smallGame (n : Nat) : (smallGame n).Loaded 0 where
  fieldRows :=
    show ((coroutines.flatMap TypeDef.fields).map fun f => f.token.row).Nodup by decide
  methodRows :=
    show ((coroutines.flatMap TypeDef.methods).map fun x => x.token.row).Nodup by decide
  types t ht := (loaded_coroutines t ht).1

theorem wellFormed_smallGame (n : Nat) : (smallGame n).WellFormed where
  types := rfl
  typeRefs := (Module.wellFormed_ofTypeRefs n).typeRefs
  memberRefs := rfl
  members t ht := (loaded_coroutines t ht).2
  parents := nofun

theorem writable_coroutines : ∀ t ∈ coroutines, (Prefixed.bytes t.name).isOk ∧
    (Image.writeTable Image.writeField t.fields).isOk ∧ t.methods.length < UInt32.size ∧
    ∀ x ∈ t.methods, (Prefixed.bytes x.name).isOk ∧ (Image.writeSignature x.signature).isOk := by
  decide +kernel

theorem exists_toBytes_smallGame {n : Nat} (hn : n < UInt32.size) :
    ∃ data, (smallGame n).toBytes = .ok data := by
  have hcount : (smallGame n).typeRefs.length < UInt32.size := by
    rwa [smallGame, Module.length_ofTypeRefs]
  have hraw : ∀ t ∈ coroutines, ∀ x ∈ t.methods,
      x.raw.any (fun raw => raw.length < UInt32.size) = true := by
    decide +kernel
  refine Image.exists_write Module.exists_empty_text
    (Image.exists_writeTypes (show 2 < UInt32.size by decide) writable_coroutines ?_)
    (Image.exists_writeTable hcount fun _ hr => Module.exists_writeTypeRef_ofTypeRefs hr) ⟨_, rfl⟩
    ⟨_, rfl⟩
  intro t ht x hx
  obtain ⟨raw, hstored, hlength⟩ := (Option.any_eq_true _ _).mp (hraw t ht x hx)
  refine ⟨raw, ?_, of_decide_eq_true hlength⟩
  rw [Image.storedBody, hstored]

theorem exists_read_smallGame {n : Nat} (hn : n < UInt32.size) :
    ∃ data, Image.read 0 data = .ok (smallGame n) := by
  obtain ⟨data, hdata⟩ := exists_toBytes_smallGame hn
  exact ⟨data, (loaded_smallGame n).read_eq (wellFormed_smallGame n) nofun hdata⟩

/-- A module with methods of one type. -/
def library (name typeName : String) (methods : List (String × Signature)) : Module :=
  { Module.empty name with
    types := [⟨.ofParts Token.typeDef 1, 0, typeName, [], methods.zipIdx.map fun (x, k) =>
      ⟨.ofParts Token.methodDef (k + 1), default, x.1, x.2, none, none⟩⟩] }

def libraries : References :=
  [library "mscorlib.dll" Dialogue.stringType
      [("Concat", .ofStatic ["System.String", "System.String"] "System.String")],
    library "UnityEngine.dll" Dialogue.inputType
      [("GetKey", .ofStatic ["UnityEngine.KeyCode"] "System.Boolean")],
    library "UnityEngine.UI.dll" Dialogue.textType
      [("get_text", .ofInstance [] "System.String"),
        ("set_text", .ofInstance ["System.String"] Signature.void)]]

/-- The handles of the durations. -/
def durations (id : BodyId) : List Handle :=
  [18, 45, 65, 77, 90, 96, 110, 123, 129].map (Handle.mk id)

theorem patchedBody_fades (n : Nat) :
    (smallGame n).patchedBody Transitions.typeName Transitions.methodName
      = .ok (⟨0, 0⟩, Body.ofListing ⟨0, 1⟩ fades) := by
  rfl

theorem instruction_ofListing {id : BodyId} {l : Listing} {p : Nat} {i : Instruction Nat}
    (hi : l.code[p]? = some i) : (Body.ofListing id l).instruction ⟨id, p⟩
      = .ok ⟨i.opcode, i.operand.map (Handle.mk id), some ((Layout.ofCode l.code).offset p)⟩ := by
  apply Body.instruction_eq_ok_iff.mpr
  apply Body.mem_entries_iff.mp
  refine List.mem_of_getElem? (i := p) ?_
  rw [Body.entries_ofListing, List.getElem?_map, List.getElem?_zipIdx, hi]
  simp

theorem resolve_fades : Transitions.descriptor.resolve (Body.ofListing ⟨0, 1⟩ fades)
    = .ok (durations ⟨0, 1⟩) := by
  have hscan : (Body.ofListing ⟨0, 1⟩ fades).scan Transitions.offsets
      = (durations ⟨0, 1⟩).map some := by
    rw [Body.scan, Body.entries_ofListing]
    decide +kernel
  have hcode : ∀ p ∈ [18, 45, 65, 77, 90, 96, 110, 123, 129],
      fades.code[p]? = some ⟨.ldcR4, .immediate (.float32 0x3FC00000), none⟩ := by
    decide +kernel
  refine Transitions.resolve_of_scan rfl hscan rfl ?_
  intro h hh
  obtain ⟨p, hp, rfl⟩ := List.mem_map.mp hh
  have hother : (.immediate (.float32 0x3FC00000) : Operand Handle) ≠ Transitions.duration := by
    decide
  exact ⟨_, instruction_ofListing (hcode p hp), rfl, hother⟩

/-- The small game with the durations replaced. -/
def shortenedGame (n : Nat) : Module :=
  (smallGame n).modifyMethod ⟨0, 0⟩ fun x => x.withBody (Descriptor.replaceAll
    (Transitions.descriptor.literalEdits .ldcR4 (.float32 0x38D1B717) (durations ⟨0, 1⟩))
    (Body.ofListing ⟨0, 1⟩ fades)).2

theorem apply_transitions (n : Nat) :
    ∃ o, Transitions.descriptor.apply (smallGame n) = (.ok o, shortenedGame n) := by
  have hvalid : Transitions.descriptor.validate = .ok () := by decide
  exact ⟨_, Descriptor.apply_of_resolve_eq_ok Transitions.writes_descriptor hvalid
    (patchedBody_fades n) (Body.fresh_of_decode (decode_fades ⟨0, 1⟩)) resolve_fades⟩

def symbols : Dialogue.Symbols where
  getKey := .ofParts Token.memberRef 1
  getText := .ofParts Token.memberRef 2
  setText := .ofParts Token.memberRef 3
  concat := .ofParts Token.memberRef 4
  current := .ofParts Token.fieldDef 1
  uiText := .ofParts Token.fieldDef 2
  text := .ofParts Token.fieldDef 3
  empty := .ofParts Token.userString 1

/-- The imported types, after so many rows. -/
def newTypes (n : Nat) : List TypeRef :=
  [⟨.ofParts Token.typeRef (n + 1), "UnityEngine.dll", Dialogue.inputType⟩,
    ⟨.ofParts Token.typeRef (n + 2), "UnityEngine.UI.dll", Dialogue.textType⟩,
    ⟨.ofParts Token.typeRef (n + 3), "mscorlib.dll", Dialogue.stringType⟩]

def newMembers (n : Nat) : List MemberRef :=
  [⟨.ofParts Token.memberRef 1, .ofParts Token.typeRef (n + 1), "GetKey",
      .method (.ofStatic ["UnityEngine.KeyCode"] "System.Boolean")⟩,
    ⟨.ofParts Token.memberRef 2, .ofParts Token.typeRef (n + 2), "get_text",
      .method (.ofInstance [] "System.String")⟩,
    ⟨.ofParts Token.memberRef 3, .ofParts Token.typeRef (n + 2), "set_text",
      .method (.ofInstance ["System.String"] Signature.void)⟩,
    ⟨.ofParts Token.memberRef 4, .ofParts Token.typeRef (n + 3), "Concat",
      .method (.ofStatic ["System.String", "System.String"] "System.String")⟩]

/-- A module that imports types without a name, and some of the new types and members. -/
def importing (m : Module) (n types members : Nat) : Module :=
  { m with
    typeRefs := (Module.ofTypeRefs n).typeRefs ++ (newTypes n).take types
    memberRefs := (newMembers n).take members }

theorem importedType?_importing {m : Module} {n types members : Nat} {scope name : String}
    (hname : name ≠ "") : (importing m n types members).importedType? scope name
      = ((newTypes n).take types).find? fun r => r.scope == scope && r.name == name := by
  have hnone : (Module.ofTypeRefs n).typeRefs.find? (fun r => r.scope == scope && r.name == name)
      = none := by
    apply List.find?_eq_none.mpr
    intro r hr
    obtain ⟨k, -, rfl⟩ := List.mem_map.mp hr
    simp [hname.symm]
  rw [Module.importedType?, importing, List.find?_append, hnone, Option.none_or]

/-- The members that the patch imports from the libraries have the tokens of the symbols. -/
structure Imports (m m₁ m₂ m₃ m₄ : Module) : Prop where
  getKey : m.importMember "UnityEngine.dll" Dialogue.inputType "GetKey"
    (.method (.ofStatic ["UnityEngine.KeyCode"] "System.Boolean")) = (symbols.getKey, m₁)
  getText : m₁.importMember "UnityEngine.UI.dll" Dialogue.textType "get_text"
    (.method (.ofInstance [] "System.String")) = (symbols.getText, m₂)
  setText : m₂.importMember "UnityEngine.UI.dll" Dialogue.textType "set_text"
    (.method (.ofInstance ["System.String"] Signature.void)) = (symbols.setText, m₃)
  concat : m₃.importMember "mscorlib.dll" Dialogue.stringType "Concat"
    (.method (.ofStatic ["System.String", "System.String"] "System.String")) = (symbols.concat, m₄)

theorem imports_new (m : Module) (n : Nat) : Imports (importing m n 0 0) (importing m n 1 1)
    (importing m n 2 2) (importing m n 2 3) (importing m n 3 4) := by
  constructor <;>
  · rw [Module.importMember, Module.importType, importedType?_importing (by decide)]
    simp [Module.addTypeRef, Module.importedMember?, importing, Module.addMemberRef,
      Module.length_ofTypeRefs, newTypes, newMembers, symbols]

theorem imports_again (m : Module) (n : Nat) : Imports (importing m n 3 4) (importing m n 3 4)
    (importing m n 3 4) (importing m n 3 4) (importing m n 3 4) := by
  constructor <;>
  · rw [Module.importMember, Module.importType, importedType?_importing (by decide)]
    simp [Module.importedMember?, importing, newTypes, newMembers, symbols]

theorem Imports.importSymbols_eq {m m₁ m₂ m₃ m₄ m' : Module} (h : Imports m m₁ m₂ m₃ m₄)
    (hfield : ∀ name, m₄.findField Dialogue.typeName name = slowText.findField name)
    (hempty : m₄.userString "" = (symbols.empty, m')) :
    Dialogue.importSymbols libraries m = (.ok symbols, m') := by
  refine Dialogue.importSymbols_eq_ok_iff.mpr ⟨m₁, m₂, m₃, m₄,
    Dialogue.importRequest_eq_ok_iff.mpr ⟨_, _, _, rfl, rfl, h.getKey⟩,
    Dialogue.importRequest_eq_ok_iff.mpr ⟨_, _, _, rfl, rfl, h.getText⟩,
    Dialogue.importRequest_eq_ok_iff.mpr ⟨_, _, _, rfl, rfl, h.setText⟩,
    Dialogue.importRequest_eq_ok_iff.mpr ⟨_, _, _, rfl, rfl, h.concat⟩, ?_, ?_, ?_, hempty⟩
  · rw [hfield]
    rfl
  · rw [hfield]
    rfl
  · rw [hfield]
    rfl

/-- Where the dialogue patch goes. -/
def site : Dialogue.Site where
  place := ⟨1, 0⟩
  body := Body.ofListing ⟨0, 2⟩ typing
  resume := ⟨⟨0, 2⟩, 101⟩
  skip := ⟨⟨0, 2⟩, 141⟩
  keyCheck := ⟨⟨0, 2⟩, 68⟩

theorem isKeyCheck_ofListing {l : Listing} (m : Module) (id : BodyId)
    (hflow : ∀ i ∈ l.code, (i.opcode.flow == .call) = false) :
    ((Body.ofListing id l).entries.any fun e => Dialogue.isKeyCheck m e.2) = false := by
  rw [Body.entries_ofListing, List.any_eq_false]
  intro e he
  obtain ⟨⟨i, p⟩, hi, rfl⟩ := List.mem_map.mp he
  have hi := hflow i (List.fst_mem_of_mem_zipIdx hi)
  simp only [Dialogue.isKeyCheck, Instruction.calls, hi, Bool.false_and]
  split <;> exact Bool.false_ne_true

/-- The body that the dialogue patch leaves. -/
def skippable : Body :=
  (Dialogue.insert site symbols site.body).2

/-- A game with the dialogue patch that imports types without a name so many times. -/
def skippableGame (m : Module) (n : Nat) : Module :=
  importing ({ m with userStrings := [""] }.modifyMethod site.place fun x => x.withBody skippable)
    n 3 4

/-- The dialogue patch fits a game that imports only types without a name. -/
theorem apply_dialogue {m : Module} {n : Nat} (hsame : importing m n 0 0 = m)
    (hstrings : m.userStrings = []) (htype : m.findType Dialogue.typeName = .ok slowText)
    (hbody : m.patchedBody Dialogue.typeName Dialogue.methodName = .ok (site.place, site.body)) :
    ∃ o, Dialogue.apply libraries m = (.ok o, skippableGame m n) := by
  have hflow : ∀ i ∈ typing.code, (i.opcode.flow == .call) = false := by decide +kernel
  have hfound : Dialogue.findSite m = .ok site := by
    refine Dialogue.findSite_eq_ok_iff.mpr
      ⟨hbody, isKeyCheck_ofListing m ⟨0, 2⟩ hflow, ?_, ?_, ?_, ?_⟩ <;>
    decide +kernel
  have hsymbols : Dialogue.importSymbols libraries m
      = (.ok symbols, importing { m with userStrings := [""] } n 3 4) := by
    have himports := imports_new m n
    rw [hsame] at himports
    refine himports.importSymbols_eq (fun name => bind_of_ok htype) ?_
    rw [Module.userString, importing, hstrings]
    rfl
  have hok : (Dialogue.insert site symbols site.body).1.isOk := by decide +kernel
  obtain ⟨inserted, hinserted⟩ := exists_of_isOk hok
  have hinsert : Dialogue.insert site symbols site.body = (.ok inserted, skippable) := by
    rw [skippable, ← hinserted]
  exact ⟨_, Dialogue.apply_eq_ok_iff.mpr ⟨site, symbols, _, inserted, skippable, hfound, hsymbols,
    hinsert, rfl, rfl⟩⟩

theorem importing_smallGame (n : Nat) : importing (smallGame n) n 0 0 = smallGame n := by
  rw [importing, List.take_zero, List.append_nil]
  rfl

theorem apply_dialogue_smallGame (n : Nat) :
    ∃ o, Dialogue.apply libraries (smallGame n) = (.ok o, skippableGame (smallGame n) n) :=
  apply_dialogue (importing_smallGame n) rfl rfl rfl

theorem apply_dialogue_shortenedGame (n : Nat) : ∃ o,
    Dialogue.apply libraries (shortenedGame n) = (.ok o, skippableGame (shortenedGame n) n) := by
  refine apply_dialogue ?_ rfl rfl rfl
  rw [importing, List.take_zero, List.append_nil]
  rfl

/-- The small game with both patches. -/
def patchedGame : Module :=
  skippableGame (shortenedGame 0) 0

theorem exists_encode {b : Body} {resolve : Resolver} {returnsValue : Bool} (hb : b.Linked)
    (h : (b.ranked.assemble resolve returnsValue >>= fun p => p.1.write p.2).toOption.any
      (fun bytes => bytes.length < UInt32.size) = true) :
    ∃ bytes, b.encode resolve returnsValue = .ok bytes ∧ bytes.length < UInt32.size := by
  cases hok : b.ranked.assemble resolve returnsValue >>= fun p => p.1.write p.2 with
  | error e =>
      rw [hok] at h
      cases h
  | ok bytes =>
      rw [hok] at h
      obtain ⟨⟨header, code⟩, hassemble, hwrite⟩ := bind_eq_ok.mp hok
      exact ⟨bytes, Body.encode_of_listing hb.listing_eq hassemble hwrite, of_decide_eq_true h⟩

theorem exists_toBytes_patchedGame (hm : patchedGame.Editable) :
    ∃ bytes, patchedGame.toBytes = .ok bytes := by
  have hstored : ∀ t ∈ patchedGame.types, ∀ x ∈ t.methods, x.body.any (fun b =>
      (b.ranked.assemble patchedGame.signatureOf? x.signature.returnsValue >>= fun p =>
        p.1.write p.2).toOption.any fun bytes => bytes.length < UInt32.size) = true := by
    decide +kernel
  have hraw : ∀ t ∈ patchedGame.types, ∀ x ∈ t.methods, x.raw = none := by decide +kernel
  refine Image.exists_write (exists_of_isOk (by decide +kernel))
    (Image.exists_writeTypes (show 2 < UInt32.size by decide) (by decide +kernel) ?_)
    (exists_of_isOk (by decide +kernel)) (exists_of_isOk (by decide +kernel))
    (exists_of_isOk (by decide +kernel))
  intro t ht x hx
  obtain ⟨b, hbody, hencode⟩ := (Option.any_eq_true _ _).mp (hstored t ht x hx)
  rw [Image.storedBody, hraw t ht x hx, hbody]
  exact exists_encode (hm.bodies t ht x hx b hbody).linked hencode

theorem exists_patched_smallGame : ∃ data first second bytes,
    Image.read 0 data = .ok (smallGame 0) ∧
    Transitions.descriptor.apply (smallGame 0) = (.ok first, shortenedGame 0) ∧
    Dialogue.apply libraries (shortenedGame 0) = (.ok second, patchedGame) ∧
    patchedGame.Editable ∧ patchedGame.toBytes = .ok bytes := by
  obtain ⟨data, hread⟩ := exists_read_smallGame (n := 0) (by decide)
  obtain ⟨first, hfirst⟩ := apply_transitions 0
  obtain ⟨second, hsecond⟩ := apply_dialogue_shortenedGame 0
  have heditable : patchedGame.Editable := Dialogue.editable_apply
    (Descriptor.editable_apply Transitions.writes_descriptor (loaded_smallGame 0)
      (Module.editable_of_read hread) hfirst) hsecond
  obtain ⟨bytes, hbytes⟩ := exists_toBytes_patchedGame heditable
  exact ⟨data, first, second, bytes, hread, hfirst, hsecond, heditable, hbytes⟩

/-- Both patches apply to the small game, and neither applies again. -/
theorem builtin_applies_once_smallGame : ∃ data set os bytes m' o m'',
    Image.read 0 data = .ok (smallGame 0) ∧ PatchSet.builtin = .ok set ∧
    set.apply libraries (smallGame 0) = (.ok os, patchedGame) ∧
    patchedGame.toBytes = .ok bytes ∧ Module.load 1 bytes = .ok m' ∧
    (∀ r, set.apply r m'
      = (.error (.patchFailed Transitions.name (.alreadyApplied Transitions.name)), m')) ∧
    Dialogue.apply libraries (smallGame 0) = (.ok o, m'') ∧
    m''.Refuses Dialogue.apply (.alreadyApplied Dialogue.name) := by
  obtain ⟨data, first, second, bytes, hread, hfirst, hsecond, heditable, hbytes⟩ :=
    exists_patched_smallGame
  obtain ⟨hset, hdialogue, hkey⟩ := Module.builtin_applies_once hread
  obtain ⟨o, halone⟩ := apply_dialogue_smallGame 0
  have happly := PatchSet.apply_eq_ok_iff.mpr
    (Command.applied_builtin_iff.mpr ⟨first, second, _, hfirst, hsecond, rfl⟩)
  obtain ⟨m', hload, -, -⟩ := Image.exists_read heditable.wellFormed heditable.storable
    (by decide) hbytes 1
  rw [← Module.load_of_write hbytes] at hload
  refine ⟨data, _, _, bytes, m', o, _, hread, Command.builtin_eq_ok, happly, hbytes, hload, ?_,
    halone, hdialogue _ _ _ halone (hkey (by decide) (by decide) libraries)⟩
  exact (hset _ _ _ _ Command.builtin_eq_ok happly).reloaded bytes 1 m' hbytes hload

/-- The folder of a game with the libraries beside it. -/
def gameFolder (game strings input text : Bytes) : Directory :=
  ⟨[(["a"], .file game), (["mscorlib.dll"], .file strings), (["UnityEngine.dll"], .file input),
    (["UnityEngine.UI.dll"], .file text)]⟩

theorem exists_read_library {m : Module} {origin : Nat}
    (h : (m.toBytes >>= Image.read origin) = .ok m) : ∃ data, Image.read origin data = .ok m := by
  obtain ⟨data, -, hread⟩ := bind_eq_ok.mp h
  exact ⟨data, hread⟩

theorem exists_open_libraries : ∃ strings input text, ∀ game,
    References.open 1 (gameFolder game strings input text) (Path.folder Command.here "a")
      PatchSet.referenceNames = .ok libraries := by
  obtain ⟨strings, hstrings⟩ : ∃ data, Image.read 1 data = .ok libraries[0] :=
    exists_read_library (by decide +kernel)
  obtain ⟨input, hinput⟩ : ∃ data, Image.read 2 data = .ok libraries[1] :=
    exists_read_library (by decide +kernel)
  obtain ⟨text, htext⟩ : ∃ data, Image.read 3 data = .ok libraries[2] :=
    exists_read_library (by decide +kernel)
  refine ⟨strings, input, text, fun game => mapM_eq_ok_iff.mpr ?_⟩
  exact .cons (Module.open_eq_ok rfl hstrings) (.cons (Module.open_eq_ok rfl hinput)
    (.cons (Module.open_eq_ok rfl htext) .nil))

/-- The command patches the small game, and a dry run of it succeeds. -/
theorem execute_patching_smallGame : ∃ d stored, Command.Patchable d "a" stored ∧
    (Command.execute d (.patching "a" false false false)).exitCode = 0 ∧
    d.Replaced "a" stored (Command.execute d (.patching "a" false false false)).directory ∧
    (Command.execute d (.patching "a" true false false)).exitCode = 0 := by
  obtain ⟨game, first, second, bytes, hread, hfirst, hsecond, -, hbytes⟩ :=
    exists_patched_smallGame
  obtain ⟨strings, input, text, hopen⟩ := exists_open_libraries
  have htarget : (gameFolder game strings input text).read "a" = .ok game :=
    Directory.read_eq_ok_iff.mpr ⟨rfl, Image.ne_nil_of_read hread⟩
  have hpatchable : Command.Patchable (gameFolder game strings input text) "a" bytes :=
    ⟨htarget, hread, hopen game, hfirst, hsecond, hbytes⟩
  have hdestination : (gameFolder game strings input text).destination? "a" = some ["a"] := rfl
  have hget : (gameFolder game strings input text).get? ["a"] ≠ some .directory := by
    rw [show (gameFolder game strings input text).get? ["a"] = some (.file game) from rfl]
    nofun
  obtain ⟨hresult, hsucceeds, -, hdry⟩ :=
    Command.execute_patching (gameFolder game strings input text) "a" false false
  have hexit := hsucceeds.mpr
    ⟨bytes, _, hpatchable, Directory.write_of_destination? rfl hdestination hget bytes⟩
  rcases hresult with ⟨hfail, -⟩ | ⟨-, -, stored, hstored, hreplaced⟩
  · exact absurd (hexit.symm.trans hfail) (by decide)
  · exact ⟨_, stored, hstored, hexit, hreplaced, hdry.mpr ⟨bytes, hpatchable⟩⟩

/-- A full table of imported types. -/
def fullGame : Module :=
  smallGame Token.maxRow

/-- Without room for another imported type, the patch does not recognise its key check. -/
theorem exists_site_again : ∃ again inserted b,
    Dialogue.findSite (skippableGame fullGame Token.maxRow) = .ok again ∧
      Dialogue.insert again symbols again.body = (.ok inserted, b) := by
  have hok : (Dialogue.findSite (skippableGame fullGame Token.maxRow) >>= fun again =>
      (Dialogue.insert again symbols again.body).1).isOk := by
    decide +kernel
  obtain ⟨inserted, hinserted⟩ := exists_of_isOk hok
  obtain ⟨again, hagain, hinsert⟩ := bind_eq_ok.mp hinserted
  exact ⟨again, inserted, _, hagain, Prod.ext hinsert rfl⟩

/-- With a full table of imported types, the dialogue patch applies to the same game twice. -/
theorem dialogue_applies_again : ∃ data o m' o' m'', Image.read 0 data = .ok fullGame ∧
    Dialogue.apply libraries fullGame = (.ok o, m') ∧
    Dialogue.apply libraries m' = (.ok o', m'') ∧
    ¬ m'.Refuses Dialogue.apply (.alreadyApplied Dialogue.name) := by
  obtain ⟨data, hread⟩ := exists_read_smallGame (n := Token.maxRow) (by decide)
  obtain ⟨o, hfirst⟩ := apply_dialogue_smallGame Token.maxRow
  obtain ⟨again, inserted, b, hagain, hinsert⟩ := exists_site_again
  have hsymbols : Dialogue.importSymbols libraries (skippableGame fullGame Token.maxRow)
      = (.ok symbols, skippableGame fullGame Token.maxRow) :=
    (imports_again _ Token.maxRow).importSymbols_eq (fun _ => rfl) rfl
  have hsecond := Dialogue.apply_eq_ok_iff.mpr ⟨again, symbols, _, inserted, b, hagain, hsymbols,
    hinsert, rfl, rfl⟩
  refine ⟨data, o, _, _, _, hread, hfirst, hsecond, ?_⟩
  intro hrefuses
  cases hsecond.symm.trans (hrefuses.here libraries)

end Sample

end CilEdit

import CilEdit.Proofs.Overwriting
import CilEdit.Proofs.Places

namespace CilEdit

def MethodDef.stripped (x : MethodDef) : MethodDef :=
  { x with body := none, raw := none }

def TypeDef.stripped (t : TypeDef) : TypeDef :=
  { t with methods := t.methods.map MethodDef.stripped }

/-- The module without the bodies of its methods. -/
def Module.stripped (m : Module) : Module :=
  { m with types := m.types.map TypeDef.stripped }

theorem MethodDef.Restores.stripped_eq {x x' : MethodDef} (h : x.Restores x') :
    x'.stripped = x.stripped := by
  rw [MethodDef.stripped, MethodDef.stripped, h.token, h.flags, h.name, h.signature]

theorem TypeDef.Restores.stripped_eq {t t' : TypeDef} (h : t.Restores t') :
    t'.stripped = t.stripped := by
  have hmethods : t'.methods.map MethodDef.stripped = t.methods.map MethodDef.stripped :=
    map_eq_of_forall₂ (h.methods.imp fun _ _ hx => hx.stripped_eq)
  rw [TypeDef.stripped, TypeDef.stripped, h.token, h.flags, h.name, h.fields, hmethods]

namespace Module

variable {m m' : Module} {place other : MethodPlace} {x : MethodDef}

theorem Restores.stripped_eq (h : m.Restores m') : m'.stripped = m.stripped := by
  have htypes : m'.types.map TypeDef.stripped = m.types.map TypeDef.stripped :=
    map_eq_of_forall₂ (h.types.imp fun _ _ ht => ht.stripped_eq)
  rw [stripped, stripped, h.name, htypes, h.typeRefs, h.memberRefs, h.userStrings]

theorem stripped_modifyMethod (m : Module) (place : MethodPlace) (b : Body) :
    (m.modifyMethod place fun x => x.withBody b).stripped = m.stripped := by
  have htypes : (m.modifyMethod place fun x => x.withBody b).types.map TypeDef.stripped
      = m.types.map TypeDef.stripped := by
    apply map_modify_of_eq
    intro t
    have hmethods : (t.methods.modify place.method fun x => x.withBody b).map MethodDef.stripped
        = t.methods.map MethodDef.stripped := by
      apply map_modify_of_eq
      intro x
      rfl
    rw [TypeDef.stripped, TypeDef.stripped, hmethods]
  rw [stripped, stripped, htypes]
  rfl

theorem methodAt?_modifyMethod_of_ne (hne : other ≠ place) (change : MethodDef → MethodDef) :
    (m.modifyMethod place change).methodAt? other = m.methodAt? other := by
  rw [methodAt?, methodAt?, Module.modifyMethod, List.getElem?_modify]
  by_cases htype : place.type = other.type
  · have hmethod : place.method ≠ other.method := by
      intro hsame
      refine hne ?_
      cases place
      cases other
      cases htype
      cases hsame
      rfl
    rw [htype]
    cases m.types[other.type]? with
    | none => rfl
    | some t => simp [hmethod]
  · simp [htype]

theorem Rereads.exists_methodAt? (h : m.Rereads m') (hx : m.methodAt? place = some x) :
    ∃ x', m'.methodAt? place = some x' ∧ x.Rereads m x' := by
  obtain ⟨t, ht, hxt⟩ := methodAt?_eq_some_iff.mp hx
  obtain ⟨t', ht', htypes⟩ := exists_getElem?_of_forall₂ h.types ht
  obtain ⟨x', hx', hmethod⟩ := exists_getElem?_of_forall₂ htypes.methods hxt
  exact ⟨x', methodAt?_eq_some_iff.mpr ⟨t', ht', hx'⟩, hmethod⟩

theorem Loaded.methodAt? {origin : Nat} (hm : m.Loaded origin) (hx : m.methodAt? place = some x) :
    x.Loaded origin := by
  obtain ⟨t, ht, hxt⟩ := methodAt?_eq_some_iff.mp hx
  exact (hm.types t (List.mem_of_getElem? ht)).methods x (List.mem_of_getElem? hxt)

end Module

namespace MethodDef

variable {origin : Nat} {x x' : MethodDef}

/-- A method that was not opened is read back with the bytes that it was loaded with. -/
theorem Loaded.raw_eq (hx : x.Loaded origin) (h : x.Restores x') : x'.raw = x.raw := by
  cases hraw : x.raw with
  | some raw => exact (h.untouched raw hraw).1
  | none =>
      have hbody : x.body = none := by
        rw [Option.eq_none_iff_forall_ne_some]
        intro b hb
        obtain ⟨raw, hsome, -⟩ := hx.stored b hb
        rw [hraw] at hsome
        cases hsome
      exact (h.absent hbody).2

/-- What is loaded for a body that was opened is what the body was encoded to. -/
theorem Rereads.encode_eq {m : Module} {b : Body} (h : (x.withBody b).Rereads m x')
    (hx' : x'.Loaded origin) :
    ∃ stored, x'.raw = some stored ∧
      b.encode m.signatureOf? x.signature.returnsValue = .ok stored := by
  obtain ⟨l, layout, b', -, -, hb', -⟩ := h.edited rfl b rfl
  obtain ⟨stored, hraw, -⟩ := hx'.stored b' hb'
  refine ⟨stored, hraw, ?_⟩
  have hsame := h.stored m
  rw [Image.storedBody, hraw] at hsame
  exact hsame.symm

end MethodDef

/-- The second module is the first one but for the stored body of one method, which the descriptor
patched. -/
structure Descriptor.PatchesOnly (d : Descriptor) (m m' : Module) (place : Module.MethodPlace) :
    Prop where
  stripped : m'.stripped = m.stripped
  others : ∀ other x, other ≠ place → m.methodAt? other = some x →
    ∃ x', m'.methodAt? other = some x' ∧ x'.raw = x.raw
  patched : ∃ x x' stored stored', m.Finds d.typeName d.methodName place x ∧
    m'.methodAt? place = some x' ∧ x.raw = some stored ∧ x'.raw = some stored' ∧
    d.Patches stored stored'

variable {d : Descriptor} {m m' : Module} {o : Outcome} {origin : Nat} {data bytes : Bytes}

/-- A descriptor without switch tables changes the operands at its sites, and nothing else that is
read from the file. -/
theorem Descriptor.patchesOnly_of_apply (hload : Module.load origin data = .ok m)
    (hvalid : d.validate = .ok ()) (hd : d.Switchless) (happly : d.apply m = (.ok o, m'))
    (hbytes : m'.toBytes = .ok bytes) (again : Nat) :
    ∃ place m'', Module.load again bytes = .ok m'' ∧ d.PatchesOnly m m'' place := by
  have hread : Image.read origin data = .ok m := by
    rw [Module.load] at hload
    split at hload
    · cases hload
    · exact hload
  obtain ⟨place, b, edits, b', hplan, hrun, rfl⟩ := apply_eq_ok happly
  obtain ⟨-, hpatched, handles, hresolve, hedits⟩ := plan_eq_ok hplan
  obtain ⟨x, hfinds, hbody⟩ := Module.patchedBody_eq_ok_iff.mp hpatched
  have hloaded := Image.loaded_of_read hread
  obtain ⟨stored, hstored, hdecode⟩ := (hloaded.methodAt? hfinds.found).stored b hbody
  obtain ⟨b'', hrun', hfresh', -⟩ :=
    exists_rewrites (Body.fresh_of_decode hdecode) hvalid hd hresolve hedits
  rw [hrun] at hrun'
  cases hrun'
  have heditable := (Module.editable_of_read hread).modifyMethod hfresh'.toEncodable place
  have hparents := Image.parents_of_read hread
  obtain ⟨m'', hread'', hrereads⟩ := Image.exists_rereads heditable.wellFormed heditable.storable
    (fun r hr => hparents r hr) hbytes again
  refine ⟨place, m'', (Module.load_of_write hbytes again).trans hread'', ?_, ?_, ?_⟩
  · exact hrereads.restores.stripped_eq.trans (m.stripped_modifyMethod place b')
  · intro other y hne hy
    rw [← Module.methodAt?_modifyMethod_of_ne hne fun x => x.withBody b'] at hy
    obtain ⟨y', hy', hsame⟩ := hrereads.exists_methodAt? hy
    rw [Module.methodAt?_modifyMethod_of_ne hne] at hy
    exact ⟨y', hy', (hloaded.methodAt? hy).raw_eq hsame.toRestores⟩
  · obtain ⟨x', hx', hsame⟩ := hrereads.exists_methodAt? (hfinds.modifyMethod b').found
    obtain ⟨stored', hstored', hencode⟩ :=
      hsame.encode_eq ((Image.loaded_of_read hread'').methodAt? hx')
    exact ⟨x, x', stored, stored', hfinds, hx', hstored, hstored',
      patches_of_encode hdecode hvalid hd hresolve hedits hrun hencode⟩

/-- The image of a type with a method that returns a literal. -/
def imageReturning (literal : UInt8) : Bytes :=
  [0x43, 0x49, 0x4C, 0x4D, 1, 0, 0, 0, 1, 77, 1, 0, 0, 0, 0, 0, 0, 0, 1, 84, 0, 0, 0, 0,
    1, 0, 0, 0, 1, 0, 0, 0, 0x10, 0, 1, 102, 0, 0, 1, 73, 4, 0, 0, 0, 0x0E, 0x1F, literal, 0x2A,
    0, 0, 0, 0, 0, 0, 0, 0, 0, 0, 0, 0]

/-- The descriptor that makes the method return 7. -/
def returnSeven : Descriptor where
  name := "return-seven"
  description := "return 7"
  typeName := "T"
  methodName := "f"
  sites := [⟨.offset 0, .ofOpcode .ldcI4S, .replace (.immediate (.int8 7))⟩]

theorem Descriptor.patchesOnly_of_apply_returnSeven : ∃ m o m' place m'',
    Module.load 0 (imageReturning 5) = .ok m ∧ returnSeven.apply m = (.ok o, m') ∧
      m'.toBytes = .ok (imageReturning 7) ∧ Module.load 1 (imageReturning 7) = .ok m'' ∧
      returnSeven.PatchesOnly m m'' place := by
  have hrun : (Module.load 0 (imageReturning 5) >>= fun m =>
      (returnSeven.apply m).1 >>= fun _ => (returnSeven.apply m).2.toBytes)
        = .ok (imageReturning 7) := by
    decide +kernel
  obtain ⟨m, hload, hrun⟩ := bind_eq_ok.mp hrun
  obtain ⟨o, happly, hbytes⟩ := bind_eq_ok.mp hrun
  have hswitchless : returnSeven.Switchless := by
    intro s hs _
    rw [List.mem_singleton.mp hs]
    nofun
  obtain ⟨place, m'', hagain, honly⟩ :=
    patchesOnly_of_apply hload rfl hswitchless (Prod.ext happly rfl) hbytes 1
  exact ⟨m, o, _, place, m'', hload, Prod.ext happly rfl, hbytes, hagain, honly⟩

end CilEdit

import CilEdit.Proofs.Loaded
import CilEdit.Proofs.Overloads

namespace CilEdit

/-- The names of a type and of its methods. -/
def TypeDef.outline (t : TypeDef) : String × List String :=
  (t.name, t.methods.map MethodDef.name)

theorem TypeDef.methodIndex_of_outline {t t' : TypeDef} (h : t'.outline = t.outline)
    {name : String} {k : Nat} (hk : t.methodIndex ⟨name, none⟩ = .ok k) :
    t'.methodIndex ⟨name, none⟩ = .ok k := by
  have hname : ∀ j : Nat,
      (t'.methods[j]?).map MethodDef.name = (t.methods[j]?).map MethodDef.name := by
    intro j
    rw [← List.getElem?_map, ← List.getElem?_map]
    exact congrArg (·[j]?) (Prod.ext_iff.mp h).2
  have haccepts : ∀ x, MethodQuery.accepts ⟨name, none⟩ x = true ↔ x.name = name := by
    intro x
    simp [MethodQuery.accepts_iff]
  obtain ⟨x, hx⟩ := methodIndex_eq_ok_iff.mp hk
  have hfound := hname k
  rw [hx.found, Option.map_some, Option.map_eq_some_iff] at hfound
  obtain ⟨x', hx', hsame⟩ := hfound
  refine methodIndex_eq_ok_iff.mpr ⟨x', hx', ?_, ?_⟩
  · rw [haccepts, hsame]
    exact (haccepts x).mp hx.accepts
  · intro j y' hy' hy
    have hother := hname j
    rw [hy', Option.map_some] at hother
    obtain ⟨y, hfound, hsame'⟩ := Option.map_eq_some_iff.mp hother.symm
    refine hx.alone j y hfound ((haccepts y).mpr ?_)
    rw [hsame']
    exact (haccepts y').mp hy

namespace Module

variable {m m' : Module} {typeName methodName : String} {q : MethodQuery} {place : MethodPlace}
  {b : Body} {x : MethodDef}

theorem placeMethod_eq_ok_iff : m.placeMethod typeName q = .ok place ↔
    m.types.findIdx? (fun t => t.name == typeName) = some place.type ∧
      ∃ t, m.types[place.type]? = some t ∧ t.methodIndex q = .ok place.method := by
  have hfound : m.types.find? (fun t => t.name == typeName)
      = (m.types.findIdx? fun t => t.name == typeName).bind (m.types[·]?) :=
    List.find?_eq_bind_findIdx?_getElem?
  cases hindex : m.types.findIdx? fun t => t.name == typeName with
  | none =>
      rw [hindex] at hfound
      simp only [placeMethod, findType, hfound]
      exact ⟨nofun, fun h => nomatch h.1⟩
  | some index =>
      have hlt := (List.findIdx?_eq_some_iff_findIdx_eq.mp hindex).1
      rw [hindex, Option.bind_some, List.getElem?_eq_getElem hlt] at hfound
      have hfind : m.findType typeName = .ok m.types[index] := by rw [findType, hfound]
      have htype : m.typeIndex typeName = .ok index := by rw [typeIndex, hindex]
      rw [placeMethod, bind_of_ok hfind, bind_of_ok htype, bind_eq_ok]
      constructor
      · rintro ⟨k, hk, hplace⟩
        cases hplace
        exact ⟨rfl, _, List.getElem?_eq_getElem hlt, hk⟩
      · rintro ⟨hsame, t, ht, hk⟩
        cases hsame
        rw [List.getElem?_eq_getElem hlt] at ht
        cases ht
        exact ⟨place.method, hk, rfl⟩

/-- The names of the types of a module and of their methods. -/
def outline (m : Module) : List (String × List String) :=
  m.types.map TypeDef.outline

theorem placeMethod_of_outline (h : m'.outline = m.outline)
    (hplace : m.placeMethod typeName ⟨methodName, none⟩ = .ok place) :
    m'.placeMethod typeName ⟨methodName, none⟩ = .ok place := by
  obtain ⟨hindex, t, ht, hk⟩ := placeMethod_eq_ok_iff.mp hplace
  have hindices : ∀ m : Module, m.types.findIdx? (fun t => t.name == typeName)
      = m.outline.findIdx? fun t => t.1 == typeName := by
    intro m
    rw [outline, List.findIdx?_map]
    rfl
  have houtline : m'.types[place.type]?.map TypeDef.outline = some t.outline := by
    rw [← List.getElem?_map, ← outline, h, outline, List.getElem?_map, ht]
    rfl
  obtain ⟨t', ht', hsame⟩ := Option.map_eq_some_iff.mp houtline
  refine placeMethod_eq_ok_iff.mpr ⟨?_, t', ht', TypeDef.methodIndex_of_outline hsame hk⟩
  rw [hindices, h, ← hindices, hindex]

/-- The look-up of a method by the names of its type and its own gives `x` at `place`. -/
structure Finds (m : Module) (typeName methodName : String) (place : MethodPlace) (x : MethodDef) :
    Prop where
  placed : m.placeMethod typeName ⟨methodName, none⟩ = .ok place
  found : m.methodAt? place = some x

theorem patchedBody_eq_ok_iff : m.patchedBody typeName methodName = .ok (place, b) ↔
    ∃ x, m.Finds typeName methodName place x ∧ x.body = some b := by
  rw [patchedBody, bind_eq_ok]
  constructor
  · rintro ⟨found, hfound, h⟩
    split at h
    · rename_i b' hbody
      cases h
      obtain ⟨x, hx, hbody⟩ := Option.bind_eq_some_iff.mp hbody
      exact ⟨x, ⟨hfound, hx⟩, hbody⟩
    · cases h
  · rintro ⟨x, ⟨hplace, hx⟩, hbody⟩
    refine ⟨place, hplace, ?_⟩
    rw [Option.bind_eq_some_iff.mpr ⟨x, hx, hbody⟩]
    rfl

theorem methodAt?_eq_some_iff : m.methodAt? place = some x ↔
    ∃ t, m.types[place.type]? = some t ∧ t.methods[place.method]? = some x :=
  Option.bind_eq_some_iff

theorem name_of_placeMethod (h : m.placeMethod typeName q = .ok place) :
    ∃ t, m.types[place.type]? = some t ∧ t.name = typeName := by
  obtain ⟨hindex, t, ht, -⟩ := placeMethod_eq_ok_iff.mp h
  obtain ⟨hlt, hname, -⟩ := List.findIdx?_eq_some_iff_getElem.mp hindex
  rw [List.getElem?_eq_getElem hlt] at ht
  cases ht
  exact ⟨_, List.getElem?_eq_getElem hlt, beq_iff_eq.mp hname⟩

theorem outline_modifyMethod (m : Module) (place : MethodPlace) (b : Body) :
    (m.modifyMethod place fun x => x.withBody b).outline = m.outline := by
  rw [outline, outline]
  apply map_modify_of_eq
  intro t
  refine Prod.ext rfl ?_
  apply map_modify_of_eq
  intro x
  rfl

/-- A body that was put at the place of a method is found there. -/
theorem Finds.modifyMethod (h : m.Finds typeName methodName place x) (b : Body) :
    (m.modifyMethod place fun x => x.withBody b).Finds typeName methodName place
      (x.withBody b) where
  placed := placeMethod_of_outline (outline_modifyMethod _ _ _) h.placed
  found := by
    obtain ⟨t, ht, hx⟩ := methodAt?_eq_some_iff.mp h.found
    refine methodAt?_eq_some_iff.mpr
      ⟨{ t with methods := t.methods.modify place.method fun x => x.withBody b }, ?_, ?_⟩
    · simp [Module.modifyMethod, ht]
    · simp [hx]

/-- The methods of types with other names stay as they are. -/
theorem Finds.modifyMethod_of_ne (h : m.Finds typeName methodName place x)
    {otherType otherMethod : String} {other : MethodPlace} {y : MethodDef}
    (hother : m.Finds otherType otherMethod other y) (hne : otherType ≠ typeName) (b : Body) :
    (m.modifyMethod other fun x => x.withBody b).Finds typeName methodName place x where
  placed := placeMethod_of_outline (outline_modifyMethod _ _ _) h.placed
  found := by
    have htypes : other.type ≠ place.type := by
      intro heq
      obtain ⟨t₁, ht₁, hname₁⟩ := name_of_placeMethod h.placed
      obtain ⟨t₂, ht₂, hname₂⟩ := name_of_placeMethod hother.placed
      rw [heq, ht₁] at ht₂
      cases ht₂
      exact hne (hname₂.symm.trans hname₁)
    obtain ⟨t, ht, hx⟩ := methodAt?_eq_some_iff.mp h.found
    refine methodAt?_eq_some_iff.mpr ⟨t, ?_, hx⟩
    simp [Module.modifyMethod, htypes, ht]

/-- References and strings play no part in finding a method. -/
theorem Finds.of_types (h : m.Finds typeName methodName place x) (htypes : m'.types = m.types) :
    m'.Finds typeName methodName place x where
  placed := placeMethod_of_outline (by rw [outline, htypes, outline]) h.placed
  found := by
    rw [methodAt?, htypes]
    exact h.found

theorem Restores.outline (h : m.Restores m') : m'.outline = m.outline := by
  apply map_eq_of_forall₂
  refine h.types.imp fun t t' ht => Prod.ext ht.name ?_
  apply map_eq_of_forall₂
  exact ht.methods.imp fun x x' hx => hx.name

/-- A body that was edited is read back at its place, as it was laid out. -/
theorem Restores.finds (h : m.Restores m') {origin : Nat} (hloaded : m'.Loaded origin)
    (hfound : m.Finds typeName methodName place x) (hopened : x.raw = none)
    (hbody : x.body = some b) (hb : b.Linked) :
    ∃ x' b' layout, m'.Finds typeName methodName place x' ∧ x'.body = some b' ∧ b'.Fresh ∧
      Layout.make b.ranked.code = .ok layout ∧ b.Restores b' layout := by
  obtain ⟨t, ht, htx⟩ := methodAt?_eq_some_iff.mp hfound.found
  obtain ⟨t', ht', htypes⟩ := exists_getElem?_of_forall₂ h.types ht
  obtain ⟨x', hx', hmethod⟩ := exists_getElem?_of_forall₂ htypes.methods htx
  obtain ⟨l, layout, b', hl, hmake, hb', hrestores⟩ := hmethod.edited hopened b hbody
  rw [hb.listing_eq] at hl
  cases hl
  refine ⟨x', b', layout, ⟨placeMethod_of_outline h.outline hfound.placed, ?_⟩, hb', ?_, hmake,
    hrestores⟩
  · exact methodAt?_eq_some_iff.mpr ⟨t', ht', hx'⟩
  · exact hloaded.fresh (List.mem_of_getElem? ht') (List.mem_of_getElem? hx') hb'

theorem Loaded.fresh_of_finds {origin : Nat} (hm : m.Loaded origin)
    (hfound : m.Finds typeName methodName place x) (hbody : x.body = some b) : b.Fresh := by
  obtain ⟨t, ht, hx⟩ := methodAt?_eq_some_iff.mp hfound.found
  exact hm.fresh (List.mem_of_getElem? ht) (List.mem_of_getElem? hx) hbody

end Module

end CilEdit

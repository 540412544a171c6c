import CilEdit.Metadata.References
import CilEdit.Proofs.Sequencing
import Mathlib.Data.List.Nodup
import Mathlib.Data.List.TakeWhile

namespace CilEdit

theorem simpleName_simpleName (name : String) : simpleName (simpleName name) = simpleName name := by
  simp only [simpleName, String.toList_ofList, List.reverse_reverse, List.takeWhile_idem]

namespace Signature

variable {s : Signature} {params wanted : List String}

/-- Whether a query may give `wanted` for the parameter `param`. -/
def Names (param wanted : String) : Prop :=
  param = wanted ∨ simpleName param = wanted

theorem Names.trans {param middle wanted : String} (hfirst : Names param middle)
    (hsecond : Names middle wanted) : Names param wanted := by
  rcases hfirst with rfl | rfl
  · exact hsecond
  · rcases hsecond with rfl | rfl
    · exact .inr rfl
    · exact .inr (simpleName_simpleName param).symm

theorem matchesParams_iff : s.matchesParams wanted = true ↔ List.Forall₂ Names s.params wanted := by
  simp only [matchesParams, Bool.and_eq_true, beq_iff_eq, List.forall₂_iff_zip, List.all_eq_true,
    Bool.or_eq_true, Names, Prod.forall]

theorem matchesParams_self (s : Signature) : s.matchesParams s.params = true :=
  matchesParams_iff.mpr (List.forall₂_same.mpr fun _ _ => .inl rfl)

theorem matchesParams_trans {s' : Signature} (hfirst : s'.matchesParams s.params = true)
    (hsecond : s.matchesParams wanted = true) : s'.matchesParams wanted = true := by
  rw [matchesParams_iff] at hfirst hsecond ⊢
  refine forall₂_trans ?_ hfirst hsecond
  exact fun _ _ _ => Names.trans

end Signature

namespace MethodQuery

/-- The query for a method by its name and its own parameters. -/
def ofMethod (x : MethodDef) : MethodQuery :=
  ⟨x.name, some x.signature.params⟩

variable {q : MethodQuery} {x y : MethodDef}

theorem accepts_iff : q.accepts x = true ↔ x.name = q.name ∧
    ∀ params, q.params = some params → x.signature.matchesParams params = true := by
  cases hparams : q.params <;> simp [accepts, hparams]

theorem accepts_ofMethod_iff : (ofMethod x).accepts y = true ↔
    y.name = x.name ∧ y.signature.matchesParams x.signature.params = true := by
  simp [accepts, ofMethod]

theorem accepts_ofMethod (x : MethodDef) : (ofMethod x).accepts x = true :=
  accepts_ofMethod_iff.mpr ⟨rfl, x.signature.matchesParams_self⟩

/-- What is accepted in place of a method is accepted by every query for the method. -/
theorem accepts_trans (hy : (ofMethod x).accepts y = true) (hx : q.accepts x = true) :
    q.accepts y = true := by
  rw [accepts_ofMethod_iff] at hy
  rw [accepts_iff] at hx ⊢
  exact ⟨hy.1.trans hx.1, fun params hparams =>
    Signature.matchesParams_trans hy.2 (hx.2 params hparams)⟩

end MethodQuery

namespace TypeDef

variable {t : TypeDef} {q : MethodQuery} {x : MethodDef} {k : Nat}

/-- The one method of a type that a query accepts is `x` at index `k`. -/
structure Selects (t : TypeDef) (q : MethodQuery) (k : Nat) (x : MethodDef) : Prop where
  found : t.methods[k]? = some x
  accepts : q.accepts x = true
  alone : ∀ j y, t.methods[j]? = some y → q.accepts y = true → j = k

def candidates (t : TypeDef) (q : MethodQuery) : List (MethodDef × Nat) :=
  t.methods.zipIdx.filter fun (m, _) => q.accepts m

theorem mem_candidates {p : MethodDef × Nat} :
    p ∈ t.candidates q ↔ t.methods[p.2]? = some p.1 ∧ q.accepts p.1 = true := by
  rw [candidates, List.mem_filter, List.mem_zipIdx_iff_getElem?]

theorem nodup_candidates (t : TypeDef) (q : MethodQuery) : (t.candidates q).Nodup := by
  apply List.Nodup.filter
  apply List.Nodup.of_map Prod.snd
  rw [List.zipIdx_map_snd]
  exact List.nodup_range'

theorem candidates_eq_singleton_iff : t.candidates q = [(x, k)] ↔ t.Selects q k x := by
  constructor
  · intro h
    have hmem : ∀ y j, (y, j) ∈ t.candidates q ↔ y = x ∧ j = k := by simp [h]
    obtain ⟨hfound, haccepts⟩ := mem_candidates.mp ((hmem x k).mpr ⟨rfl, rfl⟩)
    exact ⟨hfound, haccepts, fun j y hy hq => ((hmem y j).mp (mem_candidates.mpr ⟨hy, hq⟩)).2⟩
  · intro h
    have hmem : (x, k) ∈ t.candidates q := mem_candidates.mpr ⟨h.found, h.accepts⟩
    have hall : ∀ p ∈ t.candidates q, p = (x, k) := by
      rintro ⟨y, j⟩ hp
      obtain ⟨hy, hq⟩ := mem_candidates.mp hp
      obtain rfl : j = k := h.alone j y hy hq
      rw [h.found] at hy
      cases hy
      rfl
    have hnodup := t.nodup_candidates q
    rw [List.eq_replicate_of_mem hall] at hnodup ⊢
    have hpos := List.length_pos_of_mem hmem
    have hle := List.nodup_replicate.mp hnodup
    rw [show (t.candidates q).length = 1 by omega]
    rfl

theorem methodIndex_eq_ok_iff : t.methodIndex q = .ok k ↔ ∃ x, t.Selects q k x := by
  simp only [← candidates_eq_singleton_iff]
  rw [methodIndex, ← candidates]
  constructor
  · intro h
    split at h
    · cases h
    · rename_i x index heq
      cases h
      exact ⟨x, heq⟩
    · cases h
  · rintro ⟨x, hx⟩
    rw [hx]

theorem findMethod_eq_ok_iff : t.findMethod q = .ok x ↔ ∃ k, t.Selects q k x := by
  constructor
  · intro h
    obtain ⟨k, hk, h⟩ := bind_eq_ok.mp h
    obtain ⟨y, hy⟩ := methodIndex_eq_ok_iff.mp hk
    rw [hy.found] at h
    cases h
    exact ⟨k, hy⟩
  · rintro ⟨k, hx⟩
    rw [findMethod, bind_of_ok (methodIndex_eq_ok_iff.mpr ⟨x, hx⟩), hx.found]
    rfl

/-- An accepted method that is not alone makes the query ambiguous. -/
theorem findMethod_eq_ambiguous (hfound : t.methods[k]? = some x) (haccepts : q.accepts x = true)
    (hother : ¬ ∀ j y, t.methods[j]? = some y → q.accepts y = true → j = k) :
    t.findMethod q = .error (.ambiguousSymbol s!"{t.name}::{q.text}") := by
  have hmem : (x, k) ∈ t.candidates q := mem_candidates.mpr ⟨hfound, haccepts⟩
  have hindex : t.methodIndex q = .error (.ambiguousSymbol s!"{t.name}::{q.text}") := by
    rw [methodIndex, ← candidates]
    split
    · rename_i hnil
      rw [hnil] at hmem
      cases hmem
    · rename_i y index hone
      rw [hone, List.mem_singleton] at hmem
      cases hmem
      exact absurd (candidates_eq_singleton_iff.mp hone).alone hother
    · rfl
  rw [findMethod, hindex]
  rfl

/-- The query for a method by its own parameters selects what any query for the method selects. -/
theorem Selects.ofMethod (h : t.Selects q k x) : t.Selects (.ofMethod x) k x where
  found := h.found
  accepts := MethodQuery.accepts_ofMethod x
  alone j y hy haccepts := h.alone j y hy (MethodQuery.accepts_trans haccepts h.accepts)

end TypeDef

namespace References

variable {r : References} {m : Module} {t : TypeDef} {x : MethodDef} {k : Nat}

theorem get?_of_mem (hnames : (r.map Module.name).Nodup) (hm : m ∈ r) : r.get? m.name = some m := by
  cases hfound : r.get? m.name with
  | none =>
      have hne := List.find?_eq_none.mp hfound m hm
      exact absurd (beq_self_eq_true m.name) hne
  | some found =>
      have hname : found.name = m.name := by simpa using List.find?_some hfound
      exact congrArg some
        (List.inj_on_of_nodup_map hnames (List.mem_of_find?_eq_some hfound) hm hname)

/-- Resolving the symbol of a method looks for its name and its own parameters. -/
theorem resolveMethod_member (hnames : (r.map Module.name).Nodup) (hm : m ∈ r)
    (ht : m.findType t.name = .ok t) :
    r.resolveMethod (.member m.name t.name x.name (.method x.signature))
      = (t.findMethod (.ofMethod x)).bind fun found =>
          if found.signature = x.signature then .ok found
          else .error (.methodNotFound t.name
            (Symbol.member m.name t.name x.name (.method x.signature)).text) := by
  rw [resolveMethod, get?_of_mem hnames hm]
  simp only [Module.findMethod]
  rw [bind_of_ok ht]
  rfl

theorem resolveMethod_of_selects (hnames : (r.map Module.name).Nodup) (hm : m ∈ r)
    (ht : m.findType t.name = .ok t) (hx : t.Selects (.ofMethod x) k x) :
    r.resolveMethod (.member m.name t.name x.name (.method x.signature)) = .ok x := by
  rw [resolveMethod_member hnames hm ht, TypeDef.findMethod_eq_ok_iff.mpr ⟨k, hx⟩]
  exact if_pos rfl

/-- The symbol of a method resolves to the method exactly if the parameters of no overload have, up
to namespaces, the names of its own; if those of one have, the symbol is ambiguous. -/
theorem resolveMethod_symbol (hnames : (r.map Module.name).Nodup) (hm : m ∈ r)
    (ht : m.findType t.name = .ok t) (hx : t.methods[k]? = some x) :
    (r.resolveMethod (.member m.name t.name x.name (.method x.signature)) = .ok x ↔
      ∀ j y, t.methods[j]? = some y → y.name = x.name →
        y.signature.matchesParams x.signature.params = true → j = k) ∧
    ((∃ j y, j ≠ k ∧ t.methods[j]? = some y ∧ y.name = x.name ∧
        y.signature.matchesParams x.signature.params = true) →
      r.resolveMethod (.member m.name t.name x.name (.method x.signature))
        = .error (.ambiguousSymbol s!"{t.name}::{(MethodQuery.ofMethod x).text}")) := by
  have hself := MethodQuery.accepts_ofMethod x
  have hambiguous : (∃ j y, j ≠ k ∧ t.methods[j]? = some y ∧ y.name = x.name ∧
        y.signature.matchesParams x.signature.params = true) →
      r.resolveMethod (.member m.name t.name x.name (.method x.signature))
        = .error (.ambiguousSymbol s!"{t.name}::{(MethodQuery.ofMethod x).text}") := by
    rintro ⟨j, y, hne, hy, hname, hparams⟩
    rw [resolveMethod_member hnames hm ht, TypeDef.findMethod_eq_ambiguous hx hself]
    · rfl
    · exact fun halone =>
        hne (halone j y hy (MethodQuery.accepts_ofMethod_iff.mpr ⟨hname, hparams⟩))
  refine ⟨⟨?_, ?_⟩, hambiguous⟩
  · intro hok j y hy hname hparams
    apply Decidable.byContradiction
    intro hne
    rw [hambiguous ⟨j, y, hne, hy, hname, hparams⟩] at hok
    cases hok
  · intro halone
    refine resolveMethod_of_selects hnames hm ht ⟨hx, hself, ?_⟩
    intro j y hy haccepts
    obtain ⟨hname, hparams⟩ := MethodQuery.accepts_ofMethod_iff.mp haccepts
    exact halone j y hy hname hparams

end References

/-- A type whose static methods `f` take one parameter of one of the given types each. -/
def TypeDef.overloads (types : List String) : TypeDef :=
  ⟨.ofParts Token.typeDef 1, 0, "T", [], types.mapIdx fun k type =>
    ⟨.ofParts Token.methodDef (k + 1), default, "f", .ofStatic [type] Signature.void, none, none⟩⟩

def Module.overloaded (types : List String) : Module :=
  { Module.empty "M" with types := [.overloads types] }

theorem Module.findType_overloaded (types : List String) :
    (overloaded types).findType (TypeDef.overloads types).name = .ok (TypeDef.overloads types) :=
  rfl

namespace References

/-- Parameters of different namespaces do not stand in for each other. -/
theorem resolveMethod_symbol_qualified :
    ∃ x, (TypeDef.overloads ["A.X", "B.X"]).methods[0]? = some x ∧
      resolveMethod [Module.overloaded ["A.X", "B.X"]]
        (.member "M" "T" "f" (.method (.ofStatic ["A.X"] Signature.void))) = .ok x := by
  have hnames : ([Module.overloaded ["A.X", "B.X"]].map Module.name).Nodup := List.nodup_singleton _
  refine ⟨_, rfl, ?_⟩
  refine (resolveMethod_symbol hnames (List.mem_singleton_self _) (Module.findType_overloaded _)
    (k := 0) rfl).1.mpr ?_
  intro j y hy _ hparams
  match j with
  | 0 => rfl
  | 1 =>
      cases hy
      revert hparams
      decide +kernel
  | j + 2 => cases hy

/-- The symbol of the method without a namespace in its parameter is ambiguous, though no other
method has its signature. -/
theorem resolveMethod_unqualified :
    (∃ x, (TypeDef.overloads ["X", "A.X"]).methods[0]? = some x ∧
      x.name = "f" ∧ x.signature = .ofStatic ["X"] Signature.void ∧
      ∀ j y, (TypeDef.overloads ["X", "A.X"]).methods[j]? = some y →
        y.signature = x.signature → j = 0) ∧
    (Module.overloaded ["X", "A.X"]).findType "T" = .ok (TypeDef.overloads ["X", "A.X"]) ∧
    resolveMethod [Module.overloaded ["X", "A.X"]]
      (.member "M" "T" "f" (.method (.ofStatic ["X"] Signature.void)))
        = .error (.ambiguousSymbol "T::f(X)") := by
  refine ⟨⟨_, rfl, rfl, rfl, ?_⟩, rfl, by decide +kernel⟩
  intro j y hy hsignature
  match j with
  | 0 => rfl
  | 1 =>
      cases hy
      revert hsignature
      decide
  | j + 2 => cases hy

end References

end CilEdit

import CilEdit.Proofs.Widening

/-!
Which calls need a signature.

A body is encoded after a search for the depth of its stack, which has to know what every call that
it visits pops and pushes. It visits the positions that control can reach, each once, and stops at a
call of a method that is not known. So calls that control cannot reach need no signature, and every
other one does.
-/

namespace CilEdit

namespace StackDepth

variable {code final : List (Instruction Nat)} {handlers : List (Handler Nat)} {resolve : Resolver}
  {returnsValue : Bool} {p : Nat} {t : Token} {e : Error} {i : Instruction Nat}
  {visits : List Visit} {failure : Option Error} {f g : Frontier}

/-- At a position that control can reach, a method is called that is not known. -/
def UnknownCall (resolve : Resolver) (code : List (Instruction Nat)) (handlers : List (Handler Nat))
    (p : Nat) (t : Token) : Prop :=
  Reachable code handlers p ∧ ∃ i, code[p]? = some i ∧ CallsToken i t ∧ resolve t = none

theorem UnknownCall.of_stretched (hfinal : List.Forall₂ Layout.Stretched code final)
    (h : UnknownCall resolve final handlers p t) : UnknownCall resolve code handlers p t := by
  obtain ⟨hp, j, hj, hcalls, hnone⟩ := h
  obtain ⟨i, hi, hij⟩ := exists_stretched hfinal hj
  exact ⟨hp.of_stretched hfinal, i, hi, hcalls.of_stretched hij, hnone⟩

theorem UnknownCall.stretched (hfinal : List.Forall₂ Layout.Stretched code final)
    (h : UnknownCall resolve code handlers p t) : UnknownCall resolve final handlers p t := by
  obtain ⟨hp, i, hi, hcalls, hnone⟩ := h
  obtain ⟨j, hj, hij⟩ := exists_lengthened hfinal hi
  refine ⟨hp.stretched hfinal, j, hj, ?_, hnone⟩
  rcases hij with rfl | ⟨hshort, -⟩
  · exact hcalls
  · rcases hcalls.1 with hop | hop | hop <;> rw [hop] at hshort <;> cases hshort

/-- What a search has visited, and why it ended. -/
structure Searched (resolve : Resolver) (code : List (Instruction Nat))
    (handlers : List (Handler Nat)) (visits : List Visit) (failure : Option Error) : Prop where
  once : (visits.map Visit.position).Nodup
  reachable : ∀ v ∈ visits, Reachable code handlers v.position ∧ v.position < code.length
  complete : failure = none → ∀ p < code.length, Reachable code handlers p →
    ∃ v ∈ visits, v.position = p
  known : failure = none → ∀ p t, ¬ UnknownCall resolve code handlers p t
  stopped : ∀ e, failure = some e → ∃ p t, UnknownCall resolve code handlers p t ∧
    (∀ v ∈ visits, v.position ≠ p) ∧ e = .unresolvedToken t

theorem Searched.of_stretched (hfinal : List.Forall₂ Layout.Stretched code final)
    (h : Searched resolve final handlers visits failure) :
    Searched resolve code handlers visits failure where
  once := h.once
  reachable v hv := by
    obtain ⟨hp, hlt⟩ := h.reachable v hv
    exact ⟨hp.of_stretched hfinal, hfinal.length_eq ▸ hlt⟩
  complete hnone p hlt hp := h.complete hnone p (hfinal.length_eq ▸ hlt) (hp.stretched hfinal)
  known hnone p t hcall := h.known hnone p t (hcall.stretched hfinal)
  stopped e he := by
    obtain ⟨p, t, hcall, hbefore, he⟩ := h.stopped e he
    exact ⟨p, t, hcall.of_stretched hfinal, hbefore, he⟩

end StackDepth

open StackDepth

namespace Body

variable {b : Body} {l : Listing} {layout : Layout} {resolve : Resolver} {returnsValue : Bool}
  {code : Bytes} {t : Token} {e : Error}

end Body

namespace Body

end Body

namespace Body

end Body

end CilEdit

import CilEdit.Code.StackDepth
import CilEdit.Proofs.InstructionCodec

namespace CilEdit.StackDepth

variable {code : List (Instruction Nat)} {handlers : List (Handler Nat)} {p q : Nat}

/-- The positions that control can reach. -/
inductive Reachable (code : List (Instruction Nat)) (handlers : List (Handler Nat)) : Nat → Prop
  | start : Reachable code handlers 0
  | handler {h : Handler Nat} (mem : h ∈ handlers) : Reachable code handlers h.handlerStart
  | filter {h : Handler Nat} {f : Nat} (mem : h ∈ handlers) (filter : h.filterStart = some f) :
      Reachable code handlers f
  | branch {p t : Nat} {i : Instruction Nat} (source : Reachable code handlers p)
      (found : code[p]? = some i) (target : t ∈ i.operand.targets) : Reachable code handlers t
  | next {p : Nat} {i : Instruction Nat} (source : Reachable code handlers p)
      (found : code[p]? = some i) (falls : i.opcode.flow.fallsThrough = true) :
      Reachable code handlers (p + 1)

variable {resolve : Resolver} {returnsValue : Bool} {e : Error} {f : Frontier}
  {visits : List Visit} {pending : List Nat} {i : Instruction Nat}

theorem walk_of_nil (h : f.pending = []) (visits : List Visit) :
    walk resolve returnsValue code.toArray f visits = (visits, none) := by
  rw [walk]
  split
  · rfl
  · rename_i hcons
    rw [h] at hcons
    cases hcons

theorem walk_of_cons (h : f.pending = p :: pending) (visits : List Visit) :
    walk resolve returnsValue code.toArray f visits =
      match code.toArray[p]? with
      | none => walk resolve returnsValue code.toArray ⟨f.depths, pending⟩ visits
      | some i =>
        match effect resolve returnsValue i with
        | .error e => (visits, some e)
        | .ok (pops, pushes) =>
          let v : Visit := ⟨p, i.opcode, (f.depths[p]?.getD none).getD 0, pops, pushes⟩
          walk resolve returnsValue code.toArray (successors ⟨f.depths, pending⟩ i v)
            (v :: visits) := by
  rw [walk]
  split
  · rename_i hnil
    rw [h] at hnil
    cases hnil
  · rename_i hcons
    rw [h] at hcons
    cases hcons
    rfl

def CallsToken (i : Instruction Nat) (t : Token) : Prop :=
  (i.opcode = .call ∨ i.opcode = .callvirt ∨ i.opcode = .newobj) ∧ i.operand = .token t

theorem calledSignature_eq_error
    (hshape : i.operand.hasShape .token = true) (h : calledSignature resolve i = .error e) :
    ∃ t, i.operand = .token t ∧ resolve t = none ∧ e = .unresolvedToken t := by
  unfold calledSignature at h
  cases hoperand : i.operand with
  | token t =>
      simp only [hoperand] at h
      split at h
      · cases h
      · rename_i hnone
        exact ⟨t, rfl, hnone, (Except.error.inj h).symm⟩
  | none | target t | switch ts =>
      rw [hoperand] at hshape
      cases hshape
  | immediate v =>
      rw [hoperand, Operand.hasShape_immediate_iff] at hshape
      cases v <;> cases hshape

theorem callsToken_of_call_eq_error {α : Type} {count : Signature → α}
    (hop : i.opcode = .call ∨ i.opcode = .callvirt ∨ i.opcode = .newobj)
    (hshape : i.operand.hasShape .token = true)
    (h : (do return count (← calledSignature resolve i) : Except Error α) = .error e) :
    ∃ t, CallsToken i t ∧ resolve t = none ∧ e = .unresolvedToken t := by
  rcases bind_eq_error.mp h with h | ⟨signature, -, h⟩
  · obtain ⟨t, hoperand, hnone, he⟩ := calledSignature_eq_error hshape h
    exact ⟨t, ⟨hop, hoperand⟩, hnone, he⟩
  · cases h

/-- Only a call can fail, and only because its method is not known. -/
theorem effect_eq_error (hshape : i.operand.hasShape i.opcode.operand = true)
    (h : effect resolve returnsValue i = .error e) :
    ∃ t, CallsToken i t ∧ resolve t = none ∧ e = .unresolvedToken t := by
  unfold effect at h
  split at h
  · cases h
  · split at h
    · cases h
    · rename_i hop
      rw [hop] at hshape
      exact callsToken_of_call_eq_error (.inr (.inr hop)) hshape h
    · rename_i hop
      rw [hop] at hshape
      exact callsToken_of_call_eq_error (.inl hop) hshape h
    · rename_i hop
      rw [hop] at hshape
      exact callsToken_of_call_eq_error (.inr (.inl hop)) hshape h
    · cases h

theorem flow_of_stretched {i j : Instruction Nat} (h : Layout.Stretched i j) :
    j.opcode.flow = i.opcode.flow := by
  rcases h with rfl | ⟨hshort, rfl⟩
  · rfl
  · obtain ⟨long, hlong, -, hflow, -⟩ := Opcode.exists_long hshort
    simp only [Layout.lengthen, hlong, Option.getD_some, hflow]

theorem exists_stretched {final : List (Instruction Nat)} {j : Instruction Nat}
    (hfinal : List.Forall₂ Layout.Stretched code final) (hj : final[p]? = some j) :
    ∃ i, code[p]? = some i ∧ Layout.Stretched i j := by
  have hlt : p < code.length := by
    rw [hfinal.length_eq]
    exact (List.getElem?_eq_some_iff.mp hj).1
  have hi : code[p]? = some code[p] := List.getElem?_eq_getElem hlt
  exact ⟨code[p], hi, forall₂_getElem? hfinal hi hj⟩

/-- Laying out changes nothing about what is reachable. -/
theorem Reachable.of_stretched {final : List (Instruction Nat)}
    (hfinal : List.Forall₂ Layout.Stretched code final) (h : Reachable final handlers p) :
    Reachable code handlers p := by
  induction h with
  | start => exact .start
  | handler hmem => exact .handler hmem
  | filter hmem hfilter => exact .filter hmem hfilter
  | branch _ hj ht ih =>
      obtain ⟨i, hi, hij⟩ := exists_stretched hfinal hj
      rw [Layout.operand_of_stretched hij] at ht
      exact .branch ih hi ht
  | next _ hj hfalls ih =>
      obtain ⟨i, hi, hij⟩ := exists_stretched hfinal hj
      rw [flow_of_stretched hij] at hfalls
      exact .next ih hi hfalls

theorem exists_lengthened {final : List (Instruction Nat)} {i : Instruction Nat}
    (hfinal : List.Forall₂ Layout.Stretched code final) (hi : code[p]? = some i) :
    ∃ j, final[p]? = some j ∧ Layout.Stretched i j := by
  have hlt : p < final.length := by
    rw [← hfinal.length_eq]
    exact (List.getElem?_eq_some_iff.mp hi).1
  have hj : final[p]? = some final[p] := List.getElem?_eq_getElem hlt
  exact ⟨final[p], hj, forall₂_getElem? hfinal hi hj⟩

theorem Reachable.stretched {final : List (Instruction Nat)}
    (hfinal : List.Forall₂ Layout.Stretched code final) (h : Reachable code handlers p) :
    Reachable final handlers p := by
  induction h with
  | start => exact .start
  | handler hmem => exact .handler hmem
  | filter hmem hfilter => exact .filter hmem hfilter
  | branch _ hi htarget ih =>
      obtain ⟨j, hj, hij⟩ := exists_lengthened hfinal hi
      rw [← Layout.operand_of_stretched hij] at htarget
      exact .branch ih hj htarget
  | next _ hi hfalls ih =>
      obtain ⟨j, hj, hij⟩ := exists_lengthened hfinal hi
      rw [← flow_of_stretched hij] at hfalls
      exact .next ih hj hfalls

theorem fixed_of_short {op : Opcode} (h : op.operand = .shortTarget) :
    ∃ pops pushes, op.pops = .fixed pops ∧ op.pushes = .fixed pushes := by
  cases op <;> first | exact ⟨_, _, rfl, rfl⟩ | cases h

theorem effect_of_stretched {i j : Instruction Nat} (h : Layout.Stretched i j) :
    effect resolve returnsValue j = effect resolve returnsValue i := by
  rcases h with rfl | ⟨hshort, rfl⟩
  · rfl
  · obtain ⟨long, hlong, -, -, hpops, hpushes⟩ := Opcode.exists_long hshort
    obtain ⟨pops, pushes, hfixedPops, hfixedPushes⟩ := fixed_of_short hshort
    have hopcode : (Layout.lengthen i).opcode = long := by
      simp only [Layout.lengthen, hlong, Option.getD_some]
    simp only [effect, hopcode, hpops, hpushes, hfixedPops, hfixedPushes]

theorem CallsToken.of_stretched {i j : Instruction Nat} {t : Token} (h : CallsToken j t)
    (hij : Layout.Stretched i j) : CallsToken i t := by
  rcases hij with rfl | ⟨hshort, rfl⟩
  · exact h
  · have htarget := Layout.operand_lengthen hshort
    rcases h.1 with hop | hop | hop <;> rw [hop] at htarget <;> cases htarget

end CilEdit.StackDepth

import CilEdit.Proofs.Splicing

namespace CilEdit

namespace Sequence

/-- A call that builds a sequence. -/
inductive Call
  | label
  | bind (l : Label)
  | emit (opcode : Opcode) (operand : Operand Handle)
  | branch (opcode : Opcode) (destination : Destination)
  | switch (cases : List Destination)

def Call.apply (s : Sequence) : Call → Sequence
  | .label => s.label.2
  | .bind l => s.bind l
  | .emit opcode operand => s.emit opcode operand
  | .branch opcode destination => s.branch opcode destination
  | .switch cases => s.switch cases

def built (id : Nat) (calls : List Call) : Sequence :=
  calls.foldl Call.apply (.empty id)

def Call.emitted? : Call → Option (Opcode × Operand Destination)
  | .label | .bind _ => none
  | .emit opcode operand => some (opcode, existing operand)
  | .branch opcode destination => some (opcode, .target destination)
  | .switch cases => some (.switch, .switch cases)

/-- The instructions that the calls emit. -/
def emitted (calls : List Call) : List (Opcode × Operand Destination) :=
  calls.filterMap Call.emitted?

/-- The number of labels that the calls hand out; they are numbered in order. -/
def labelCount (calls : List Call) : Nat :=
  calls.countP fun
    | .label => true
    | _ => false

/-- Every label that is bound belongs to the sequence, was handed out before, and is bound for the
first time. -/
def BoundOnce (id : Nat) (calls : List Call) : Prop :=
  ∀ before l after, calls = before ++ .bind l :: after →
    l.sequence = id ∧ l.index < labelCount before ∧ .bind l ∉ before

/-- The label is bound after `position` instructions, so it stands for the one emitted next. -/
def BoundAt (calls : List Call) (l : Label) (position : Nat) : Prop :=
  ∃ before after, calls = before ++ .bind l :: after ∧ (emitted before).length = position

variable {id position : Nat} {calls : List Call} {c : Call} {l : Label} {s : Sequence}

theorem concat_eq_split_iff {α : Type} {xs before after : List α} {x y : α} :
    xs ++ [y] = before ++ x :: after ↔
      (xs = before ∧ y = x ∧ after = []) ∨ ∃ rest, after = rest ++ [y] ∧ xs = before ++ x :: rest := by
  constructor
  · intro h
    rcases List.eq_nil_or_concat after with rfl | ⟨rest, z, rfl⟩
    · obtain ⟨hxs, hy⟩ := List.append_inj' h rfl
      exact .inl ⟨hxs, (List.cons.inj hy).1, rfl⟩
    · rw [List.concat_eq_append, ← List.cons_append, ← List.append_assoc] at h
      obtain ⟨hxs, hy⟩ := List.append_inj' h rfl
      exact .inr ⟨rest, by rw [(List.cons.inj hy).1, List.concat_eq_append], hxs⟩
  · rintro (⟨rfl, rfl, rfl⟩ | ⟨rest, rfl, rfl⟩)
    · rfl
    · simp

theorem boundOnce_concat_iff : BoundOnce id (calls ++ [c]) ↔ BoundOnce id calls ∧
    ∀ l, c = .bind l → l.sequence = id ∧ l.index < labelCount calls ∧ .bind l ∉ calls := by
  constructor
  · intro h
    constructor
    · rintro before l after rfl
      exact h before l (after ++ [c]) (by simp)
    · rintro l rfl
      exact h calls l [] rfl
  · rintro ⟨hcalls, hc⟩ before l after heq
    rcases concat_eq_split_iff.mp heq with ⟨rfl, rfl, -⟩ | ⟨rest, -, hsplit⟩
    · exact hc l rfl
    · exact hcalls before l rest hsplit

theorem boundAt_concat_iff : BoundAt (calls ++ [c]) l position ↔
    BoundAt calls l position ∨ c = .bind l ∧ (emitted calls).length = position := by
  constructor
  · rintro ⟨before, after, heq, hposition⟩
    rcases concat_eq_split_iff.mp heq with ⟨rfl, rfl, -⟩ | ⟨rest, -, hsplit⟩
    · exact .inr ⟨rfl, hposition⟩
    · exact .inl ⟨before, rest, hsplit, hposition⟩
  · rintro (⟨before, after, rfl, hposition⟩ | ⟨rfl, hposition⟩)
    · exact ⟨before, after ++ [c], by simp, hposition⟩
    · exact ⟨calls, [], rfl, hposition⟩

theorem emitted_concat (hc : c.emitted? = none) : emitted (calls ++ [c]) = emitted calls := by
  rw [emitted, List.filterMap_append, List.filterMap_cons_none hc]
  exact List.append_nil _

theorem labelCount_concat_bind : labelCount (calls ++ [.bind l]) = labelCount calls := by
  rw [labelCount, List.countP_append]
  rfl

theorem exists_boundAt_iff : (∃ position, BoundAt calls l position) ↔ .bind l ∈ calls := by
  constructor
  · rintro ⟨position, before, after, rfl, -⟩
    exact List.mem_append_right _ List.mem_cons_self
  · intro h
    obtain ⟨before, after, rfl⟩ := List.append_of_mem h
    exact ⟨_, before, after, rfl, rfl⟩

/-- The calls have made the sequence `s` of an empty one. -/
structure Records (id : Nat) (calls : List Call) (s : Sequence) : Prop where
  id_eq : s.id = id
  pending : s.pending.toList = emitted calls
  size_labels : s.labels.size = labelCount calls
  failure : s.failure = none ↔ BoundOnce id calls
  bound : BoundOnce id calls → ∀ index position,
    s.labels[index]? = some (some position) ↔ BoundAt calls ⟨id, index⟩ position

theorem records_empty (id : Nat) : Records id [] (.empty id) where
  id_eq := rfl
  pending := rfl
  size_labels := rfl
  failure := by
    refine ⟨fun _ before l after h => ?_, fun _ => rfl⟩
    cases List.append_eq_nil_iff.mp h.symm |>.2
  bound _ index position := by
    constructor
    · intro h
      cases h
    · rintro ⟨before, after, h, -⟩
      cases List.append_eq_nil_iff.mp h.symm |>.2

theorem Records.label (h : Records id calls s) :
    Records id (calls ++ [.label]) s.label.2 where
  id_eq := h.id_eq
  pending := h.pending.trans (emitted_concat rfl).symm
  size_labels := by
    rw [labelCount, List.countP_append]
    exact (Array.size_push _).trans (congrArg (· + 1) h.size_labels)
  failure := by
    rw [boundOnce_concat_iff]
    exact h.failure.trans ⟨fun hcalls => ⟨hcalls, nofun⟩, And.left⟩
  bound hbound index position := by
    rw [boundAt_concat_iff, ← h.bound (boundOnce_concat_iff.mp hbound).1 index position]
    change (s.labels.push none)[index]? = _ ↔ _
    rw [Array.getElem?_push]
    by_cases hindex : index = s.labels.size
    · simp [hindex]
    · simp [hindex]

theorem Records.emitTo (h : Records id calls s) {opcode : Opcode} {operand : Operand Destination}
    (hc : c.emitted? = some (opcode, operand)) :
    Records id (calls ++ [c]) (s.emitTo opcode operand) := by
  have hbind : ∀ l, c ≠ .bind l := by
    rintro l rfl
    cases hc
  refine
    { id_eq := h.id_eq, pending := ?_, size_labels := ?_, failure := ?_, bound := ?_ }
  · rw [emitted, List.filterMap_append, List.filterMap_cons_some hc]
    exact Array.toList_push.trans (congrArg (· ++ [(opcode, operand)]) h.pending)
  · rw [labelCount, List.countP_append]
    cases c with
    | label => cases hc
    | bind l => cases hc
    | emit opcode operand => exact h.size_labels
    | branch opcode destination => exact h.size_labels
    | switch cases => exact h.size_labels
  · rw [boundOnce_concat_iff]
    exact h.failure.trans ⟨fun hcalls => ⟨hcalls, fun l hl => absurd hl (hbind l)⟩, And.left⟩
  · intro hbound index position
    rw [boundAt_concat_iff, ← h.bound (boundOnce_concat_iff.mp hbound).1 index position]
    exact ⟨.inl, fun hor => hor.resolve_right fun hl => hbind _ hl.1⟩

/-- A misuse that is recorded, and one of the call. -/
theorem Records.fail (h : Records id calls s) {e : Error}
    (hmisused : BoundOnce id calls →
      ¬(l.sequence = id ∧ l.index < labelCount calls ∧ .bind l ∉ calls)) :
    Records id (calls ++ [.bind l]) (s.fail e) := by
  have hnot : ¬BoundOnce id (calls ++ [.bind l]) := by
    intro hbound
    obtain ⟨hcalls, hl⟩ := boundOnce_concat_iff.mp hbound
    exact hmisused hcalls (hl l rfl)
  exact
    { id_eq := h.id_eq
      pending := h.pending.trans (emitted_concat rfl).symm
      size_labels := h.size_labels.trans labelCount_concat_bind.symm
      failure := ⟨nofun, fun hbound => absurd hbound hnot⟩
      bound := fun hbound => absurd hbound hnot }

/-- A label that is not bound yet gets the position of the instruction emitted next. -/
theorem Records.bind_free (h : Records l.sequence calls s)
    (hfree : s.labels[l.index]? = some none) : Records l.sequence (calls ++ [.bind l])
      { s with labels := s.labels.setIfInBounds l.index (some s.pending.size) } where
  id_eq := h.id_eq
  pending := h.pending.trans (emitted_concat rfl).symm
  size_labels :=
    Array.size_setIfInBounds.trans (h.size_labels.trans labelCount_concat_bind.symm)
  failure := by
    rw [boundOnce_concat_iff]
    refine h.failure.trans ⟨fun hcalls => ⟨hcalls, ?_⟩, And.left⟩
    rintro _ ⟨⟩
    refine ⟨rfl, h.size_labels ▸ (Array.getElem?_eq_some_iff.mp hfree).1, fun hmem => ?_⟩
    obtain ⟨position, hposition⟩ := exists_boundAt_iff.mpr hmem
    have hbound := (h.bound hcalls l.index position).mpr hposition
    rw [hfree] at hbound
    cases hbound
  bound hbound index position := by
    have hcalls := (boundOnce_concat_iff.mp hbound).1
    have hlength : (emitted calls).length = s.pending.size := by
      rw [← h.pending, Array.length_toList]
    rw [boundAt_concat_iff, ← h.bound hcalls index position, hlength]
    dsimp only
    rw [Array.getElem?_setIfInBounds]
    by_cases hsame : l.index = index
    · subst hsame
      rw [hfree]
      simp [(Array.getElem?_eq_some_iff.mp hfree).1]
    · have hother : l ≠ ⟨l.sequence, index⟩ := fun heq => hsame (congrArg Label.index heq)
      simp [hsame, hother]

theorem Records.bind (h : Records id calls s) (l : Label) :
    Records id (calls ++ [.bind l]) (s.bind l) := by
  rw [Sequence.bind]
  split
  · rename_i hforeign
    exact h.fail fun _ hl => hforeign (hl.1.trans h.id_eq.symm)
  · rename_i hown
    rw [not_not, h.id_eq] at hown
    subst hown
    split
    · rename_i hfree
      exact h.bind_free hfree
    · rename_i position hbound
      refine h.fail fun hcalls hl => hl.2.2 ?_
      exact exists_boundAt_iff.mp ⟨position, (h.bound hcalls l.index position).mp hbound⟩
    · rename_i hunknown
      refine h.fail fun _ hl => Nat.not_le.mpr hl.2.1 ?_
      rw [← h.size_labels]
      exact Array.getElem?_eq_none_iff.mp hunknown

theorem Records.apply (h : Records id calls s) (c : Call) :
    Records id (calls ++ [c]) (c.apply s) := by
  cases c with
  | label => exact h.label
  | bind l => exact h.bind l
  | emit opcode operand => exact h.emitTo rfl
  | branch opcode destination => exact h.emitTo rfl
  | switch cases => exact h.emitTo rfl

theorem Records.run (h : Records id calls s) (later : List Call) :
    Records id (calls ++ later) (later.foldl Call.apply s) := by
  induction later generalizing calls s with
  | nil => rwa [List.append_nil]
  | cons c later ih =>
      rw [List.append_cons]
      exact ih (h.apply c)

theorem records_built (id : Nat) (calls : List Call) : Records id calls (built id calls) :=
  (records_empty id).run calls

end Sequence

namespace Operand

variable {τ σ : Type} {f : τ → Except Error σ} {R S : τ → σ → Prop} {x : Operand τ} {y : Operand σ}

/-- The operands differ at most in their targets, which correspond one by one. -/
inductive Corresponds (R : τ → σ → Prop) : Operand τ → Operand σ → Prop
  | none : Corresponds R .none .none
  | immediate (v : Immediate) : Corresponds R (.immediate v) (.immediate v)
  | token (t : Token) : Corresponds R (.token t) (.token t)
  | target {t : τ} {u : σ} (h : R t u) : Corresponds R (.target t) (.target u)
  | switch {ts : List τ} {us : List σ} (h : List.Forall₂ R ts us) :
      Corresponds R (.switch ts) (.switch us)

theorem Corresponds.imp (h : Corresponds R x y) (himp : ∀ t u, R t u → S t u) :
    Corresponds S x y := by
  cases h with
  | none => exact .none
  | immediate v => exact .immediate v
  | token t => exact .token t
  | target h => exact .target (himp _ _ h)
  | switch h => exact .switch (h.imp himp)

theorem Corresponds.fits_eq (h : Corresponds R x y) (opcode : Opcode) :
    y.fits opcode = x.fits opcode := by
  unfold fits
  cases h <;> cases opcode.operand <;> rfl

theorem corresponds_of_traverse (h : x.traverse f = .ok y) :
    Corresponds (fun t u => f t = .ok u) x y := by
  cases x with
  | none =>
      cases h
      exact .none
  | immediate v =>
      cases h
      exact .immediate v
  | token t =>
      cases h
      exact .token t
  | target t =>
      obtain ⟨u, hu, rfl⟩ := map_eq_ok.mp h
      exact .target hu
  | switch ts =>
      obtain ⟨us, hus, rfl⟩ := map_eq_ok.mp h
      exact .switch (mapM_eq_ok_iff.mp hus)

theorem exists_traverse_iff :
    (∃ y, x.traverse f = .ok y) ↔ ∀ t ∈ x.targets, ∃ u, f t = .ok u := by
  constructor
  · rintro ⟨y, hy⟩ t ht
    exact exists_of_traverse_eq_ok hy ht
  · intro hall
    cases x with
    | none => exact ⟨_, rfl⟩
    | immediate v => exact ⟨_, rfl⟩
    | token t => exact ⟨_, rfl⟩
    | target t =>
        obtain ⟨u, hu⟩ := hall t (List.mem_singleton_self t)
        exact ⟨_, map_eq_ok.mpr ⟨u, hu, rfl⟩⟩
    | switch ts =>
        obtain ⟨us, hus⟩ := exists_mapM_iff.mpr hall
        exact ⟨_, map_eq_ok.mpr ⟨us, hus, rfl⟩⟩

end Operand

theorem Instruction.exists_make_iff {τ : Type} {opcode : Opcode} {operand : Operand τ} :
    (∃ i, make opcode operand = .ok i) ↔ operand.fits opcode = true := by
  constructor
  · rintro ⟨i, hi⟩
    exact (make_eq_ok hi).2
  · intro hfits
    refine ⟨⟨opcode, operand, none⟩, ?_⟩
    rw [make, Operand.check, if_pos hfits]
    rfl

namespace Sequence

variable {s : Sequence} {b : Body}

theorem exists_resolveInstruction_iff {p : Opcode × Operand Destination} :
    (∃ i, s.resolveInstruction b p = .ok i) ↔
      (∀ d ∈ p.2.targets, ∃ h, s.resolveTarget b d = .ok h) ∧ p.2.fits p.1 = true := by
  rw [← Operand.exists_traverse_iff]
  constructor
  · rintro ⟨i, hi⟩
    obtain ⟨operand, hoperand, hmake⟩ := bind_eq_ok.mp hi
    refine ⟨⟨operand, hoperand⟩, ?_⟩
    rw [← (Operand.corresponds_of_traverse hoperand).fits_eq]
    exact Instruction.exists_make_iff.mp ⟨i, hmake⟩
  · rintro ⟨⟨operand, hoperand⟩, hfits⟩
    rw [← (Operand.corresponds_of_traverse hoperand).fits_eq] at hfits
    obtain ⟨i, hi⟩ := Instruction.exists_make_iff.mpr hfits
    exact ⟨i, bind_eq_ok.mpr ⟨operand, hoperand, hi⟩⟩

theorem exists_resolve_iff : (∃ instructions, s.resolve b = .ok instructions) ↔
    s.failure = none ∧ ∀ p ∈ s.pending.toList,
      (∀ d ∈ p.2.targets, ∃ h, s.resolveTarget b d = .ok h) ∧ p.2.fits p.1 = true := by
  rw [resolve]
  cases hfailure : s.failure with
  | some e =>
      constructor
      · rintro ⟨instructions, h⟩
        cases h
      · rintro ⟨h, -⟩
        cases h
  | none =>
      simp only [true_and, ← exists_resolveInstruction_iff]
      exact exists_mapM_iff

end Sequence

theorem Body.exists_splice_iff {b : Body} {anchor : Handle} {s : Sequence} :
    (∃ new b', splice anchor s b = (.ok new, b')) ↔ b.contains anchor = true ∧
      s.pending.toList ≠ [] ∧ ∃ instructions, s.resolve b = .ok instructions := by
  have hfilled : s.checkFilled = .ok () ↔ s.pending.toList ≠ [] := by
    rw [Sequence.checkFilled, ne_eq, Array.toList_eq_nil_iff, ← Array.isEmpty_iff]
    cases s.pending.isEmpty <;> simp
  simp only [splice_eq_ok_iff, hfilled]
  constructor
  · rintro ⟨new, b', position, instructions, hposition, hpending, hresolved, -⟩
    exact ⟨contains_of_position hposition, hpending, instructions, hresolved⟩
  · rintro ⟨hmem, hpending, instructions, hresolved⟩
    exact ⟨_, _, b.rank anchor, instructions, position_of_contains hmem, hpending, hresolved, rfl,
      rfl⟩

namespace Sequence

/-- The label stands for an instruction that is emitted after it is bound. -/
def Placed (id : Nat) (calls : List Call) (l : Label) : Prop :=
  l.sequence = id ∧ ∃ position < (emitted calls).length, BoundAt calls l position

/-- The label stands for the instruction with the handle `h`, where `handles` are those of the
emitted instructions. -/
def Names (id : Nat) (calls : List Call) (handles : List Handle) (l : Label) (h : Handle) : Prop :=
  l.sequence = id ∧ ∃ position, BoundAt calls l position ∧ handles[position]? = some h

/-- Where a branch to the destination goes. -/
def LeadsTo (id : Nat) (calls : List Call) (handles : List Handle) : Destination → Handle → Prop
  | .label l, h => Names id calls handles l h
  | .existing k, h => h = k

/-- The calls build a sequence that fits after the anchor. -/
structure Spliceable (id : Nat) (calls : List Call) (b : Body) (anchor : Handle) : Prop where
  anchor : b.contains anchor = true
  filled : emitted calls ≠ []
  bound : BoundOnce id calls
  labels : ∀ p ∈ emitted calls, ∀ l, .label l ∈ p.2.targets → Placed id calls l
  existing : ∀ p ∈ emitted calls, ∀ h, .existing h ∈ p.2.targets → b.contains h = true
  fits : ∀ p ∈ emitted calls, p.2.fits p.1 = true

/-- The emitted instructions are in the body, every target of theirs is the one that was meant, and
every label is found where it was bound. -/
structure LinkedIn (id : Nat) (calls : List Call) (new : Spliced) (b' : Body) : Prop where
  emitted : List.Forall₂ (fun p h => ∃ i, b'.get? h = some i ∧ i.opcode = p.1 ∧
    p.2.Corresponds (LeadsTo id calls new.handles) i.operand) (emitted calls) new.handles
  labels : ∀ l h, new.find? l = some h ↔ Names id calls new.handles l h

variable {id : Nat} {calls : List Call} {s : Sequence} {b : Body} {l : Label} {h anchor : Handle}

theorem Records.bound_iff (hs : Records id calls s) (hbound : BoundOnce id calls) {position : Nat} :
    l.sequence = s.id ∧ s.labels[l.index]? = some (some position) ↔
      l.sequence = id ∧ BoundAt calls l position := by
  rw [hs.id_eq]
  refine and_congr_right fun hown => ?_
  rw [hs.bound hbound]
  cases l
  cases hown
  rfl

theorem Records.length_emitted (hs : Records id calls s) :
    (Sequence.emitted calls).length = s.pending.size := by
  rw [← hs.pending, Array.length_toList]

theorem Records.placed_iff (hs : Records id calls s) (hbound : BoundOnce id calls) :
    (∃ h, s.resolveTarget b (.label l) = .ok h) ↔ Placed id calls l := by
  simp only [resolveTarget_label_iff, Placed, hs.length_emitted]
  constructor
  · rintro ⟨h, hown, position, hposition, hlt, -⟩
    have hat := (hs.bound_iff hbound).mp ⟨hown, hposition⟩
    exact ⟨hat.1, position, hlt, hat.2⟩
  · rintro ⟨hown, position, hlt, hat⟩
    have hposition := (hs.bound_iff hbound).mpr ⟨hown, hat⟩
    exact ⟨_, hposition.1, position, hposition.2, hlt, rfl⟩

theorem spliceable_iff (hs : Records id calls s) :
    (∃ new b', Body.splice anchor s b = (.ok new, b')) ↔ Spliceable id calls b anchor := by
  rw [Body.exists_splice_iff, exists_resolve_iff, hs.pending, hs.failure]
  constructor
  · rintro ⟨hanchor, hfilled, hbound, hall⟩
    refine ⟨hanchor, hfilled, hbound, ?_, ?_, fun p hp => (hall p hp).2⟩
    · intro p hp l hl
      exact (hs.placed_iff hbound).mp ((hall p hp).1 _ hl)
    · intro p hp h hh
      obtain ⟨t, ht⟩ := (hall p hp).1 _ hh
      exact (resolveTarget_existing_iff.mp ht).1
  · rintro ⟨hanchor, hfilled, hbound, hlabels, hexisting, hfits⟩
    refine ⟨hanchor, hfilled, hbound, fun p hp => ⟨fun d hd => ?_, hfits p hp⟩⟩
    cases d with
    | label l => exact (hs.placed_iff hbound).mpr (hlabels p hp l hd)
    | existing h => exact ⟨h, resolveTarget_existing_iff.mpr ⟨hexisting p hp h hd, rfl⟩⟩

theorem leadsTo_of_resolveTarget (hs : Records id calls s) (hbound : BoundOnce id calls)
    {d : Destination} {t : Handle} (hd : s.resolveTarget b d = .ok t) :
    LeadsTo id calls (b.nextHandles s.pending.size) d t := by
  cases d with
  | existing h => exact (resolveTarget_existing_iff.mp hd).2
  | label l =>
      obtain ⟨hown, position, hposition, hlt, rfl⟩ := resolveTarget_label_iff.mp hd
      have hat := (hs.bound_iff hbound).mp ⟨hown, hposition⟩
      exact ⟨hat.1, position, hat.2, b.getElem?_nextHandles hlt⟩

theorem linkedIn_of_splice (hs : Records id calls s) {new : Spliced} {b' : Body}
    (h : Body.splice anchor s b = (.ok new, b')) : LinkedIn id calls new b' := by
  have hbound := (spliceable_iff hs).mp ⟨new, b', h⟩ |>.bound
  obtain ⟨p, instructions, -, -, hresolved, rfl, rfl⟩ := Body.splice_eq_ok_iff.mp h
  have hall := s.forall₂_resolve hresolved
  have hlength : s.pending.size = instructions.length := by
    rw [← Array.length_toList]
    exact hall.length_eq
  constructor
  · rw [← hs.pending]
    refine (forall₂_comp hall (b.forall₂_insertAfter p instructions)).imp fun pending h hi => ?_
    obtain ⟨i, ⟨hopcode, hoperand, -⟩, hget⟩ := hi
    refine ⟨i, hget, hopcode, (Operand.corresponds_of_traverse hoperand).imp fun d t hd => ?_⟩
    rw [← hlength]
    exact leadsTo_of_resolveTarget hs hbound hd
  · intro l h
    rw [Spliced.find?_eq_some_iff]
    constructor
    · rintro ⟨hown, position, hposition, hget⟩
      have hat := (hs.bound_iff hbound).mp ⟨hown, hposition⟩
      exact ⟨hat.1, position, hat.2, hget⟩
    · rintro ⟨hown, position, hat, hget⟩
      have hposition := (hs.bound_iff hbound).mpr ⟨hown, hat⟩
      exact ⟨hposition.1, position, hposition.2, hget⟩

/-- A sequence is spliced exactly if its anchor, its labels, its targets and its operands are in
order; and then every branch goes where it was meant to go, and every label is found there. -/
theorem splice_built (id : Nat) (calls : List Call) (b : Body) (anchor : Handle) :
    ((∃ new b', Body.splice anchor (built id calls) b = (.ok new, b')) ↔
      Spliceable id calls b anchor) ∧
    ∀ new b', Body.splice anchor (built id calls) b = (.ok new, b') → LinkedIn id calls new b' := by
  have hs := records_built id calls
  exact ⟨spliceable_iff hs, fun _ _ h => linkedIn_of_splice hs h⟩

/-- A label that is bound behind the last instruction stands for none. -/
example : (built 7 [.label, .branch .brS (.label ⟨7, 0⟩), .bind ⟨7, 0⟩]).resolve (.empty ⟨0, 0⟩)
    = .error (.unboundLabel 0) := by rfl

end Sequence

end CilEdit

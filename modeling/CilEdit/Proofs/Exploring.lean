import CilEdit.Proofs.Reachability

/-!
What a search of the control flow visits.

Whatever the depths, a search visits no position twice and none that is not reachable, in whatever
order it takes the positions that are pending; when nothing is pending any more, it has visited all
that are reachable. If some assignment of depths to positions agrees with the control flow, the
first way to a position finds the same depth as every other, and each position is visited with the
depth that is assigned to it.
-/

namespace CilEdit.StackDepth

variable {code : List (Instruction Nat)} {handlers : List (Handler Nat)} {resolve : Resolver}
  {returnsValue : Bool} {d : Nat → Nat} {f g : Frontier} {p q n : Nat} {i : Instruction Nat}
  {pops pushes : Nat} {visits : List Visit}

/-- An assignment of a depth to every position that agrees with the control flow. -/
structure Consistent (resolve : Resolver) (returnsValue : Bool) (code : List (Instruction Nat))
    (handlers : List (Handler Nat)) (d : Nat → Nat) : Prop where
  start : d 0 = 0
  handler : ∀ h ∈ handlers, d h.handlerStart = if h.flags.isCleanup then 0 else 1
  filter : ∀ h ∈ handlers, ∀ q, h.filterStart = some q → d q = 1
  step : ∀ p i, Reachable code handlers p → code[p]? = some i →
    ∃ pops pushes, effect resolve returnsValue i = .ok (pops, pushes) ∧
      (∀ t ∈ i.operand.targets,
        d t = if i.opcode.flow = .leave then 0 else d p - pops + pushes) ∧
      (i.opcode.flow.fallsThrough = true → p + 1 < code.length → d (p + 1) = d p - pops + pushes)

namespace Frontier

/-- Records ways to positions, from the first to the last. -/
def enterWays (f : Frontier) (ways : List (Nat × Nat)) : Frontier :=
  ways.foldl (fun f way => f.enter way.1 way.2) f

theorem enterAll_eq (f : Frontier) (positions : List Nat) (depth : Nat) :
    f.enterAll positions depth = f.enterWays (positions.map fun t => (t, depth)) := by
  rw [enterAll, enterWays, List.foldl_map]

theorem enterWays_append (f : Frontier) (first second : List (Nat × Nat)) :
    f.enterWays (first ++ second) = (f.enterWays first).enterWays second := by
  rw [enterWays, List.foldl_append]
  rfl

end Frontier

/-- The ways on from a visited instruction. -/
def ways (i : Instruction Nat) (v : Visit) : List (Nat × Nat) :=
  (i.operand.targets.map fun t => (t, if i.opcode.flow = .leave then 0 else v.after)) ++
    if i.opcode.flow.fallsThrough then [(v.position + 1, v.after)] else []

theorem successors_eq (f : Frontier) (i : Instruction Nat) (v : Visit) :
    successors f i v = f.enterWays (ways i v) := by
  rw [ways, Frontier.enterWays_append, ← Frontier.enterAll_eq]
  cases hfalls : i.opcode.flow.fallsThrough with
  | false =>
      simp only [successors, hfalls, Bool.false_eq_true, if_false]
      rfl
  | true =>
      simp only [successors, hfalls, if_true]
      rfl

/-- The ways into a handler. -/
def waysInto (h : Handler Nat) : List (Nat × Nat) :=
  (h.handlerStart, h.pushesException.toNat) :: h.filterStart.toList.map fun q => (q, 1)

theorem enterHandler_eq (f : Frontier) (h : Handler Nat) :
    enterHandler f h = f.enterWays (waysInto h) := by
  cases hfilter : h.filterStart <;> simp [enterHandler, waysInto, Frontier.enterWays, hfilter]

/-- The ways into the code: its start, the handlers and the filters. -/
def entryWays (handlers : List (Handler Nat)) : List (Nat × Nat) :=
  (0, 0) :: handlers.flatMap waysInto

theorem entries_eq (size : Nat) (handlers : List (Handler Nat)) :
    entries size handlers
      = Frontier.enterWays ⟨Array.replicate size none, []⟩ (entryWays handlers) := by
  have hhandlers : ∀ f : Frontier,
      handlers.foldl enterHandler f = f.enterWays (handlers.flatMap waysInto) := by
    induction handlers with
    | nil => exact fun f => rfl
    | cons h handlers ih =>
        intro f
        rw [List.foldl_cons, ih, enterHandler_eq, List.flatMap_cons, Frontier.enterWays_append]
  exact hhandlers _

theorem mem_ways {v : Visit} {way : Nat × Nat} : way ∈ ways i v ↔
    (way.1 ∈ i.operand.targets ∧ way.2 = if i.opcode.flow = .leave then 0 else v.after) ∨
      (i.opcode.flow.fallsThrough = true ∧ way = (v.position + 1, v.after)) := by
  rw [ways, List.mem_append, List.mem_map]
  refine or_congr ?_ ?_
  · constructor
    · rintro ⟨t, ht, rfl⟩
      exact ⟨ht, rfl⟩
    · rintro ⟨ht, hdepth⟩
      exact ⟨way.1, ht, by rw [← hdepth]⟩
  · cases i.opcode.flow.fallsThrough <;> simp

theorem mem_waysInto {h : Handler Nat} {way : Nat × Nat} : way ∈ waysInto h ↔
    way = (h.handlerStart, h.pushesException.toNat) ∨ h.filterStart = some way.1 ∧ way.2 = 1 := by
  rw [waysInto, List.mem_cons, List.mem_map]
  refine or_congr Iff.rfl ?_
  constructor
  · rintro ⟨q, hq, rfl⟩
    exact ⟨Option.mem_toList.mp hq, rfl⟩
  · rintro ⟨hfilter, hdepth⟩
    exact ⟨way.1, Option.mem_toList.mpr hfilter, by rw [← hdepth]⟩

theorem mem_entryWays {way : Nat × Nat} : way ∈ entryWays handlers ↔
    way = (0, 0) ∨ ∃ h ∈ handlers, way ∈ waysInto h := by
  rw [entryWays, List.mem_cons, List.mem_flatMap]

theorem reachable_entry {way : Nat × Nat} (hway : way ∈ entryWays handlers) :
    Reachable code handlers way.1 := by
  rcases mem_entryWays.mp hway with rfl | ⟨h, hh, hway⟩
  · exact .start
  · rcases mem_waysInto.mp hway with rfl | ⟨hfilter, -⟩
    · exact .handler hh
    · exact .filter hh hfilter

theorem reachable_way {v : Visit} (hv : Reachable code handlers v.position)
    (hi : code[v.position]? = some i) {way : Nat × Nat} (hway : way ∈ ways i v) :
    Reachable code handlers way.1 := by
  rcases mem_ways.mp hway with ⟨htarget, -⟩ | ⟨hfalls, rfl⟩
  · exact .branch hv hi htarget
  · exact .next hv hi hfalls

/-- A visit to a reachable instruction with the assigned depth. -/
structure Faithful (resolve : Resolver) (returnsValue : Bool) (code : List (Instruction Nat))
    (handlers : List (Handler Nat)) (d : Nat → Nat) (i : Instruction Nat) (v : Visit) : Prop where
  reachable : Reachable code handlers v.position
  found : code[v.position]? = some i
  effect : effect resolve returnsValue i = .ok (v.pops, v.pushes)
  depth : v.depth = d v.position

theorem Consistent.depth_entry (hd : Consistent resolve returnsValue code handlers d)
    {way : Nat × Nat} (hway : way ∈ entryWays handlers) : way.2 = d way.1 := by
  rcases mem_entryWays.mp hway with rfl | ⟨h, hh, hway⟩
  · exact hd.start.symm
  · rcases mem_waysInto.mp hway with rfl | ⟨hfilter, hdepth⟩
    · rw [hd.handler h hh, Handler.pushesException]
      cases h.flags.isCleanup <;> rfl
    · exact hdepth.trans (hd.filter h hh _ hfilter).symm

theorem Consistent.depth_way (hd : Consistent resolve returnsValue code handlers d) {v : Visit}
    (hv : Faithful resolve returnsValue code handlers d i v) {way : Nat × Nat}
    (hway : way ∈ ways i v) (hlt : way.1 < code.length) : way.2 = d way.1 := by
  obtain ⟨pops, pushes, heffect, htargets, hnext⟩ := hd.step v.position i hv.reachable hv.found
  rw [hv.effect] at heffect
  cases heffect
  rw [← hv.depth] at htargets hnext
  rcases mem_ways.mp hway with ⟨htarget, hdepth⟩ | ⟨hfalls, rfl⟩
  · exact hdepth.trans (htargets _ htarget).symm
  · exact (hnext hfalls hlt).symm

namespace Frontier

def Found (f : Frontier) (p n : Nat) : Prop :=
  f.depths[p]? = some (some n)

def Known (f : Frontier) (p : Nat) : Prop :=
  ∃ n, f.Found p n

theorem enter_of_new (h : f.depths[p]? = some none) (n : Nat) :
    f.enter p n = ⟨f.depths.setIfInBounds p (some n), p :: f.pending⟩ := by
  simp only [enter, h]

theorem enter_of_known (h : f.Known p) (n : Nat) : f.enter p n = f := by
  obtain ⟨m, h⟩ := h
  rw [Found] at h
  simp only [enter, h]

theorem enter_of_outside (h : f.depths.size ≤ p) (n : Nat) : f.enter p n = f := by
  have hnone : f.depths[p]? = none := Array.getElem?_eq_none h
  simp only [enter, hnone]

theorem new_or_known_or_outside (f : Frontier) (p : Nat) :
    f.depths[p]? = some none ∨ f.Known p ∨ f.depths.size ≤ p := by
  cases h : f.depths[p]? with
  | none => exact .inr (.inr (Array.getElem?_eq_none_iff.mp h))
  | some depth =>
      cases depth with
      | none => exact .inl rfl
      | some n => exact .inr (.inl ⟨n, h⟩)

theorem found_setIfInBounds (h : f.depths[p]? = some none) {pending : List Nat} {m : Nat} :
    Found ⟨f.depths.setIfInBounds p (some n), pending⟩ q m ↔ (q = p ∧ m = n) ∨ f.Found q m := by
  obtain ⟨hlt, -⟩ := Array.getElem?_eq_some_iff.mp h
  rw [Found, Found, Array.getElem?_setIfInBounds]
  by_cases hpq : p = q
  · subst hpq
    rw [if_pos rfl, if_pos hlt, h]
    simp [eq_comm]
  · rw [if_neg hpq]
    simp [Ne.symm hpq]

/-- What recording ways does: some positions that were not known are now known, and are pending
before all others. -/
structure Grows (f : Frontier) (fresh : List Nat) (g : Frontier) : Prop where
  size : g.depths.size = f.depths.size
  pending : g.pending = fresh ++ f.pending
  known : ∀ q, g.Known q ↔ q ∈ fresh ∨ f.Known q
  once : fresh.Nodup
  new : ∀ q ∈ fresh, ¬ f.Known q

theorem Grows.refl (f : Frontier) : Grows f [] f :=
  ⟨rfl, rfl, fun _ => (or_iff_right List.not_mem_nil).symm, .nil, nofun⟩

theorem Grows.trans {k : Frontier} {xs ys : List Nat} (hfg : Grows f xs g) (hgk : Grows g ys k) :
    Grows f (ys ++ xs) k where
  size := hgk.size.trans hfg.size
  pending := by rw [hgk.pending, hfg.pending, List.append_assoc]
  known q := by rw [hgk.known, hfg.known, List.mem_append, or_assoc]
  once := by
    refine List.nodup_append.mpr ⟨hgk.once, hfg.once, ?_⟩
    rintro q hys _ hxs rfl
    exact hgk.new q hys ((hfg.known q).mpr (.inl hxs))
  new q hq hf := by
    rcases List.mem_append.mp hq with hq | hq
    · exact hgk.new q hq ((hfg.known q).mpr (.inr hf))
    · exact hfg.new q hq hf

theorem grows_of_new (h : f.depths[p]? = some none) (n : Nat) : Grows f [p] (f.enter p n) := by
  rw [enter_of_new h]
  constructor
  · exact Array.size_setIfInBounds
  · rfl
  · intro q
    rw [List.mem_singleton]
    constructor
    · rintro ⟨m, hm⟩
      exact ((found_setIfInBounds h).mp hm).imp And.left fun hm => ⟨m, hm⟩
    · rintro (rfl | ⟨m, hm⟩)
      · exact ⟨n, (found_setIfInBounds h).mpr (.inl ⟨rfl, rfl⟩)⟩
      · exact ⟨m, (found_setIfInBounds h).mpr (.inr hm)⟩
  · exact List.nodup_singleton p
  · rintro q hq ⟨m, hm⟩
    rw [List.mem_singleton.mp hq, Found, h] at hm
    cases hm

theorem exists_grows_enter (f : Frontier) (p n : Nat) :
    ∃ fresh, Grows f fresh (f.enter p n) ∧ ∀ q ∈ fresh, q = p := by
  rcases new_or_known_or_outside f p with h | h | h
  · exact ⟨[p], grows_of_new h n, fun q hq => List.mem_singleton.mp hq⟩
  · rw [enter_of_known h]
    exact ⟨[], .refl f, nofun⟩
  · rw [enter_of_outside h]
    exact ⟨[], .refl f, nofun⟩

theorem known_enter (hp : p < f.depths.size) (n : Nat) : (f.enter p n).Known p := by
  rcases new_or_known_or_outside f p with h | h | h
  · exact ((grows_of_new h n).known p).mpr (.inl List.mem_cons_self)
  · rwa [enter_of_known h]
  · exact absurd hp (Nat.not_lt.mpr h)

theorem exists_grows_enterWays (f : Frontier) (ways : List (Nat × Nat)) :
    ∃ fresh, Grows f fresh (f.enterWays ways) ∧ ∀ q ∈ fresh, ∃ way ∈ ways, q = way.1 := by
  induction ways generalizing f with
  | nil => exact ⟨[], .refl f, nofun⟩
  | cons way ways ih =>
      obtain ⟨first, hfirst, hway⟩ := exists_grows_enter f way.1 way.2
      obtain ⟨later, hlater, hways⟩ := ih (f.enter way.1 way.2)
      refine ⟨later ++ first, hfirst.trans hlater, fun q hq => ?_⟩
      rcases List.mem_append.mp hq with hq | hq
      · obtain ⟨w, hw, rfl⟩ := hways q hq
        exact ⟨w, List.mem_cons_of_mem way hw, rfl⟩
      · exact ⟨way, List.mem_cons_self, hway q hq⟩

theorem known_enterWays {ways : List (Nat × Nat)} {way : Nat × Nat} (hway : way ∈ ways)
    (hlt : way.1 < f.depths.size) : (f.enterWays ways).Known way.1 := by
  induction ways generalizing f with
  | nil => cases hway
  | cons first ways ih =>
      rcases List.mem_cons.mp hway with rfl | hway
      · obtain ⟨fresh, hgrows, -⟩ := exists_grows_enterWays (f.enter way.1 way.2) ways
        exact (hgrows.known _).mpr (.inr (known_enter hlt _))
      · obtain ⟨fresh, hgrows, -⟩ := exists_grows_enter f first.1 first.2
        exact ih hway (hgrows.size ▸ hlt)

/-- The depths found are the assigned ones. -/
def Agreed (d : Nat → Nat) (f : Frontier) : Prop :=
  ∀ q n, f.Found q n → n = d q

theorem Agreed.enter (hf : f.Agreed d) (hp : p < f.depths.size → n = d p) :
    (f.enter p n).Agreed d := by
  rcases new_or_known_or_outside f p with h | h | h
  · rw [enter_of_new h]
    intro q m hm
    rcases (found_setIfInBounds h).mp hm with ⟨rfl, rfl⟩ | hm
    · exact hp (Array.getElem?_eq_some_iff.mp h).1
    · exact hf q m hm
  · rwa [enter_of_known h]
  · rwa [enter_of_outside h]

theorem Agreed.enterWays (hf : f.Agreed d) {ways : List (Nat × Nat)}
    (hways : ∀ way ∈ ways, way.1 < f.depths.size → way.2 = d way.1) :
    (f.enterWays ways).Agreed d := by
  induction ways generalizing f with
  | nil => exact hf
  | cons way ways ih =>
      obtain ⟨hway, hways⟩ := List.forall_mem_cons.mp hways
      obtain ⟨fresh, hgrows, -⟩ := exists_grows_enter f way.1 way.2
      exact ih (hf.enter hway) (hgrows.size ▸ hways)

end Frontier

/-- The visit to an instruction whose position is taken from the frontier. -/
def Frontier.visit (f : Frontier) (p : Nat) (i : Instruction Nat) (pops pushes : Nat) : Visit :=
  ⟨p, i.opcode, (f.depths[p]?.getD none).getD 0, pops, pushes⟩

/-- A search that takes the pending positions in any order, with its visits from the first to the
last. -/
inductive Search (resolve : Resolver) (returnsValue : Bool) (code : List (Instruction Nat)) :
    Frontier → List Visit → Prop
  | done {f : Frontier} (pending : f.pending = []) : Search resolve returnsValue code f []
  | visit {f : Frontier} {p : Nat} {rest : List Nat} {i : Instruction Nat} {pops pushes : Nat}
      {visits : List Visit} (perm : f.pending.Perm (p :: rest)) (found : code[p]? = some i)
      (effect : effect resolve returnsValue i = .ok (pops, pushes))
      (search : Search resolve returnsValue code
        (successors ⟨f.depths, rest⟩ i (f.visit p i pops pushes)) visits) :
      Search resolve returnsValue code f (f.visit p i pops pushes :: visits)

/-- A part of a search: its visits, from the first to the last, and the frontier after them. -/
inductive Explores (resolve : Resolver) (returnsValue : Bool) (code : List (Instruction Nat)) :
    Frontier → List Visit → Frontier → Prop
  | refl (f : Frontier) : Explores resolve returnsValue code f [] f
  | visit {f g : Frontier} {p : Nat} {rest : List Nat} {i : Instruction Nat} {pops pushes : Nat}
      {visits : List Visit} (perm : f.pending.Perm (p :: rest)) (found : code[p]? = some i)
      (effect : effect resolve returnsValue i = .ok (pops, pushes))
      (next : Explores resolve returnsValue code
        (successors ⟨f.depths, rest⟩ i (f.visit p i pops pushes)) visits g) :
      Explores resolve returnsValue code f (f.visit p i pops pushes :: visits) g

/-- A search is an exploration after which nothing is pending. -/
theorem search_iff : Search resolve returnsValue code f visits ↔
    ∃ g, Explores resolve returnsValue code f visits g ∧ g.pending = [] := by
  constructor
  · intro h
    induction h with
    | @done f hpending => exact ⟨f, .refl f, hpending⟩
    | visit hperm hi heffect _ ih =>
        obtain ⟨g, hexplores, hpending⟩ := ih
        exact ⟨g, .visit hperm hi heffect hexplores, hpending⟩
  · rintro ⟨g, h, hpending⟩
    induction h with
    | refl => exact .done hpending
    | visit hperm hi heffect _ ih => exact .visit hperm hi heffect (ih hpending)

/-- The positions of `seen` were visited, none of them twice: what is known is pending or among
them, is reachable, and includes the ways into the code and on from each of them, as far as they
lead into the code. -/
structure Exploring (code : List (Instruction Nat)) (handlers : List (Handler Nat))
    (f : Frontier) (seen : List Nat) : Prop where
  size : f.depths.size = code.length
  known : ∀ q, f.Known q ↔ q ∈ f.pending ∨ q ∈ seen
  once : (f.pending ++ seen).Nodup
  reachable : ∀ q, f.Known q → Reachable code handlers q
  entry : ∀ way ∈ entryWays handlers, way.1 < code.length → f.Known way.1
  closed : ∀ p ∈ seen, ∀ i, code[p]? = some i → ∀ q < code.length,
    (q ∈ i.operand.targets ∨ i.opcode.flow.fallsThrough = true ∧ q = p + 1) → f.Known q

theorem Exploring.lt_length {seen : List Nat} (hf : Exploring code handlers f seen)
    (hq : f.Known q) : q < code.length := by
  obtain ⟨n, hn⟩ := hq
  rw [← hf.size]
  exact (Array.getElem?_eq_some_iff.mp hn).1

/-- Whatever the search has not found yet is as in the empty frontier. -/
theorem not_known_empty (size : Nat) (q : Nat) :
    ¬ Frontier.Known ⟨Array.replicate size none, []⟩ q := by
  rintro ⟨n, hn⟩
  rw [Frontier.Found, Array.getElem?_replicate] at hn
  split at hn <;> cases hn

theorem exploring_entries (code : List (Instruction Nat)) (handlers : List (Handler Nat)) :
    Exploring code handlers (entries code.length handlers) [] := by
  obtain ⟨fresh, hgrows, hfresh⟩ := Frontier.exists_grows_enterWays
    ⟨Array.replicate code.length none, []⟩ (entryWays handlers)
  have hempty := not_known_empty code.length
  rw [entries_eq]
  constructor
  · exact hgrows.size.trans Array.size_replicate
  · intro q
    rw [hgrows.known, hgrows.pending, List.append_nil]
    exact or_congr_right (iff_of_false (hempty q) List.not_mem_nil)
  · rw [hgrows.pending, List.append_nil, List.append_nil]
    exact hgrows.once
  · intro q hq
    obtain ⟨way, hway, rfl⟩ := hfresh q (((hgrows.known q).mp hq).resolve_right (hempty q))
    exact reachable_entry hway
  · intro way hway hlt
    refine Frontier.known_enterWays hway ?_
    rwa [Array.size_replicate]
  · exact nofun

/-- A visit keeps what an exploration has: the visited position is no longer pending, and those it
leads to are known. -/
theorem Exploring.visit {seen : List Nat} (hf : Exploring code handlers f seen) {rest : List Nat}
    (hperm : f.pending.Perm (p :: rest)) (hi : code[p]? = some i) {v : Visit}
    (hv : v.position = p) :
    Exploring code handlers (successors ⟨f.depths, rest⟩ i v) (p :: seen) := by
  have hmem : p ∈ f.pending := hperm.mem_iff.mpr List.mem_cons_self
  have hp : Reachable code handlers p := hf.reachable p ((hf.known p).mpr (.inl hmem))
  obtain ⟨fresh, hgrows, hfresh⟩ := Frontier.exists_grows_enterWays ⟨f.depths, rest⟩ (ways i v)
  have hsame : ∀ q, Frontier.Known ⟨f.depths, rest⟩ q ↔ f.Known q := fun q => Iff.rfl
  have hold : ∀ q, f.Known q ↔ q ∈ rest ∨ q ∈ p :: seen := by
    intro q
    rw [hf.known, hperm.mem_iff, List.mem_cons, List.mem_cons, or_assoc, or_left_comm]
  have honce : (rest ++ p :: seen).Nodup := by
    refine (List.Perm.nodup_iff ?_).mpr hf.once
    exact List.perm_middle.trans (hperm.symm.append_right seen)
  have hways : ∀ way ∈ ways i v, way.1 < code.length →
      (Frontier.enterWays ⟨f.depths, rest⟩ (ways i v)).Known way.1 := by
    rw [← hf.size]
    exact fun way hway hlt => Frontier.known_enterWays hway hlt
  subst hv
  rw [successors_eq]
  constructor
  · exact hgrows.size.trans hf.size
  · intro q
    rw [hgrows.known, hsame, hold, hgrows.pending, List.mem_append, or_assoc]
  · rw [hgrows.pending, List.append_assoc]
    refine List.nodup_append.mpr ⟨hgrows.once, honce, ?_⟩
    rintro q hq _ hq' rfl
    exact hgrows.new q hq ((hold q).mpr (List.mem_append.mp hq'))
  · intro q hq
    rcases (hgrows.known q).mp hq with hq | hq
    · obtain ⟨way, hway, rfl⟩ := hfresh q hq
      exact reachable_way hp hi hway
    · exact hf.reachable q hq
  · exact fun way hway hlt => (hgrows.known _).mpr (.inr (hf.entry way hway hlt))
  · intro p' hp' i' hi' q hlt hq
    rcases List.mem_cons.mp hp' with rfl | hp'
    · -- The ways on from the visited instruction have just been recorded.
      rw [hi] at hi'
      cases hi'
      rcases hq with hq | ⟨hfalls, rfl⟩
      · exact hways (q, _) (mem_ways.mpr (.inl ⟨hq, rfl⟩)) hlt
      · exact hways _ (mem_ways.mpr (.inr ⟨hfalls, rfl⟩)) hlt
    · exact (hgrows.known q).mpr (.inr (hf.closed p' hp' i' hi' q hlt hq))

theorem Explores.exploring (h : Explores resolve returnsValue code f visits g) {seen : List Nat}
    (hf : Exploring code handlers f seen) :
    Exploring code handlers g ((visits.map Visit.position).reverse ++ seen) := by
  induction h generalizing seen with
  | refl => exact hf
  | visit hperm hi _ _ ih =>
      have hnext := ih (hf.visit hperm hi rfl)
      rw [List.map_cons, List.reverse_cons, List.append_assoc]
      exact hnext

/-- When nothing is pending any more, every reachable position of the code has been visited. -/
theorem Exploring.mem_seen {seen : List Nat} (hf : Exploring code handlers f seen)
    (hpending : f.pending = []) (hp : Reachable code handlers p) (hlt : p < code.length) :
    p ∈ seen := by
  have hseen : ∀ q, f.Known q → q ∈ seen := fun q hq =>
    ((hf.known q).mp hq).resolve_left (by rw [hpending]; exact List.not_mem_nil)
  induction hp with
  | start => exact hseen 0 (hf.entry (0, 0) (mem_entryWays.mpr (.inl rfl)) hlt)
  | @handler h hh =>
      exact hseen _ (hf.entry (_, h.pushesException.toNat)
        (mem_entryWays.mpr (.inr ⟨h, hh, mem_waysInto.mpr (.inl rfl)⟩)) hlt)
  | @filter h q hh hfilter =>
      exact hseen _ (hf.entry (q, 1)
        (mem_entryWays.mpr (.inr ⟨h, hh, mem_waysInto.mpr (.inr ⟨hfilter, rfl⟩)⟩)) hlt)
  | branch _ hi htarget ih =>
      have hsource := ih (List.getElem?_eq_some_iff.mp hi).1
      exact hseen _ (hf.closed _ hsource _ hi _ hlt (.inl htarget))
  | next _ hi hfalls ih =>
      have hsource := ih (List.getElem?_eq_some_iff.mp hi).1
      exact hseen _ (hf.closed _ hsource _ hi _ hlt (.inr ⟨hfalls, rfl⟩))

theorem Search.complete (hsearch : Search resolve returnsValue code f visits) {seen : List Nat}
    (hf : Exploring code handlers f seen) (hp : Reachable code handlers p)
    (hlt : p < code.length) : p ∈ seen ∨ ∃ v ∈ visits, v.position = p := by
  obtain ⟨g, hexplores, hpending⟩ := search_iff.mp hsearch
  rcases List.mem_append.mp ((hexplores.exploring hf).mem_seen hpending hp hlt) with hp | hp
  · exact .inr (List.mem_map.mp (List.mem_reverse.mp hp))
  · exact .inl hp

theorem Consistent.agreed_entries (hd : Consistent resolve returnsValue code handlers d)
    (size : Nat) : (entries size handlers).Agreed d := by
  rw [entries_eq]
  exact Frontier.Agreed.enterWays (fun q n hn => absurd ⟨n, hn⟩ (not_known_empty size q))
    fun way hway _ => hd.depth_entry hway

theorem Exploring.faithful {seen : List Nat} (hf : Exploring code handlers f seen)
    (hagreed : f.Agreed d) (hp : p ∈ f.pending) (hi : code[p]? = some i)
    (heffect : effect resolve returnsValue i = .ok (pops, pushes)) :
    Faithful resolve returnsValue code handlers d i (f.visit p i pops pushes) := by
  obtain ⟨n, hn⟩ := (hf.known p).mpr (.inl hp)
  have hdepth : (f.visit p i pops pushes).depth = n := by
    rw [Frontier.Found] at hn
    simp only [Frontier.visit, hn, Option.getD_some]
  exact ⟨hf.reachable p ⟨n, hn⟩, hi, heffect, hdepth.trans (hagreed p n hn)⟩

theorem Search.faithful (hd : Consistent resolve returnsValue code handlers d)
    (hsearch : Search resolve returnsValue code f visits) {seen : List Nat}
    (hf : Exploring code handlers f seen) (hagreed : f.Agreed d) :
    ∀ v ∈ visits, ∃ i, Faithful resolve returnsValue code handlers d i v := by
  induction hsearch generalizing seen with
  | done => exact nofun
  | @visit f p rest i pops pushes visits hperm hi heffect _ ih =>
      have hvisit := hf.faithful hagreed (hperm.mem_iff.mpr List.mem_cons_self) hi heffect
      have hrest : Frontier.Agreed d ⟨f.depths, rest⟩ := hagreed
      refine List.forall_mem_cons.mpr ⟨⟨i, hvisit⟩, ih (hf.visit hperm hi rfl) ?_⟩
      rw [successors_eq]
      exact hrest.enterWays fun way hway hlt => hd.depth_way hvisit hway (hf.size ▸ hlt)

/-- Why a walk ends: nothing is pending, or what the next instruction does is not known. -/
inductive Ends (resolve : Resolver) (returnsValue : Bool) (code : List (Instruction Nat))
    (g : Frontier) : Option Error → Prop
  | finished (pending : g.pending = []) : Ends resolve returnsValue code g none
  | stopped {p : Nat} {i : Instruction Nat} {e : Error} (pending : p ∈ g.pending)
      (found : code[p]? = some i) (fails : effect resolve returnsValue i = .error e) :
      Ends resolve returnsValue code g (some e)

/-- The walk is an exploration, and leaves off only where the next instruction stops it. -/
theorem exists_explores_walk (hf : ∃ seen, Exploring code handlers f seen) (visits : List Visit) :
    ∃ found g failure, Explores resolve returnsValue code f found g ∧
      Ends resolve returnsValue code g failure ∧
      walk resolve returnsValue code.toArray f visits = (found.reverse ++ visits, failure) := by
  induction f, visits using walk.induct resolve returnsValue code.toArray with
  | case1 f visits hnil => exact ⟨[], f, none, .refl f, .finished hnil, walk_of_nil hnil visits⟩
  | case2 f visits p pending hcons hnone ih =>
      obtain ⟨seen, hf⟩ := hf
      have hlt : p < code.length :=
        hf.lt_length ((hf.known p).mpr (.inl (by rw [hcons]; exact List.mem_cons_self)))
      rw [List.getElem?_toArray, List.getElem?_eq_getElem hlt] at hnone
      cases hnone
  | case3 f visits p pending hcons i hsome e herror =>
      have hi : code[p]? = some i := by rwa [List.getElem?_toArray] at hsome
      refine ⟨[], f, some e, .refl f, .stopped (by rw [hcons]; exact List.mem_cons_self) hi herror,
        ?_⟩
      rw [walk_of_cons hcons, hsome]
      simp only [herror]
      rfl
  | case4 f visits p pending hcons i hsome pops pushes heffect v ih =>
      obtain ⟨seen, hf⟩ := hf
      have hi : code[p]? = some i := by rwa [List.getElem?_toArray] at hsome
      have hperm : f.pending.Perm (p :: pending) := by rw [hcons]
      obtain ⟨found, g, failure, hexplores, hends, hwalk⟩ := ih ⟨p :: seen, hf.visit hperm hi rfl⟩
      refine ⟨f.visit p i pops pushes :: found, g, failure, .visit hperm hi heffect hexplores,
        hends, ?_⟩
      rw [walk_of_cons hcons, hsome]
      simp only [heffect]
      rw [List.reverse_cons, List.append_assoc]
      exact hwalk

theorem exists_explores (resolve : Resolver) (returnsValue : Bool) (code : List (Instruction Nat))
    (handlers : List (Handler Nat)) :
    ∃ visits g failure, Explores resolve returnsValue code (entries code.length handlers) visits g ∧
      Exploring code handlers g (visits.map Visit.position).reverse ∧
      Ends resolve returnsValue code g failure ∧
      explore resolve returnsValue code handlers = (visits, failure) := by
  obtain ⟨visits, g, failure, hexplores, hends, hwalk⟩ :=
    @exists_explores_walk code handlers resolve returnsValue _ ⟨[], exploring_entries code handlers⟩
      []
  have hexploring := hexplores.exploring (exploring_entries code handlers)
  rw [List.append_nil] at hexploring hwalk
  refine ⟨visits, g, failure, hexplores, hexploring, hends, ?_⟩
  rw [explore, hwalk]
  exact congrArg (·, failure) (List.reverse_reverse visits)

/-- Nothing stops the walk over code whose depths are assigned. -/
theorem Consistent.exists_explore (hd : Consistent resolve returnsValue code handlers d) :
    ∃ visits, Search resolve returnsValue code (entries code.length handlers) visits ∧
      explore resolve returnsValue code handlers = (visits, none) := by
  obtain ⟨visits, g, failure, hexplores, hexploring, hends, hexplore⟩ :=
    exists_explores resolve returnsValue code handlers
  cases hends with
  | finished hpending => exact ⟨visits, search_iff.mpr ⟨g, hexplores, hpending⟩, hexplore⟩
  | @stopped p i e hpending hi herror =>
      have hp := hexploring.reachable p ((hexploring.known p).mpr (.inl hpending))
      obtain ⟨pops, pushes, heffect, -⟩ := hd.step p i hp hi
      rw [heffect] at herror
      cases herror

theorem maxStack_eq_error {e : Error}
    (hshape : ∀ i ∈ code, i.operand.hasShape i.opcode.operand = true)
    (h : maxStack resolve returnsValue code handlers = .error e) :
    (∃ p i t, Reachable code handlers p ∧ code[p]? = some i ∧ CallsToken i t ∧
      resolve t = none ∧ e = .unresolvedToken t) ∨
    ∃ visits, explore resolve returnsValue code handlers = (visits, none) ∧
      UInt16.size ≤ deepest visits ∧ e = .malformed (.stackTooDeep (deepest visits)) := by
  obtain ⟨visits, g, failure, -, hexploring, hends, hexplore⟩ :=
    exists_explores resolve returnsValue code handlers
  rw [maxStack, hexplore] at h
  cases hends with
  | @stopped p i e' hpending hi herror =>
      cases h
      obtain ⟨t, hcalls, hnone, he⟩ := effect_eq_error (hshape i (List.mem_of_getElem? hi)) herror
      have hp := hexploring.reachable p ((hexploring.known p).mpr (.inl hpending))
      exact .inl ⟨p, i, t, hp, hi, hcalls, hnone, he⟩
  | finished =>
      by_cases hdeep : deepest visits < UInt16.size
      · simp only [if_pos hdeep] at h
        cases h
      · simp only [if_neg hdeep] at h
        exact .inr ⟨visits, hexplore, Nat.not_lt.mp hdeep, (Except.error.inj h).symm⟩

end CilEdit.StackDepth

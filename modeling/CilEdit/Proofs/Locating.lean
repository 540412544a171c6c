import CilEdit.Patch.Descriptor
import CilEdit.Proofs.BodyRoundTrip
import CilEdit.Proofs.Handles
import CilEdit.Proofs.Offsets
import Mathlib.Data.List.TakeWhile

namespace CilEdit

namespace Body

variable {b b' : Body} {f : Handle → Handle} {h k : Handle} {i : Instruction Handle} {p : Nat}

/-- The bodies have instructions at the same recorded offsets, and `f` maps the handles of the first
to those of the second. -/
structure Mirrors (f : Handle → Handle) (b b' : Body) : Prop where
  shifted : b'.shifted = b.shifted
  entries : List.Forall₂ (fun e e' => e'.1 = f e.1 ∧ e'.2.offset = e.2.offset) b.entries b'.entries

theorem at?_eq (b : Body) (p : Nat) : b.at? p = b.entries[p]?.map Prod.fst := by
  cases he : b.entries[p]? with
  | some e =>
      obtain ⟨slot, hslot, hhandle, -⟩ := getElem?_entries.mp he
      rw [at?, hslot, Option.map_some, Option.map_some, hhandle]
  | none =>
      rw [List.getElem?_eq_none_iff, length_entries, length] at he
      rw [at?, Array.getElem?_eq_none he]
      rfl

theorem Mirrors.at?_eq (hb : Mirrors f b b') (p : Nat) : b'.at? p = (b.at? p).map f := by
  rw [Body.at?_eq, Body.at?_eq, Option.map_map]
  have hlength := hb.entries.length_eq
  by_cases hp : p < b.entries.length
  · have he := List.getElem?_eq_getElem hp
    have he' := List.getElem?_eq_getElem (Nat.lt_of_lt_of_eq hp hlength)
    rw [he, he', Option.map_some, Option.map_some, (forall₂_getElem? hb.entries he he').1]
    rfl
  · have hle := Nat.not_lt.mp hp
    rw [List.getElem?_eq_none hle, List.getElem?_eq_none (hlength ▸ hle)]
    rfl

/-- What is found by its recorded offset first stands at the same position. -/
theorem find?_rel {R : Handle × Instruction Handle → Handle × Instruction Handle → Prop}
    {entries entries' : List (Handle × Instruction Handle)} (h : List.Forall₂ R entries entries')
    (hoffset : ∀ e e', R e e' → e'.2.offset = e.2.offset) (test : Option Nat → Bool) :
    Option.Rel R (entries.find? fun e => test e.2.offset)
      (entries'.find? fun e => test e.2.offset) := by
  induction h with
  | nil => exact .none
  | @cons e e' entries entries' he _ ih =>
      rw [List.find?_cons, List.find?_cons, hoffset e e' he]
      cases test e.2.offset with
      | true => exact .some he
      | false => exact ih

theorem exists_of_find? {test : Instruction Handle → Bool} (hfound : b.find? test = some h) :
    ∃ i, (h, i) ∈ b.entries ∧ test i = true := by
  obtain ⟨⟨k, i⟩, hi, rfl⟩ := Option.map_eq_some_iff.mp hfound
  have htest := List.find?_some hi
  exact ⟨i, List.mem_of_find?_eq_some hi, htest⟩

/-- What a scan finds for an offset: the first entry that is not recorded below it, if that entry is
recorded at it. -/
def reached (entries : List (Handle × Instruction Handle)) (n : Nat) : Option Handle :=
  ((entries.find? fun e => e.2.offset.any (n ≤ ·)).filter fun e => e.2.offset == some n).map Prod.fst

section

variable {entries : List (Handle × Instruction Handle)} {e : Handle × Instruction Handle} {n k : Nat}

theorem reached_cons_of_neg (h : e.2.offset.any (n ≤ ·) = false) :
    reached (e :: entries) n = reached entries n := by
  simp only [reached, List.find?_cons, h]

theorem reached_cons_of_lt (h : e.2.offset = some k) (hlt : n < k) :
    reached (e :: entries) n = none := by
  have hle : e.2.offset.any (n ≤ ·) = true := by simp [h, Nat.le_of_lt hlt]
  have hne : ¬(e.2.offset == some n) = true := by simp [h, Nat.ne_of_gt hlt]
  simp only [reached, List.find?_cons, hle, Option.filter_some, if_neg hne, Option.map_none]

theorem reached_cons_self (h : e.2.offset = some n) : reached (e :: entries) n = some e.1 := by
  have hle : e.2.offset.any (n ≤ ·) = true := by simp [h]
  have heq : (e.2.offset == some n) = true := by simp [h]
  simp only [reached, List.find?_cons, hle, Option.filter_some, if_pos heq, Option.map_some]

end

theorem le_of_mem_dropWhile {offsets : List Nat} (hsorted : offsets.Pairwise (· ≤ ·)) (k : Nat) :
    ∀ n ∈ offsets.dropWhile (· < k), k ≤ n := by
  induction offsets with
  | nil => nofun
  | cons first rest ih =>
      obtain ⟨hfirst, hrest⟩ := List.pairwise_cons.mp hsorted
      by_cases hlt : first < k
      · rw [List.dropWhile_cons_of_pos (by simpa using hlt)]
        exact ih hrest
      · rw [List.dropWhile_cons_of_neg (by simpa using hlt)]
        have hk := Nat.not_lt.mp hlt
        exact List.forall_mem_cons.mpr ⟨hk, fun n hn => Nat.le_trans hk (hfirst n hn)⟩

theorem lt_of_mem_dropWhile {offsets : List Nat} (hsorted : offsets.Pairwise (· ≤ ·)) {k : Nat}
    (hall : ∀ n ∈ offsets, k ≤ n) : ∀ n ∈ offsets.dropWhile (· == k), k < n := by
  induction offsets with
  | nil => nofun
  | cons first rest ih =>
      obtain ⟨hfirst, hrest⟩ := List.pairwise_cons.mp hsorted
      obtain ⟨hk, hall⟩ := List.forall_mem_cons.mp hall
      by_cases heq : first = k
      · rw [List.dropWhile_cons_of_pos (by simpa using heq)]
        exact ih hrest hall
      · rw [List.dropWhile_cons_of_neg (by simpa using heq)]
        have hlt := Nat.lt_of_le_of_ne hk (Ne.symm heq)
        exact List.forall_mem_cons.mpr ⟨hlt, fun n hn => Nat.lt_of_lt_of_le hlt (hfirst n hn)⟩

/-- A scan of sorted offsets finds what it finds for each of them. -/
theorem scanFrom_eq (entries : List (Handle × Instruction Handle)) (found : List (Option Handle))
    {offsets : List Nat} (hsorted : offsets.Pairwise (· ≤ ·)) :
    scanFrom found entries offsets = found.reverse ++ offsets.map (reached entries) := by
  induction entries generalizing found offsets with
  | nil =>
      have hnone : reached [] = fun _ => none := rfl
      cases offsets <;> simp [scanFrom, hnone]
  | cons e entries ih =>
      obtain ⟨h, i⟩ := e
      cases offsets with
      | nil => simp [scanFrom]
      | cons first rest =>
          simp only [scanFrom]
          generalize first :: rest = offsets at hsorted ⊢
          cases hoffset : i.offset with
          | none =>
              rw [ih found hsorted]
              have hskip : ∀ n ∈ offsets, reached entries n = reached ((h, i) :: entries) n :=
                fun n _ => (reached_cons_of_neg (by simp [hoffset])).symm
              rw [List.map_congr_left hskip]
          | some offset =>
              dsimp only
              have hpassed : ∀ n ∈ offsets.takeWhile (· < offset),
                  reached ((h, i) :: entries) n = none := fun n hn =>
                reached_cons_of_lt hoffset
                  (of_decide_eq_true (List.mem_takeWhile_imp (p := fun n => n < offset) hn))
              have hoffsets := List.takeWhile_append_dropWhile (p := fun n => n < offset) (l := offsets)
              have hleft := hsorted.sublist (List.dropWhile_sublist (· < offset))
              have habove := le_of_mem_dropWhile hsorted offset
              generalize offsets.takeWhile (· < offset) = passed,
                offsets.dropWhile (· < offset) = left at hpassed hoffsets hleft habove ⊢
              have hhits : ∀ n ∈ left.takeWhile (· == offset),
                  reached ((h, i) :: entries) n = some h := fun n hn => by
                have heq := beq_iff_eq.mp (List.mem_takeWhile_imp (p := fun n => n == offset) hn)
                exact reached_cons_self (e := (h, i)) (hoffset.trans (congrArg some heq.symm))
              have hparts := List.takeWhile_append_dropWhile (p := fun n => n == offset) (l := left)
              have hrest := hleft.sublist (List.dropWhile_sublist (· == offset))
              have hbeyond := lt_of_mem_dropWhile hleft habove
              generalize left.takeWhile (· == offset) = hits,
                left.dropWhile (· == offset) = rest at hhits hparts hrest hbeyond ⊢
              have hlater : ∀ n ∈ rest, reached ((h, i) :: entries) n = reached entries n :=
                fun n hn => reached_cons_of_neg (by simp [hoffset, hbeyond n hn])
              rw [ih _ hrest, ← hoffsets, ← hparts, List.map_append, List.map_append,
                List.map_congr_left hpassed, List.map_congr_left hhits, List.map_congr_left hlater]
              simp

theorem scan_eq (b : Body) {offsets : List Nat} (hsorted : offsets.Pairwise (· ≤ ·)) :
    b.scan offsets = offsets.map (reached b.entries) := by
  rw [scan, scanFrom_eq b.entries [] hsorted, List.reverse_nil, List.nil_append]

/-- A scan gives no other instruction than the first one with the offset. -/
theorem find?_of_reached {n : Nat} (hfound : reached b.entries n = some h) :
    b.find? (fun i => i.offset == some n) = some h := by
  obtain ⟨e, hfilter, rfl⟩ := Option.map_eq_some_iff.mp hfound
  obtain ⟨hfirst, hoffset⟩ := Option.filter_eq_some_iff.mp hfilter
  obtain ⟨-, before, after, hsplit, hbefore⟩ := List.find?_eq_some_iff_append.mp hfirst
  have hentry : b.entries.find? (fun e => e.2.offset == some n) = some e := by
    refine List.find?_eq_some_iff_append.mpr ⟨hoffset, before, after, hsplit, fun f hf => ?_⟩
    have hbelow := hbefore f hf
    cases hrecorded : f.2.offset with
    | none => rfl
    | some k =>
        rw [hrecorded] at hbelow
        simp only [Option.any_some, Bool.not_eq_true', decide_eq_false_iff_not] at hbelow
        simp only [Bool.not_eq_true', beq_eq_false_iff_ne, ne_eq, Option.some.injEq]
        exact fun heq => hbelow (Nat.le_of_eq heq.symm)
  rw [find?, hentry, Option.map_some]

theorem pairwise_mergeSort_le (offsets : List Nat) : offsets.mergeSort.Pairwise (· ≤ ·) := by
  have hsorted : (offsets.mergeSort fun a b => decide (a ≤ b)).Pairwise
      fun a b => decide (a ≤ b) = true :=
    List.pairwise_mergeSort
      (fun _ _ _ hab hbc => by simp only [decide_eq_true_eq] at *; omega)
      (fun _ _ => by simp only [Bool.or_eq_true, decide_eq_true_eq]; omega) offsets
  exact hsorted.imp of_decide_eq_true

theorem Mirrors.reached (hb : Mirrors f b b') (n : Nat) :
    Body.reached b'.entries n = (Body.reached b.entries n).map f := by
  have hrel := find?_rel hb.entries (fun _ _ he => he.2) fun o => o.any (n ≤ ·)
  rw [Body.reached, Body.reached]
  generalize b.entries.find? _ = found, b'.entries.find? _ = found' at hrel
  cases hrel with
  | none => rfl
  | @some e e' he =>
      obtain ⟨h, i⟩ := e
      obtain ⟨h', i'⟩ := e'
      obtain ⟨rfl, hoffset⟩ : h' = f h ∧ i'.offset = i.offset := he
      rw [Option.filter_some, Option.filter_some, hoffset]
      split <;> rfl

theorem Mirrors.find?_offset (hb : Mirrors f b b') (n : Nat) :
    b'.find? (fun i => i.offset == some n) = (b.find? fun i => i.offset == some n).map f := by
  have hrel := find?_rel hb.entries (fun _ _ he => he.2) (· == some n)
  rw [find?, find?]
  generalize b.entries.find? _ = found, b'.entries.find? _ = found' at hrel
  cases hrel with
  | none => rfl
  | some he => exact congrArg some he.1

end Body

theorem lookup_zip_map_self {α β : Type} [BEq α] [LawfulBEq α] (g : α → β) {xs : List α} {a : α}
    (ha : a ∈ xs) : (xs.zip (xs.map g)).lookup a = some (g a) := by
  induction xs with
  | nil => cases ha
  | cons x xs ih =>
      rw [List.map_cons, List.zip_cons_cons, List.lookup_cons]
      cases heq : a == x with
      | true => rw [beq_iff_eq.mp heq]
      | false =>
          refine ih ((List.mem_cons.mp ha).resolve_left ?_)
          rwa [beq_eq_false_iff_ne] at heq

/-- The instruction that a locator denotes. -/
def Locator.find (b : Body) : Locator → Except Error Handle
  | .offset n => b.findByOffset n
  | .index n => b.handleAt n

theorem Locator.find_offset_eq_ok_iff {b : Body} {n : Nat} {h : Handle} :
    (Locator.offset n).find b = .ok h ↔
      b.shifted = false ∧ b.find? (fun i => i.offset == some n) = some h := by
  rw [Locator.find, Body.findByOffset, Body.checkFresh]
  cases b.shifted
  · cases b.find? fun i => i.offset == some n with
    | none => exact ⟨nofun, fun hfound => nomatch hfound.2⟩
    | some k => exact ⟨fun hk => ⟨rfl, congrArg some (Except.ok.inj hk)⟩,
        fun hfound => congrArg Except.ok (Option.some.inj hfound.2)⟩
  · exact ⟨nofun, fun hfresh => nomatch hfresh.1⟩

theorem Locator.find_index_eq_ok_iff {b : Body} {n : Nat} {h : Handle} :
    (Locator.index n).find b = .ok h ↔ b.at? n = some h := by
  rw [Locator.find, Body.handleAt]
  cases b.at? n <;> simp

/-- What is located for a site: one at an offset by the scan. -/
def Locator.reached (b : Body) : Locator → Option Handle
  | .offset n => Body.reached b.entries n
  | .index n => b.at? n

theorem Locator.reached_of_mirrors {b b' : Body} {f : Handle → Handle} (hb : b.Mirrors f b')
    (l : Locator) : l.reached b' = (l.reached b).map f := by
  cases l with
  | offset n => exact hb.reached n
  | index n => exact hb.at?_eq n

namespace Descriptor

variable {d : Descriptor} {b : Body}

theorem mem_offsets {s : Site} {n : Nat} (hs : s ∈ d.sites) (hlocator : s.locator = .offset n) :
    n ∈ d.offsets := by
  refine List.mem_filterMap.mpr ⟨s, hs, ?_⟩
  rw [hlocator]

theorem locate_eq_ok_iff {located : List (Option Handle)} : d.locate b = .ok located ↔
    (d.offsets = [] ∨ b.shifted = false) ∧ located = d.sites.map fun s => s.locator.reached b := by
  have hfresh : ¬(!d.offsets.isEmpty ∧ b.shifted) ↔ d.offsets = [] ∨ b.shifted = false := by
    rw [not_and_or, Bool.not_eq_true', Bool.not_eq_false, List.isEmpty_iff, Bool.not_eq_true]
  have hfound : d.sites.map (fun s => match s.locator with
      | .offset n => ((d.offsets.mergeSort.zip (b.scan d.offsets.mergeSort)).lookup n).join
      | .index n => b.at? n) = d.sites.map fun s => s.locator.reached b := by
    refine List.map_congr_left fun s hs => ?_
    cases hlocator : s.locator with
    | index n => rfl
    | offset n =>
        dsimp only
        rw [Body.scan_eq b (Body.pairwise_mergeSort_le _),
          lookup_zip_map_self _ (List.mem_mergeSort.mpr (mem_offsets hs hlocator))]
        rfl
  rw [locate]
  split
  · rename_i hstale
    exact ⟨nofun, fun h => absurd hstale (hfresh.mpr h.1)⟩
  · rename_i hnot
    rw [Except.ok.injEq, ← hfound]
    exact ⟨fun heq => ⟨hfresh.mp hnot, heq.symm⟩, fun h => h.2.symm⟩

/-- The sites of a descriptor are found where their locators denote. -/
theorem find_of_locate {handles : List Handle} (hlocate : d.locate b = .ok (handles.map some)) :
    List.Forall₂ (fun s h => s.locator.find b = .ok h) d.sites handles := by
  obtain ⟨hfresh, hlocated⟩ := locate_eq_ok_iff.mp hlocate
  have hall := List.forall₂_eq_eq_eq ▸ hlocated.symm
  rw [List.forall₂_map_left_iff, List.forall₂_map_right_iff] at hall
  refine forall₂_imp_mem hall fun s hs h _ hfound => ?_
  cases hlocator : s.locator with
  | index n =>
      rw [hlocator] at hfound
      exact Locator.find_index_eq_ok_iff.mpr hfound
  | offset n =>
      rw [hlocator] at hfound
      refine Locator.find_offset_eq_ok_iff.mpr ⟨?_, Body.find?_of_reached hfound⟩
      exact hfresh.resolve_left (List.ne_nil_of_mem (mem_offsets hs hlocator))

/-- The sites of a descriptor are found at the corresponding handles. -/
theorem locate_of_mirrors {b' : Body} {f : Handle → Handle} (hb : b.Mirrors f b')
    {located : List (Option Handle)} (h : d.locate b = .ok located) :
    d.locate b' = .ok (located.map (Option.map f)) := by
  obtain ⟨hfresh, rfl⟩ := locate_eq_ok_iff.mp h
  refine locate_eq_ok_iff.mpr ⟨by rwa [hb.shifted], ?_⟩
  rw [List.map_map]
  exact List.map_congr_left fun s _ => (s.locator.reached_of_mirrors hb).symm

end Descriptor

namespace Body

variable {b b' : Body} {h k : Handle} {i : Instruction Handle} {p : Nat}

/-- A body as it is loaded: it can be encoded, and every instruction is in its place. -/
structure Fresh (b : Body) : Prop extends b.Encodable where
  inPlace : b.InPlace
  unshifted : b.shifted = false

theorem fresh_of_decode {id : BodyId} {data : Bytes} (h : decode id data = .ok b) : b.Fresh := by
  obtain ⟨hlinked, hshape, -, hfilters⟩ := decode_spec h
  obtain ⟨header, code, raws, -, -, -, hb⟩ := readFrom_of_decode h
  exact ⟨⟨hlinked, hshape, hfilters⟩, inPlace_of_decode h, hb.unshifted⟩

theorem instruction_eq_ok_iff_get? : b.instruction h = .ok i ↔ b.get? h = some i := by
  rw [instruction_eq_ok_iff, get?_eq_some_iff, contains_iff_slot]
  constructor
  · rintro ⟨⟨hbody, -⟩, hslot⟩
    exact ⟨hbody, hslot⟩
  · rintro ⟨hbody, hslot⟩
    exact ⟨⟨hbody, i, hslot⟩, hslot⟩

theorem mem_entries_iff_get? : (h, i) ∈ b.entries ↔ b.get? h = some i := by
  rw [mem_entries_iff, ← instruction_eq_ok_iff, instruction_eq_ok_iff_get?]

theorem shape_of_instruction
    (hshape : ∀ e ∈ b.entries, e.2.operand.hasShape e.2.opcode.operand = true)
    (hi : b.instruction h = .ok i) : i.operand.hasShape i.opcode.operand = true :=
  hshape (h, i) (mem_entries_iff.mpr (instruction_eq_ok_iff.mp hi))

/-- All operands of an opcode have the same size, unless it takes a switch table. -/
theorem size_of_shape {opcode : Opcode} {x y : Operand Handle} (hkind : opcode.operand ≠ .switch)
    (hx : x.hasShape opcode.operand = true) (hy : y.hasShape opcode.operand = true) :
    x.size opcode = y.size opcode := by
  have hsize : ∀ z : Operand Handle, z.hasShape opcode.operand = true →
      z.size opcode = opcode.operand.size?.getD 0 := by
    intro z hz
    cases z with
    | switch ts => exact absurd (Operand.hasShape_switch_iff.mp hz) hkind
    | none | immediate v | token t | target t => rfl
  rw [hsize x hx, hsize y hy]

theorem eq_of_shifted {shifted : Bool} (h : b.shifted = shifted) : { b with shifted } = b := by
  subst h
  rfl

/-- A fresh body stays fresh when an operand without targets is written over another one of the
same size. -/
theorem Fresh.overwrite (hb : b.Fresh) {opcode : Opcode} {operand : Operand Handle}
    {old : Instruction Handle} (hold : b.instruction h = .ok old)
    (hsize : opcode.size + operand.size opcode = old.size)
    (hshape : operand.hasShape opcode.operand = true) (htargets : operand.targets = []) :
    (b.overwrite h.slot opcode operand).Fresh where
  linked := hb.linked.overwrite fun t ht => by
    rw [htargets] at ht
    cases ht
  shape := by
    apply shape_iff.mpr
    intro n j hj
    obtain ⟨was, hwas, rfl⟩ := slot_overwrite.mp hj
    split
    · exact hshape
    · exact shape_iff.mp hb.shape n was hwas
  filters := hb.filters
  inPlace := hb.inPlace.overwrite hold hsize htargets
  unshifted := hb.unshifted

theorem mirrors_overwrite (b : Body) (slot : Nat) (opcode : Opcode) (operand : Operand Handle) :
    b.Mirrors (fun t => t) (b.overwrite slot opcode operand) where
  shifted := rfl
  entries := by
    rw [entries_overwrite, List.forall₂_map_right_iff, List.forall₂_same]
    intro e _
    refine ⟨rfl, ?_⟩
    dsimp only
    split <;> rfl

theorem Fresh.replace (hb : b.Fresh) {old : Instruction Handle} (hold : b.instruction h = .ok old)
    (hsize : i.size = old.size)
    (hshape : i.operand.hasShape i.opcode.operand = true) (htargets : i.operand.targets = []) :
    Body.replace h i b = (.ok (), b.overwrite h.slot i.opcode i.operand) ∧
      (b.overwrite h.slot i.opcode i.operand).Fresh := by
  refine ⟨?_, hb.overwrite hold hsize hshape htargets⟩
  rcases replace_cases h i b with ⟨was, hwas, -, heq⟩ | ⟨e, -, herror | ⟨-, herror⟩⟩
  · rw [hold] at hwas
    cases hwas
    rw [heq, hsize, bne_self_eq_false, Bool.or_false]
    exact congrArg _ (eq_of_shifted rfl)
  · rw [hold] at herror
    cases herror
  · rw [checkTargets, htargets] at herror
    cases herror

/-- Writing a literal over an operand of the same opcode succeeds and changes nothing else. -/
theorem Fresh.replace_literal (hb : b.Fresh) {opcode : Opcode} {v : Immediate}
    {old : Instruction Handle} (hold : b.instruction h = .ok old) (hopcode : old.opcode = opcode)
    (hkind : v.kind = opcode.operand) :
    Body.replace h ⟨opcode, .immediate v, none⟩ b
        = (.ok (), b.overwrite h.slot opcode (.immediate v)) ∧
      (b.overwrite h.slot opcode (.immediate v)).Fresh := by
  have hshape := shape_of_instruction hb.shape hold
  rw [hopcode] at hshape
  have hliteral : (Operand.immediate v : Operand Handle).hasShape opcode.operand = true :=
    Operand.hasShape_immediate_iff.mpr hkind
  have hswitch : opcode.operand ≠ .switch := by
    rw [← hkind]
    cases v <;> nofun
  refine hb.replace (i := ⟨opcode, .immediate v, none⟩) hold ?_ hliteral rfl
  rw [Instruction.size, Instruction.size, hopcode, size_of_shape hswitch hliteral hshape]

theorem instruction_overwrite {opcode : Opcode} {operand : Operand Handle}
    (hmem : b.contains h = true) (hi : b.instruction k = .ok i) :
    (b.overwrite h.slot opcode operand).instruction k
      = .ok (if h = k then { i with opcode, operand } else i) := by
  rw [instruction_eq_ok_iff_get?] at hi ⊢
  exact get?_overwrite hmem hi

/-- The handle of a reloaded body for the instruction at `h`. -/
def reloaded (b b' : Body) (h : Handle) : Handle :=
  (b'.at? (b.rank h)).getD h

variable {layout : Layout}

theorem Restores.exists_entry (hb : b.Restores b' layout) {e : Handle × Instruction Handle}
    (he : b.entries[p]? = some e) :
    ∃ e', b'.entries[p]? = some e' ∧ e'.1 = b.reloaded b' e.1 := by
  have hp : p < b'.entries.length := by
    rw [length_entries, hb.length, ← length_entries]
    exact (List.getElem?_eq_some_iff.mp he).1
  have he' := List.getElem?_eq_getElem hp
  refine ⟨b'.entries[p], he', ?_⟩
  have hat : b.at? p = some e.1 := by rw [Body.at?_eq, he]; rfl
  rw [reloaded, rank_of_at? hat, Body.at?_eq, he']
  rfl

/-- A fresh body has its instructions at the same offsets after it was saved and loaded. -/
theorem Fresh.mirrors (hfresh : b.Fresh) (hmake : Layout.make b.ranked.code = .ok layout)
    (hb : b.Restores b' layout) (hshifted : b'.shifted = false) :
    b.Mirrors (b.reloaded b') b' := by
  refine ⟨hshifted.trans hfresh.unshifted.symm, ?_⟩
  have hlayout := Layout.eq_of_make hfresh.inPlace.settled hmake
  have hlength : b.entries.length = b'.entries.length := by
    rw [length_entries, length_entries, hb.length]
  refine List.forall₂_iff_get.mpr ⟨hlength, ?_⟩
  intro p hp hp'
  have he := List.getElem?_eq_getElem hp
  have he' := List.getElem?_eq_getElem hp'
  obtain ⟨e', hsame, hhandle⟩ := hb.exists_entry he
  rw [he'] at hsame
  cases hsame
  refine ⟨hhandle, ?_⟩
  have hoffset := (hb.instructions p _ _ he he').2.2
  rw [List.get_eq_getElem, List.get_eq_getElem, hoffset, hfresh.inPlace.offsets p _ he, hlayout]

theorem eq_of_map_eq {τ σ : Type} {f g : τ → σ} {x y : Operand τ} (h : x.map f = y.map g)
    (htargets : y.targets = []) : x = y := by
  cases y with
  | target t => cases htargets
  | switch ts =>
      obtain rfl : ts = [] := htargets
      cases x <;> simp_all [Operand.map]
  | none | immediate v | token t => cases x <;> simp_all [Operand.map]

/-- An instruction without targets keeps its opcode and its operand. -/
theorem Restores.exists_instruction (hb : b.Restores b' layout) (hi : b.instruction h = .ok i)
    (hlong : i.opcode.long? = none) (htargets : i.operand.targets = []) :
    ∃ j, b'.instruction (b.reloaded b' h) = .ok j ∧ j.opcode = i.opcode ∧
      j.operand = i.operand := by
  obtain ⟨p, he⟩ := List.mem_iff_getElem?.mp (mem_entries_iff.mpr (instruction_eq_ok_iff.mp hi))
  obtain ⟨e', he', hhandle⟩ := hb.exists_entry he
  obtain ⟨hopcode, hoperand, -⟩ := hb.instructions p _ e' he he'
  refine ⟨e'.2, ?_, ?_, eq_of_map_eq hoperand htargets⟩
  · rw [← hhandle]
    exact instruction_eq_ok_iff.mpr (mem_entries_iff.mp (List.mem_of_getElem? he'))
  · rcases hopcode with hsame | hlengthened
    · exact hsame
    · rw [hlong] at hlengthened
      cases hlengthened

end Body

end CilEdit

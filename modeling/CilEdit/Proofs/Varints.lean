import CilEdit.Proofs.Reading

namespace CilEdit.Varint

open Reader

/-- The groups of a number: the top bit is set on all but the last. -/
inductive Groups : Bytes → Prop
  | last {b : UInt8} (low : b.toNat < 128) : Groups [b]
  | more {b : UInt8} {rest : Bytes} (high : 128 ≤ b.toNat) (tail : Groups rest) : Groups (b :: rest)

def value : Bytes → Nat
  | [] => 0
  | b :: rest => b.toNat % 128 + 128 * value rest

/-- Every byte asks for a further one. -/
def Unfinished (stored : Bytes) : Prop :=
  ∀ b ∈ stored, 128 ≤ b.toNat

instance (stored : Bytes) : Decidable (Unfinished stored) :=
  inferInstanceAs (Decidable (∀ b ∈ stored, 128 ≤ b.toNat))

variable {stored rest : Bytes} {groups shift : Nat} {start : UInt32} {b : UInt8}

theorem Groups.ne_nil (h : Groups stored) : stored ≠ [] := by
  cases h <;> exact List.cons_ne_nil _ _

theorem shiftLeft_split (n shift : Nat) :
    n <<< shift = (n % 128) <<< shift + (n / 128) <<< (shift + 7) := by
  have hn : n = n % 128 + (n / 128) * 128 := by omega
  calc n <<< shift = (n % 128 + (n / 128) * 128) <<< shift := by rw [← hn]
    _ = (n % 128) <<< shift + (n / 128) <<< (shift + 7) := by
      rw [Nat.shiftLeft_eq, Nat.shiftLeft_eq, Nat.shiftLeft_eq, Nat.pow_add', Nat.add_mul,
        Nat.mul_assoc]

theorem value_shiftLeft (b : UInt8) (rest : Bytes) (shift : Nat) :
    value (b :: rest) <<< shift = (b.toNat % 128) <<< shift + value rest <<< (shift + 7) := by
  have hlow : value (b :: rest) % 128 = b.toNat % 128 := by
    rw [value]
    omega
  have hhigh : value (b :: rest) / 128 = value rest := by
    rw [value]
    omega
  rw [shiftLeft_split, hlow, hhigh]

theorem add_digit_lt {value digit shift : Nat} (hvalue : value < 1 <<< shift)
    (hdigit : digit < 128) : value + digit <<< shift < 1 <<< (shift + 7) := by
  have hmul := Nat.mul_le_mul_right (1 <<< shift) (Nat.succ_le_of_lt hdigit)
  rw [Nat.succ_mul] at hmul
  simp only [Nat.shiftLeft_eq, Nat.one_mul, Nat.pow_add'] at hmul hvalue ⊢
  omega

/-- The number read so far with the digit of a further group. -/
def added (start : UInt32) (b : UInt8) (shift : Nat) : UInt32 :=
  start ||| (UInt32.ofNat (b.toNat % 128) <<< UInt32.ofNat shift)

/-- Bits beyond the 32nd are lost when a group is added. -/
theorem toNat_added (b : UInt8) (hshift : shift < 32) (hstart : start.toNat < 1 <<< shift) :
    (added start b shift).toNat = (start.toNat + (b.toNat % 128) <<< shift) % UInt32.size := by
  have hdigit : (UInt32.ofNat (b.toNat % 128)).toNat = b.toNat % 128 :=
    UInt32.toNat_ofNat_of_lt' (Nat.lt_trans (Nat.mod_lt _ (by decide)) (show 128 < _ by decide))
  have hshift' : (UInt32.ofNat shift).toNat = shift :=
    UInt32.toNat_ofNat_of_lt' (Nat.lt_trans hshift (by decide))
  rw [Nat.shiftLeft_eq, Nat.one_mul] at hstart
  rw [added, UInt32.toNat_or, UInt32.toNat_shiftLeft, hdigit, hshift', Nat.mod_eq_of_lt hshift,
    Nat.add_comm, Nat.shiftLeft_add_eq_or_of_lt hstart, Nat.or_comm]
  change _ = (_ ||| _) % 2 ^ 32
  rw [Nat.or_mod_two_pow, Nat.mod_eq_of_lt start.toNat_lt]

/-- No bits are lost but by the fifth group. -/
theorem toNat_added_of_le (b : UInt8) (hshift : shift + 7 ≤ 32)
    (hstart : start.toNat < 1 <<< shift) :
    (added start b shift).toNat = start.toNat + (b.toNat % 128) <<< shift ∧
      (added start b shift).toNat < 1 <<< (shift + 7) := by
  have hbound := add_digit_lt hstart (Nat.mod_lt b.toNat (show 0 < 128 by decide))
  have hsmall : 1 <<< (shift + 7) ≤ UInt32.size := by
    rw [Nat.shiftLeft_eq, Nat.one_mul]
    exact Nat.pow_le_pow_right (by decide) hshift
  have hsum := toNat_added b (show shift < 32 by omega) hstart
  rw [Nat.mod_eq_of_lt (Nat.lt_of_lt_of_le hbound hsmall)] at hsum
  exact ⟨hsum, hsum ▸ hbound⟩

theorem readGroups_last (hlow : b.toNat < 128) (groups shift : Nat) (start : UInt32) (pos : Nat)
    (rest : Bytes) :
    readGroups (groups + 1) shift start ⟨pos, b :: rest⟩
      = (.ok (added start b shift), ⟨pos + 1, rest⟩) := by
  rw [readGroups, Step.bind_ok (show byte ⟨pos, b :: rest⟩ = (.ok b, ⟨pos + 1, rest⟩) from rfl)]
  exact congrFun (if_pos (UInt8.lt_iff_toNat_lt.mpr hlow)) _

theorem readGroups_more (hhigh : 128 ≤ b.toNat) (groups shift : Nat) (start : UInt32) (pos : Nat)
    (rest : Bytes) :
    readGroups (groups + 1) shift start ⟨pos, b :: rest⟩
      = readGroups groups (shift + 7) (added start b shift) ⟨pos + 1, rest⟩ := by
  have hnot : ¬ b < 0x80 := fun hlow => Nat.not_lt.mpr hhigh (UInt8.lt_iff_toNat_lt.mp hlow)
  rw [readGroups, Step.bind_ok (show byte ⟨pos, b :: rest⟩ = (.ok b, ⟨pos + 1, rest⟩) from rfl)]
  exact congrFun (if_neg hnot) _

/-- The groups still to be read count from bit `shift` on; the groups read so far fill the bits
below. -/
theorem Groups.readsAt_readGroups (h : Groups stored) (hlength : stored.length ≤ groups)
    (hgroups : shift + 7 * groups = 35) (hstart : start.toNat < 1 <<< shift) (pos : Nat) :
    ReadsAt (readGroups groups shift start) pos stored
      (UInt32.ofNat (start.toNat + value stored <<< shift)) := by
  induction h generalizing groups shift start pos with
  | @last b low =>
      obtain ⟨groups, rfl⟩ := Nat.exists_eq_succ_of_ne_zero (Nat.ne_of_gt hlength)
      intro rest
      have hsum := toNat_added b (show shift < 32 by omega) hstart
      have hnumber : added start b shift = UInt32.ofNat (start.toNat + value [b] <<< shift) := by
        apply UInt32.toNat_inj.mp
        rw [hsum, UInt32.toNat_ofNat', value_shiftLeft, value, Nat.zero_shiftLeft, Nat.add_zero]
      rw [← hnumber]
      exact readGroups_last low groups shift start pos rest
  | @more b rest high tail ih =>
      obtain ⟨groups, rfl⟩ := Nat.exists_eq_succ_of_ne_zero
        (Nat.ne_of_gt (Nat.lt_of_lt_of_le (Nat.succ_pos _) hlength))
      have hrest : rest.length ≤ groups := Nat.le_of_succ_le_succ hlength
      have hpos : 0 < rest.length := List.length_pos_iff.mpr tail.ne_nil
      obtain ⟨hsum, hbound⟩ := toNat_added_of_le b (show shift + 7 ≤ 32 by omega) hstart
      have hread := ih hrest (by omega) hbound (pos + 1)
      rw [hsum, Nat.add_assoc, ← value_shiftLeft] at hread
      intro after
      rw [List.cons_append, readGroups_more high, hread after, List.length_cons]
      congr 2
      omega

/-- Bytes that ask for a further one count as groups, whatever number they make. -/
theorem Unfinished.exists_readGroups (h : Unfinished stored) (groups shift : Nat) (start : UInt32)
    (pos : Nat) (rest : Bytes) :
    ∃ number, readGroups (stored.length + groups) shift start ⟨pos, stored ++ rest⟩
      = readGroups groups (shift + 7 * stored.length) number ⟨pos + stored.length, rest⟩ := by
  induction stored generalizing shift start pos with
  | nil => exact ⟨start, by simp⟩
  | cons b stored ih =>
      obtain ⟨hb, hstored⟩ := List.forall_mem_cons.mp h
      obtain ⟨number, hnumber⟩ := ih hstored (shift + 7) (added start b shift) (pos + 1)
      have hshift : shift + 7 * (stored.length + 1) = shift + 7 + 7 * stored.length := by omega
      have hpos : pos + (stored.length + 1) = pos + 1 + stored.length := by omega
      refine ⟨number, ?_⟩
      rw [List.length_cons, Nat.succ_add, List.cons_append, readGroups_more hb, hnumber, hshift,
        hpos]

/-- Up to a number of bytes, data starts with groups or all its bytes ask for a further one. -/
theorem groups_or_unfinished (count : Nat) (data : Bytes) :
    (∃ stored rest, data = stored ++ rest ∧ Groups stored ∧ stored.length ≤ count) ∨
      ∃ stored rest, data = stored ++ rest ∧ Unfinished stored ∧
        (stored.length = count ∨ stored.length < count ∧ rest = []) := by
  induction count generalizing data with
  | zero => exact .inr ⟨[], data, rfl, List.forall_mem_nil _, .inl rfl⟩
  | succ count ih =>
      cases data with
      | nil => exact .inr ⟨[], [], rfl, List.forall_mem_nil _, .inr ⟨Nat.succ_pos count, rfl⟩⟩
      | cons b data =>
          rcases Nat.lt_or_ge b.toNat 128 with hlow | hhigh
          · exact .inl ⟨[b], data, rfl, .last hlow, Nat.succ_le_succ (Nat.zero_le count)⟩
          · rcases ih data with ⟨stored, rest, rfl, hgroups, hlength⟩ |
              ⟨stored, rest, rfl, hstored, hlength⟩
            · exact .inl ⟨b :: stored, rest, rfl, .more hhigh hgroups, Nat.succ_le_succ hlength⟩
            · refine .inr ⟨b :: stored, rest, rfl, List.forall_mem_cons.mpr ⟨hhigh, hstored⟩, ?_⟩
              exact hlength.imp (congrArg Nat.succ) (And.imp_left Nat.succ_lt_succ)

theorem Groups.readsAt_read (h : Groups stored) (hlength : stored.length ≤ 5) (pos : Nat) :
    ReadsAt read pos stored (value stored % UInt32.size) := by
  have hread := h.readsAt_readGroups hlength (show 0 + 7 * 5 = 35 from rfl)
    (show (0 : UInt32).toNat < 1 <<< 0 by decide) pos
  rw [UInt32.toNat_zero, Nat.zero_add, Nat.shiftLeft_zero] at hread
  refine hread.bind_nil ?_
  rw [UInt32.toNat_ofNat']
  exact readsAt_pure _ _

theorem read_of_readGroups_error {i next : Input} {e : Error}
    (h : readGroups 5 0 0 i = (.error e, next)) : read i = (.error e, next) :=
  Step.bind_error h

theorem Unfinished.read_of_length_eq (h : Unfinished stored) (hlength : stored.length = 5)
    (pos : Nat) (rest : Bytes) :
    read ⟨pos, stored ++ rest⟩
      = (.error (.malformed (.integerOverflow 35)), ⟨pos + stored.length, rest⟩) := by
  obtain ⟨number, hnumber⟩ := h.exists_readGroups 0 0 0 pos rest
  apply read_of_readGroups_error
  rw [hlength] at hnumber ⊢
  exact hnumber

theorem Unfinished.read_of_length_lt (h : Unfinished stored) (hlength : stored.length < 5)
    (pos : Nat) :
    read ⟨pos, stored ++ []⟩ = (.error .outOfBounds, ⟨pos + stored.length, []⟩) := by
  obtain ⟨left, hleft⟩ := Nat.exists_eq_add_of_lt hlength
  obtain ⟨number, hnumber⟩ := h.exists_readGroups (left + 1) 0 0 pos []
  apply read_of_readGroups_error
  rw [← Nat.add_assoc, ← hleft] at hnumber
  exact hnumber

theorem read_eq_ok_iff {i next : Input} {n : Nat} :
    read i = (.ok n, next) ↔ ∃ stored, Groups stored ∧ stored.length ≤ 5 ∧
      i.rest = stored ++ next.rest ∧ next.pos = i.pos + stored.length ∧
        n = value stored % UInt32.size := by
  constructor
  · intro h
    obtain ⟨pos, data⟩ := i
    rcases groups_or_unfinished 5 data with ⟨stored, rest, rfl, hgroups, hlength⟩ |
      ⟨stored, rest, rfl, hstored, hlength | ⟨hlength, rfl⟩⟩
    · rw [hgroups.readsAt_read hlength pos rest] at h
      cases h
      exact ⟨stored, hgroups, hlength, rfl, rfl, rfl⟩
    · rw [hstored.read_of_length_eq hlength pos rest] at h
      cases h
    · rw [hstored.read_of_length_lt hlength pos] at h
      cases h
  · rintro ⟨stored, hgroups, hlength, hrest, hpos, rfl⟩
    obtain ⟨pos, data⟩ := i
    obtain ⟨pos', rest⟩ := next
    dsimp only at hrest hpos
    subst hrest hpos
    exact hgroups.readsAt_read hlength pos rest

theorem read_eq_error_iff {i next : Input} {e : Error} :
    read i = (.error e, next) ↔ ∃ stored, Unfinished stored ∧ i.rest = stored ++ next.rest ∧
      next.pos = i.pos + stored.length ∧
        (stored.length = 5 ∧ e = .malformed (.integerOverflow 35) ∨
          stored.length < 5 ∧ next.rest = [] ∧ e = .outOfBounds) := by
  constructor
  · intro h
    obtain ⟨pos, data⟩ := i
    rcases groups_or_unfinished 5 data with ⟨stored, rest, rfl, hgroups, hlength⟩ |
      ⟨stored, rest, rfl, hstored, hlength | ⟨hlength, rfl⟩⟩
    · rw [hgroups.readsAt_read hlength pos rest] at h
      cases h
    · rw [hstored.read_of_length_eq hlength pos rest] at h
      cases h
      exact ⟨stored, hstored, rfl, rfl, .inl ⟨hlength, rfl⟩⟩
    · rw [hstored.read_of_length_lt hlength pos] at h
      cases h
      exact ⟨stored, hstored, rfl, rfl, .inr ⟨hlength, rfl, rfl⟩⟩
  · rintro ⟨stored, hstored, hrest, hpos, hcases⟩
    obtain ⟨pos, data⟩ := i
    obtain ⟨pos', rest⟩ := next
    dsimp only at hrest hpos hcases
    subst hrest hpos
    rcases hcases with ⟨hlength, rfl⟩ | ⟨hlength, rfl, rfl⟩
    · exact hstored.read_of_length_eq hlength pos rest
    · exact hstored.read_of_length_lt hlength pos

/-- A number is read from its groups, of which it takes the low 32 bits. -/
theorem read_eq_ok {i next : Input} {n : Nat} (h : read i = (.ok n, next)) :
    ∃ stored, Groups stored ∧ i.rest = stored ++ next.rest ∧ n = value stored % UInt32.size := by
  obtain ⟨stored, hgroups, -, hrest, -, hvalue⟩ := read_eq_ok_iff.mp h
  exact ⟨stored, hgroups, hrest, hvalue⟩

/-- A number is read from at most five groups, and is the one that they stand for exactly if that
one has no bits beyond the 32nd; otherwise only these are left. Reading fails on five bytes that all
ask for a further one, and where the data ends before the last group. -/
theorem read_exact (i : Input) :
    (∀ n next, read i = (.ok n, next) ↔ ∃ stored, Groups stored ∧ stored.length ≤ 5 ∧
      i.rest = stored ++ next.rest ∧ next.pos = i.pos + stored.length ∧
        n = value stored % UInt32.size) ∧
    (∀ e next, read i = (.error e, next) ↔ ∃ stored, Unfinished stored ∧
      i.rest = stored ++ next.rest ∧ next.pos = i.pos + stored.length ∧
        (stored.length = 5 ∧ e = .malformed (.integerOverflow 35) ∨
          stored.length < 5 ∧ next.rest = [] ∧ e = .outOfBounds)) ∧
    ∀ stored rest, i.rest = stored ++ rest → Groups stored → stored.length ≤ 5 →
      ((read i).1 = .ok (value stored) ↔ value stored < UInt32.size) := by
  refine ⟨fun n next => read_eq_ok_iff, fun e next => read_eq_error_iff, ?_⟩
  intro stored rest hrest hgroups hlength
  have hread : (read i).1 = .ok (value stored % UInt32.size) := by
    obtain ⟨pos, data⟩ := i
    subst hrest
    exact congrArg Prod.fst (hgroups.readsAt_read hlength pos rest)
  rw [hread]
  constructor
  · intro h
    rw [← Except.ok.inj h]
    exact Nat.mod_lt _ (by decide)
  · exact fun h => congrArg Except.ok (Nat.mod_eq_of_lt h)

/-- The least number that needs a thirty-third bit, in five groups. -/
def overlong : Bytes := [0x80, 0x80, 0x80, 0x80, 0x10]

theorem groups_overlong : Groups overlong :=
  .more (by decide) (.more (by decide) (.more (by decide) (.more (by decide) (.last (by decide)))))

/-- The bits that a fifth group has too many are lost, and nothing tells of it. -/
theorem read_overlong :
    value overlong = UInt32.size ∧ read (.ofBytes overlong) = (.ok 0, ⟨5, []⟩) ∧
      ¬ ∀ (i : Input) (stored rest : Bytes), i.rest = stored ++ rest → Groups stored →
        UInt32.size ≤ value stored → ∃ cause next, read i = (.error (.malformed cause), next) := by
  have hvalue : value overlong = UInt32.size := by decide
  have hread : read (.ofBytes overlong) = (.ok 0, ⟨5, []⟩) :=
    groups_overlong.readsAt_read (by decide) 0 []
  refine ⟨hvalue, hread, fun hclaim => ?_⟩
  obtain ⟨cause, next, hfails⟩ := hclaim (.ofBytes overlong) overlong []
    (List.append_nil overlong).symm groups_overlong (Nat.le_of_eq hvalue.symm)
  cases hread.symm.trans hfails

theorem toNat_last {n : Nat} (h : n < 128) : (UInt8.ofNat n).toNat = n :=
  UInt8.toNat_ofNat_of_lt' (show n < 256 by omega)

theorem toNat_more (n : Nat) : (UInt8.ofNat (128 + n % 128)).toNat = 128 + n % 128 :=
  UInt8.toNat_ofNat_of_lt' (show 128 + n % 128 < 256 by omega)

theorem groups_bytes (n : Nat) : Groups (bytes n) := by
  induction n using bytes.induct with
  | case1 n hlast =>
      rw [bytes, if_pos hlast]
      exact .last ((toNat_last hlast).symm ▸ hlast)
  | case2 n hmore ih =>
      rw [bytes, if_neg hmore]
      exact .more ((toNat_more n).symm ▸ Nat.le_add_right 128 _) ih

theorem value_bytes (n : Nat) : value (bytes n) = n := by
  induction n using bytes.induct with
  | case1 n hlast =>
      rw [bytes, if_pos hlast, value, value, toNat_last hlast]
      omega
  | case2 n hmore ih =>
      rw [bytes, if_neg hmore, value, ih, toNat_more]
      omega

theorem length_bytes_le {n groups shift : Nat} (hgroups : shift + 7 * groups = 35)
    (hshift : shift < 32) (hn : n <<< shift < UInt32.size) : (bytes n).length ≤ groups := by
  induction n using bytes.induct generalizing groups shift with
  | case1 n hlast =>
      rw [bytes, if_pos hlast, List.length_singleton]
      omega
  | case2 n hmore ih =>
      have hhigh := Nat.le_add_left ((n / 128) <<< (shift + 7)) ((n % 128) <<< shift)
      rw [← shiftLeft_split] at hhigh
      have hrest := Nat.lt_of_le_of_lt hhigh hn
      have hnext : shift + 7 < 32 := by
        have hpos : 0 < n / 128 := Nat.div_pos (Nat.not_lt.mp hmore) (by decide)
        rw [Nat.shiftLeft_eq] at hrest
        have hbit := Nat.lt_of_le_of_lt (Nat.le_mul_of_pos_left _ hpos) hrest
        exact (Nat.pow_lt_pow_iff_right (by decide)).mp hbit
      obtain ⟨groups, rfl⟩ := Nat.exists_eq_succ_of_ne_zero (show groups ≠ 0 by omega)
      rw [bytes, if_neg hmore, List.length_cons]
      exact Nat.succ_le_succ (ih (by omega) hnext hrest)

theorem readsAt_read {n : Nat} (hn : n < UInt32.size) (pos : Nat) :
    ReadsAt read pos (bytes n) n := by
  have hlength : (bytes n).length ≤ 5 :=
    length_bytes_le (show 0 + 7 * 5 = 35 from rfl) (by decide) (by rwa [Nat.shiftLeft_zero])
  have hread := (groups_bytes n).readsAt_read hlength pos
  rwa [value_bytes, Nat.mod_eq_of_lt hn] at hread

end CilEdit.Varint

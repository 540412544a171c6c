import CilEdit.Bytes.ReaderLemmas

namespace CilEdit

namespace Bytes

theorem signed_emod {width : Nat} {n : Int} (hlow : -(capacity width : Int) ≤ 2 * n)
    (hhigh : 2 * n < capacity width) : signed width (n % capacity width).toNat = n := by
  have hpos : (0 : Int) < capacity width := by omega
  have hnonneg := Int.emod_nonneg n (Int.ne_of_gt hpos)
  have hcast : ((n % capacity width).toNat : Int) = n % capacity width :=
    Int.toNat_of_nonneg hnonneg
  unfold signed
  by_cases hn : 0 ≤ n
  · have hsmall : n % capacity width = n := Int.emod_eq_of_lt hn (by omega)
    rw [hsmall] at hcast
    rw [if_pos (by rw [hsmall]; omega), hsmall, hcast]
  · have hwrap : n % capacity width = n + capacity width := by
      rw [← Int.add_emod_right, Int.emod_eq_of_lt (by omega) (by omega)]
    rw [hwrap] at hcast
    rw [if_neg (by rw [hwrap]; omega), hwrap, hcast]
    omega

theorem toNat_lt_capacity {width : Nat} {n : Int} (hpos : 0 < capacity width) :
    (n % capacity width).toNat < capacity width := by
  have hlt := Int.emod_lt_of_pos n (Int.natCast_pos.mpr hpos)
  omega

end Bytes

namespace Reader

variable {α β σ : Type} {pos : Nat} {xs ys : Bytes} {a : α} {b : β}

/-- At `pos` the reader takes exactly `bytes`, whatever follows, and gives `a`. -/
def ReadsAt (r : Reader α) (pos : Nat) (bytes : Bytes) (a : α) : Prop :=
  ∀ rest, r ⟨pos, bytes ++ rest⟩ = (.ok a, ⟨pos + bytes.length, rest⟩)

theorem readsAt_pure (pos : Nat) (a : α) : ReadsAt (pure a) pos [] a :=
  fun _ => rfl

theorem ReadsAt.bind {r : Reader α} {f : α → Reader β} (hr : ReadsAt r pos xs a)
    (hf : ReadsAt (f a) (pos + xs.length) ys b) : ReadsAt (r >>= f) pos (xs ++ ys) b := by
  intro rest
  rw [List.append_assoc, Step.bind_ok (hr (ys ++ rest)), hf rest, List.length_append, Nat.add_assoc]

theorem ReadsAt.bind_nil {r : Reader α} {f : α → Reader β} (hr : ReadsAt r pos xs a)
    (hf : ReadsAt (f a) (pos + xs.length) [] b) : ReadsAt (r >>= f) pos xs b := by
  have h := hr.bind hf
  rwa [List.append_nil] at h

theorem readsAt_position_bind {f : Nat → Reader β} (hf : ReadsAt (f pos) pos ys b) :
    ReadsAt (position >>= f) pos ys b :=
  fun rest => hf rest

theorem readsAt_require_bind {count : Nat} {cause : Nat → Malformed} {f : Unit → Reader β}
    (hcount : count ≤ ys.length) (hf : ReadsAt (f ()) pos ys b) :
    ReadsAt (require count cause >>= f) pos ys b := by
  intro rest
  have hholds : Bytes.holds (ys ++ rest) count = true := by
    rw [Bytes.holds_iff, List.length_append]
    omega
  have hrequire : require count cause ⟨pos, ys ++ rest⟩ = (.ok (), ⟨pos, ys ++ rest⟩) := by
    simp only [require, if_pos hholds]
  rw [Step.bind_ok hrequire, hf rest]

theorem readsAt_ofExcept_bind {x : Except Error α} {f : α → Reader β} (hx : x = .ok a)
    (hf : ReadsAt (f a) pos ys b) : ReadsAt (Step.ofExcept x >>= f) pos ys b := by
  subst hx
  exact fun rest => hf rest

theorem readsAt_byte (pos : Nat) (x : UInt8) : ReadsAt byte pos [x] x :=
  fun _ => rfl

theorem readsAt_take (pos : Nat) (xs : Bytes) : ReadsAt (take xs.length) pos xs xs := by
  intro rest
  simp [take, Input.advance]

theorem readsAt_nat (pos : Nat) {width n : Nat} (hn : n < Bytes.capacity width) :
    ReadsAt (nat width) pos (Bytes.ofNat width n) n := by
  have htake := readsAt_take pos (Bytes.ofNat width n)
  rw [Bytes.length_ofNat] at htake
  refine htake.bind_nil ?_
  rw [Bytes.toNat_ofNat, Nat.mod_eq_of_lt hn]
  exact readsAt_pure _ _

/-- The chunks are what the items are read from, one after the other. -/
inductive ItemsAt (item : Reader α) : Nat → List Bytes → List α → Prop
  | nil (pos : Nat) : ItemsAt item pos [] []
  | cons {pos : Nat} {chunk : Bytes} {chunks : List Bytes} {a : α} {items : List α}
      (head : ReadsAt item pos chunk a) (tail : ItemsAt item (pos + chunk.length) chunks items) :
      ItemsAt item pos (chunk :: chunks) (a :: items)

theorem ItemsAt.readsAt_iterate {item : Reader α} {chunks : List Bytes} {items : List α}
    (h : ItemsAt item pos chunks items) (seen : List α) :
    ReadsAt (iterate (fun items => do return (← item) :: items) items.length seen) pos
      chunks.flatten (items.reverse ++ seen) := by
  induction h generalizing seen with
  | nil pos => exact readsAt_pure pos seen
  | @cons pos chunk chunks a items head _ ih =>
      have hstep : ReadsAt (do return (← item) :: seen : Reader (List α)) pos chunk (a :: seen) :=
        head.bind_nil (readsAt_pure _ _)
      rw [List.reverse_cons, List.append_assoc]
      exact hstep.bind (ih (a :: seen))

theorem ItemsAt.readsAt_times {item : Reader α} {chunks : List Bytes} {items : List α}
    (h : ItemsAt item pos chunks items) :
    ReadsAt (times item items.length) pos chunks.flatten items := by
  refine (h.readsAt_iterate []).bind_nil ?_
  rw [List.append_nil, List.reverse_reverse]
  exact readsAt_pure _ _

/-- At `pos` the reader fails on `bytes`, whatever follows. -/
def FailsAt (r : Reader α) (pos : Nat) (bytes : Bytes) (e : Error) : Prop :=
  ∀ rest, ∃ next, r ⟨pos, bytes ++ rest⟩ = (.error e, next)

variable {e : Error}

theorem failsAt_bad (pos : Nat) (cause : Malformed) :
    FailsAt (bad cause : Reader α) pos [] (.malformed cause) :=
  fun rest => ⟨⟨pos, rest⟩, rfl⟩

theorem FailsAt.append {r : Reader α} (h : FailsAt r pos xs e) (ys : Bytes) :
    FailsAt r pos (xs ++ ys) e := by
  intro rest
  rw [List.append_assoc]
  exact h (ys ++ rest)

theorem FailsAt.bind {r : Reader α} (h : FailsAt r pos xs e) (f : α → Reader β) :
    FailsAt (r >>= f) pos xs e := by
  intro rest
  obtain ⟨next, hnext⟩ := h rest
  exact ⟨next, Step.bind_error hnext⟩

theorem ReadsAt.bind_failsAt {r : Reader α} {f : α → Reader β} (hr : ReadsAt r pos xs a)
    (hf : FailsAt (f a) (pos + xs.length) ys e) : FailsAt (r >>= f) pos (xs ++ ys) e := by
  intro rest
  rw [List.append_assoc, Step.bind_ok (hr (ys ++ rest))]
  exact hf rest

end Reader

end CilEdit

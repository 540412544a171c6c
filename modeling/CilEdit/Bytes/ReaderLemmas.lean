import CilEdit.Bytes.Reader

namespace CilEdit

theorem Input.advance_zero (i : Input) : i.advance 0 = i := by
  simp [Input.advance]

theorem Input.advance_advance (i : Input) (m n : Nat) :
    (i.advance m).advance n = i.advance (m + n) := by
  simp [Input.advance, List.drop_drop, Nat.add_assoc]

theorem Input.length_advance (i : Input) (n : Nat) :
    (i.advance n).rest.length = i.rest.length - n := by
  simp [Input.advance]

namespace Reader

variable {α β σ : Type}

/-- Wherever the reader stops, it is some bytes further on and inside the data. -/
def Forward (r : Reader α) : Prop :=
  ∀ i, ∃ n ≤ i.rest.length, (r i).2 = i.advance n

/-- A successful run takes at least one byte. -/
def Consumes (r : Reader α) : Prop :=
  ∀ i a next, r i = (.ok a, next) → next.rest.length < i.rest.length

theorem Forward.length_le {r : Reader α} (h : r.Forward) (i : Input) :
    (r i).2.rest.length ≤ i.rest.length := by
  obtain ⟨n, _, hn⟩ := h i
  rw [hn, Input.length_advance]
  omega

theorem forward_of_eq {r : Reader α} (h : ∀ i, (r i).2 = i) : r.Forward :=
  fun i => ⟨0, Nat.zero_le _, by rw [h, Input.advance_zero]⟩

theorem forward_pure (a : α) : Forward (pure a : Reader α) :=
  forward_of_eq fun _ => rfl

theorem forward_fail (e : Error) : Forward (Step.fail e : Reader α) :=
  forward_of_eq fun _ => rfl

theorem forward_bad (cause : Malformed) : Forward (bad cause : Reader α) :=
  forward_fail _

theorem forward_position : Forward position :=
  forward_of_eq fun _ => rfl

theorem forward_require (count : Nat) (cause : (left : Nat) → Malformed) :
    Forward (require count cause) :=
  forward_of_eq fun _ => by simp only [require]; split <;> rfl

theorem Forward.bind {r : Reader α} {f : α → Reader β} (hr : r.Forward)
    (hf : ∀ a, (f a).Forward) : (r >>= f).Forward := by
  intro i
  obtain ⟨m, hm, hmi⟩ := hr i
  match hri : r i with
  | (.error e, next) =>
      rw [hri] at hmi
      exact ⟨m, hm, by rw [Step.bind_error hri]; exact hmi⟩
  | (.ok a, next) =>
      rw [hri] at hmi
      dsimp only at hmi
      subst hmi
      obtain ⟨n, hn, hni⟩ := hf a (i.advance m)
      rw [Input.length_advance] at hn
      exact ⟨m + n, by omega, by rw [Step.bind_ok hri, hni, Input.advance_advance]⟩

theorem forward_byte : Forward byte := by
  intro i
  match i with
  | ⟨pos, []⟩ => exact ⟨0, Nat.zero_le _, by simp [byte, Input.advance]⟩
  | ⟨pos, b :: rest⟩ => exact ⟨1, by simp, by simp [byte, Input.advance]⟩

theorem forward_take (count : Nat) : Forward (take count) := by
  intro i
  by_cases h : (i.rest.take count).length = count
  · refine ⟨count, ?_, by simp [take, h]⟩
    simp only [List.length_take] at h
    omega
  · exact ⟨0, Nat.zero_le _, by simp only [take, if_neg h, Input.advance_zero]⟩

theorem forward_nat (width : Nat) : Forward (nat width) :=
  (forward_take width).bind fun _ => forward_pure _

theorem Forward.iterate {step : σ → Reader σ} (h : ∀ s, (step s).Forward) (count : Nat) (s : σ) :
    (iterate step count s).Forward := by
  induction count generalizing s with
  | zero => exact forward_pure s
  | succ count ih => exact (h s).bind ih

theorem Forward.times {item : Reader α} (h : item.Forward) (count : Nat) :
    (times item count).Forward :=
  (Forward.iterate (fun _ => h.bind fun _ => forward_pure _) count []).bind
    fun _ => forward_pure _

theorem consumes_byte : Consumes byte := by
  intro i a next h
  match i with
  | ⟨pos, []⟩ => simp [byte] at h
  | ⟨pos, b :: rest⟩ =>
      simp only [byte, Prod.mk.injEq] at h
      rw [← h.2]
      simp

theorem Consumes.bind {r : Reader α} {f : α → Reader β} (hr : r.Consumes)
    (hf : ∀ a, (f a).Forward) : (r >>= f).Consumes := by
  intro i b last h
  match hri : r i with
  | (.error e, next) =>
      rw [Step.bind_error hri] at h
      simp at h
  | (.ok a, next) =>
      rw [Step.bind_ok hri] at h
      have hlast := (hf a).length_le next
      rw [h] at hlast
      exact Nat.lt_of_le_of_lt hlast (hr i a next hri)

theorem Forward.bind_consumes {r : Reader α} {f : α → Reader β} (hr : r.Forward)
    (hf : ∀ a, (f a).Consumes) : (r >>= f).Consumes := by
  intro i b last h
  match hri : r i with
  | (.error e, next) =>
      rw [Step.bind_error hri] at h
      simp at h
  | (.ok a, next) =>
      rw [Step.bind_ok hri] at h
      have hnext := hr.length_le i
      rw [hri] at hnext
      exact Nat.lt_of_lt_of_le (hf a next b last h) hnext

end Reader

end CilEdit

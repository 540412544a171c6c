import CilEdit.Proofs.Resaving
import CilEdit.Proofs.Varints

/-!
Data after an image.

Every reader of an image looks only at the bytes that it takes and, where a count is checked, at
whether there are enough of them; so it gives the same with more data at the end. An image is read
to the end of the data and is therefore not the beginning of another one.
-/

namespace CilEdit

/-- The input with more data at its end. -/
def Input.extend (i : Input) (more : Bytes) : Input :=
  ⟨i.pos, i.rest ++ more⟩

namespace Reader

variable {α β γ δ σ : Type} {R : α → β → Prop} {S : γ → δ → Prop}

/-- Where `r` succeeds, `r'` does so too with more data at the end; both stop at one place and the
values that they give are related. -/
def Persists (R : α → β → Prop) (r : Reader α) (r' : Reader β) : Prop :=
  ∀ i a next more, r i = (.ok a, next) →
    ∃ b, r' (i.extend more) = (.ok b, next.extend more) ∧ R a b

theorem Persists.bind {r : Reader α} {r' : Reader β} {f : α → Reader γ} {g : β → Reader δ}
    (hr : Persists R r r') (hf : ∀ a b, R a b → Persists S (f a) (g b)) :
    Persists S (r >>= f) (r' >>= g) := by
  intro i c last more h
  obtain ⟨a, next, ha, hc⟩ := bind_eq_ok h
  obtain ⟨b, hb, hab⟩ := hr i a next more ha
  rw [Step.bind_ok hb]
  exact hf a b hab next c last more hc

theorem Persists.bind_eq {r : Reader α} {f : α → Reader γ} {g : α → Reader δ}
    (hr : Persists Eq r r) (hf : ∀ a, Persists S (f a) (g a)) :
    Persists S (r >>= f) (r >>= g) :=
  hr.bind fun a _ hab => hab ▸ hf a

theorem persists_pure {a : α} {b : β} (h : R a b) : Persists R (pure a) (pure b) := by
  intro i x next more hx
  cases hx
  exact ⟨b, rfl, h⟩

theorem persists_fail (e : Error) (r' : Reader β) : Persists R (Step.fail e) r' :=
  fun _ _ _ _ h => nomatch h

theorem persists_bad (cause : Malformed) (r' : Reader β) : Persists R (bad cause) r' :=
  persists_fail _ r'

theorem persists_position : Persists Eq position position := by
  intro i a next more h
  cases h
  exact ⟨i.pos, rfl, rfl⟩

theorem persists_require (count : Nat) (cause : (left : Nat) → Malformed) :
    Persists Eq (require count cause) (require count cause) := by
  intro i _ next more h
  by_cases hcount : i.rest.holds count = true
  · simp only [require, if_pos hcount] at h
    cases h
    have hmore : (i.extend more).rest.holds count = true := by
      rw [Bytes.holds_iff] at hcount ⊢
      exact Nat.le_trans hcount (by simp [Input.extend])
    exact ⟨(), by simp only [require, if_pos hmore], rfl⟩
  · simp only [require, if_neg hcount] at h
    cases h

theorem persists_byte : Persists Eq byte byte := by
  intro i b next more h
  match i with
  | ⟨pos, []⟩ => cases h
  | ⟨pos, x :: rest⟩ =>
      cases h
      exact ⟨b, rfl, rfl⟩

theorem persists_take (count : Nat) : Persists Eq (take count) (take count) := by
  intro i block next more h
  simp only [take] at h
  split at h
  · rename_i hlength
    cases h
    have hcount : count ≤ i.rest.length := by
      rw [← hlength, List.length_take]
      exact Nat.min_le_right _ _
    refine ⟨i.rest.take count, ?_, rfl⟩
    simp only [take, Input.extend, Input.advance, List.take_append_of_le_length hcount,
      List.drop_append_of_le_length hcount, if_pos hlength]
  · cases h

theorem persists_nat (width : Nat) : Persists Eq (nat width) (nat width) :=
  (persists_take width).bind_eq fun _ => persists_pure rfl

theorem Persists.iterate {R : σ → σ → Prop} {step step' : σ → Reader σ}
    (h : ∀ s t, R s t → Persists R (step s) (step' t)) (count : Nat) {s t : σ} (hst : R s t) :
    Persists R (iterate step count s) (iterate step' count t) := by
  induction count generalizing s t with
  | zero => exact persists_pure hst
  | succ count ih => exact (h s t hst).bind fun _ _ => ih

theorem Persists.times {item : Reader α} (h : Persists Eq item item) (count : Nat) :
    Persists Eq (times item count) (times item count) := by
  refine (Persists.iterate ?_ count rfl).bind_eq fun items => persists_pure rfl
  rintro items _ rfl
  exact h.bind_eq fun item => persists_pure rfl

end Reader

open Reader

theorem Varint.persists_read : Persists Eq read read := by
  intro i n next more h
  obtain ⟨stored, hgroups, hlength, hrest, hpos, hn⟩ := read_eq_ok_iff.mp h
  refine ⟨n, read_eq_ok_iff.mpr ⟨stored, hgroups, hlength, ?_, hpos, hn⟩, rfl⟩
  simp only [Input.extend, hrest, List.append_assoc]

theorem Prefixed.persists_read : Persists Eq read read := by
  refine Varint.persists_read.bind_eq fun length => persists_position.bind_eq fun start => ?_
  refine (persists_take length).bind_eq fun block => ?_
  split
  · exact persists_pure rfl
  · exact persists_bad _ _

namespace Image

variable {α σ : Type} {origin origin' : Nat}

/-- The rows of two tables may differ, what is known after them may not. -/
def Continues (x y : α × σ) : Prop :=
  x.2 = y.2

theorem persists_readCount : Persists Eq readCount readCount :=
  (persists_nat 4).bind_eq fun count => (persists_require count _).bind_eq fun _ =>
    persists_pure rfl

theorem persists_readTable {row row' : σ → Reader (α × σ)}
    (h : ∀ s, Persists Continues (row s) (row' s)) (s : σ) :
    Persists Continues (readTable row s) (readTable row' s) := by
  refine persists_readCount.bind_eq fun count => ?_
  refine (Persists.iterate (R := Continues) ?_ count rfl).bind fun _ _ hst => persists_pure hst
  rintro ⟨rows, s⟩ ⟨rows', _⟩ rfl
  exact (h s).bind fun _ _ hst => persists_pure hst

theorem persists_readRows {row : Reader α} (h : Persists Eq row row) :
    Persists Eq (readRows row) (readRows row) :=
  persists_readCount.bind_eq fun count => h.times count

theorem persists_readRow (table : Nat) (seen : List Nat) :
    Persists Eq (readRow table seen) (readRow table seen) := by
  refine (persists_nat 4).bind_eq fun row => ?_
  split
  · exact persists_bad _ _
  · exact persists_pure rfl

theorem persists_readSignature : Persists Eq readSignature readSignature := by
  refine persists_byte.bind_eq fun flag => ?_
  split
  · exact persists_bad _ _
  · refine Varint.persists_read.bind_eq fun count => (persists_require count _).bind_eq fun _ => ?_
    refine (Prefixed.persists_read.times count).bind_eq fun params => ?_
    exact Prefixed.persists_read.bind_eq fun returnType => persists_pure rfl

theorem persists_readField (seen : List Nat) :
    Persists Continues (readField seen) (readField seen) := by
  refine (persists_readRow _ seen).bind_eq fun row => (persists_nat 4).bind_eq fun flags => ?_
  refine Prefixed.persists_read.bind_eq fun name => ?_
  exact Prefixed.persists_read.bind_eq fun type => persists_pure rfl

/-- Whether a body can be decoded does not depend on what its handles are marked with. -/
theorem persists_readBody (id id' : BodyId) :
    Persists (fun _ _ => True) (readBody id) (readBody id') := by
  refine (persists_nat 4).bind_eq fun length => ?_
  split
  · exact persists_pure trivial
  · refine (persists_take length).bind_eq fun raw => ?_
    have hdecode : Persists (fun _ _ => True) (Step.ofExcept (Body.decode id raw) : Reader Body)
        (Step.ofExcept (Body.decode id' raw)) := by
      intro i b next more h
      obtain ⟨hb, rfl⟩ := Prod.mk.inj h
      obtain ⟨b', hb'⟩ := Body.exists_decode hb id'
      exact ⟨b', congrArg (·, i.extend more) hb', trivial⟩
    exact hdecode.bind fun _ _ _ => persists_pure trivial

theorem persists_readMethod (seen : List Nat) :
    Persists Continues (readMethod origin seen) (readMethod origin' seen) := by
  refine (persists_readRow _ seen).bind_eq fun row => (persists_nat 2).bind_eq fun flags => ?_
  refine Prefixed.persists_read.bind_eq fun name => ?_
  refine persists_readSignature.bind_eq fun signature => ?_
  exact (persists_readBody _ _).bind fun _ _ _ => persists_pure rfl

theorem persists_readType (seen : Seen) :
    Persists Continues (readType origin seen) (readType origin' seen) := by
  refine (persists_nat 4).bind_eq fun flags => Prefixed.persists_read.bind_eq fun name => ?_
  refine (persists_readTable persists_readField seen.fieldRows).bind ?_
  rintro ⟨fields, fieldRows⟩ ⟨fields', _⟩ rfl
  refine (persists_readTable persists_readMethod seen.methodRows).bind ?_
  rintro ⟨methods, methodRows⟩ ⟨methods', _⟩ rfl
  exact persists_pure rfl

theorem persists_readTypeRef (count : Nat) :
    Persists Continues (readTypeRef count) (readTypeRef count) :=
  Prefixed.persists_read.bind_eq fun _ => Prefixed.persists_read.bind_eq fun _ =>
    persists_pure rfl

theorem persists_readMemberKind (kind : UInt8) :
    Persists Eq (readMemberKind kind) (readMemberKind kind) := by
  unfold readMemberKind
  split
  · exact persists_readSignature.bind_eq fun signature => persists_pure rfl
  · split
    · exact Prefixed.persists_read.bind_eq fun type => persists_pure rfl
    · exact persists_bad _ _

theorem persists_readMemberRef (typeRefs count : Nat) :
    Persists Continues (readMemberRef typeRefs count) (readMemberRef typeRefs count) := by
  refine persists_byte.bind_eq fun kind => (persists_nat 4).bind_eq fun parent => ?_
  dsimp only
  split
  · exact persists_bad _ _
  · refine Prefixed.persists_read.bind_eq fun name => ?_
    exact (persists_readMemberKind kind).bind_eq fun member => persists_pure rfl

theorem persists_readPreamble : Persists Eq readPreamble readPreamble := by
  refine (persists_take mark.length).bind_eq fun found => ?_
  split
  · exact persists_fail _ _
  · refine (persists_nat 2).bind_eq fun number => ?_
    split
    · exact persists_fail _ _
    · exact (persists_nat 2).bind_eq fun reserved => persists_pure rfl

/-- Where `r` succeeds, `r'` counts and refuses the bytes that are added at the end. -/
def Refuses {α β : Type} (r : Reader α) (r' : Reader β) : Prop :=
  ∀ i a next more, r i = (.ok a, next) → more ≠ [] →
    (r' (i.extend more)).1 = .error (.malformed (.trailingBytes more.length))

theorem refuses_bind {α β γ δ : Type} {R : α → β → Prop} {r : Reader α} {r' : Reader β}
    {f : α → Reader γ} {g : β → Reader δ} (hr : Persists R r r')
    (hf : ∀ a b, R a b → Refuses (f a) (g b)) : Refuses (r >>= f) (r' >>= g) := by
  intro i c last more h hmore
  obtain ⟨a, next, ha, hc⟩ := Reader.bind_eq_ok h
  obtain ⟨b, hb, hab⟩ := hr i a next more ha
  rw [Step.bind_ok hb]
  exact hf a b hab next c last more hc hmore

/-- What is left after an image is all that was added, since nothing was left before. -/
theorem refuses_ending (m m' : Module) :
    Refuses (remaining >>= fun left => if left > 0 then bad (.trailingBytes left) else pure m)
      (remaining >>= fun left => if left > 0 then bad (.trailingBytes left) else pure m') := by
  intro i _ _ more h hmore
  obtain ⟨left, next, hleft, h⟩ := Reader.bind_eq_ok h
  cases hleft
  have hend : i.rest.length = 0 := by
    split at h
    · cases h
    · rename_i hend
      exact Nat.eq_zero_of_not_pos hend
  have hlength : (i.extend more).rest.length = more.length := by
    rw [Input.extend, List.length_append, hend, Nat.zero_add]
  rw [Step.bind_ok (show remaining (i.extend more) = (.ok _, _) from rfl), hlength,
    if_pos (List.length_pos_iff.mpr hmore)]
  rfl

theorem refuses_readModule : Refuses (readModule origin) (readModule origin') := by
  refine refuses_bind persists_readPreamble fun _ _ _ => ?_
  refine refuses_bind Prefixed.persists_read ?_
  rintro name _ rfl
  refine refuses_bind (persists_readTable persists_readType _) ?_
  rintro ⟨types, _⟩ ⟨types', _⟩ rfl
  refine refuses_bind (persists_readTable persists_readTypeRef 0) ?_
  rintro ⟨typeRefs, typeRefCount⟩ ⟨typeRefs', _⟩ rfl
  refine refuses_bind (persists_readTable (persists_readMemberRef typeRefCount) 0) ?_
  rintro ⟨memberRefs, _⟩ ⟨memberRefs', _⟩ rfl
  refine refuses_bind (persists_readRows Prefixed.persists_read) ?_
  rintro userStrings _ rfl
  exact refuses_ending _ _

variable {data : Bytes} {m : Module}

/-- An image is not the beginning of another one: data that can be read as a module cannot be read
with anything after it, which is counted, nor without its end. -/
theorem self_delimiting (h : Image.read origin data = .ok m) (origin' : Nat) :
    (∀ more, more ≠ [] →
      Image.read origin' (data ++ more) = .error (.malformed (.trailingBytes more.length))) ∧
    ∀ start, start <+: data → start ≠ data → ∃ e, Image.read origin' start = .error e := by
  have hrefuses : ∀ {o o' : Nat} {start : Bytes} {m : Module}, Image.read o start = .ok m →
      ∀ more, more ≠ [] →
        Image.read o' (start ++ more) = .error (.malformed (.trailingBytes more.length)) :=
    fun h more => refuses_readModule _ _ _ more (Prod.ext h rfl)
  refine ⟨hrefuses h, ?_⟩
  rintro start ⟨more, rfl⟩ hne
  cases hstart : Image.read origin' start with
  | error e => exact ⟨e, rfl⟩
  | ok m' =>
      have hmore : more ≠ [] := by
        rintro rfl
        exact hne (List.append_nil start).symm
      cases h.symm.trans (hrefuses hstart more hmore)

theorem self_delimiting_staticMethod :
    (∃ m, Image.read 1 (Module.imageWithFlags 0x10 0) = .ok m) ∧
    Image.read 2 (Module.imageWithFlags 0x10 0 ++ [0, 0]) = .error (.malformed (.trailingBytes 2)) ∧
    ∃ e, Image.read 2 ((Module.imageWithFlags 0x10 0).take 40) = .error e := by
  obtain ⟨m, hm⟩ : ∃ m, Image.read 1 (Module.imageWithFlags 0x10 0) = .ok m :=
    exists_of_isOk (by decide +kernel)
  obtain ⟨hmore, hstart⟩ := self_delimiting hm 2
  exact ⟨⟨m, hm⟩, hmore [0, 0] nofun, hstart _ (List.take_prefix 40 _) (by decide)⟩

end Image

end CilEdit

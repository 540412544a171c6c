import CilEdit.Body.Decode
import CilEdit.Proofs.GuardedReading

namespace CilEdit

open Guarded

namespace Guarded

variable {α β : Type} {data : Bytes} {p : Nat}

/-- The number at `start`, of the bytes from there to the end of the data. -/
def word (start width : Nat) : Guarded Nat := do
  let tail ← slice start (← length)
  if tail.length < width then fail .outOfBounds else return Bytes.toNat (tail.take width)

/-- From wherever it starts inside the data, `c` runs without a fault and gives `x`. -/
def Yields (data : Bytes) (c : Guarded α) (x : Except Error α) : Prop :=
  ∀ p ≤ data.length, ∃ q ≤ data.length, c data p = .ok (x, q)

theorem yields_ofExcept (x : Except Error α) : Yields data (ofExcept x) x :=
  fun p hp => ⟨p, hp, rfl⟩

theorem yields_pure (a : α) : Yields data (pure a) (.ok a) :=
  yields_ofExcept _

theorem yields_fail (e : Error) : Yields data (fail e : Guarded α) (.error e) :=
  yields_ofExcept _

theorem yields_length : Yields data length (.ok data.length) :=
  fun p hp => ⟨p, hp, rfl⟩

theorem Yields.bind {c : Guarded α} {f : α → Guarded β} {x : Except Error α}
    {g : α → Except Error β} (hc : Yields data c x)
    (hf : ∀ a, x = .ok a → Yields data (f a) (g a)) : Yields data (c >>= f) (x >>= g) := by
  intro p hp
  obtain ⟨q, hq, hcq⟩ := hc p hp
  cases x with
  | error e => exact ⟨q, hq, bind_error hcq f⟩
  | ok a =>
      obtain ⟨k, hk, hfk⟩ := hf a rfl q hq
      exact ⟨k, hk, (bind_ok hcq f).trans hfk⟩

/-- A part that gives a known value. -/
theorem Yields.bind_ok {c : Guarded α} {f : α → Guarded β} {a : α} {y : Except Error β}
    (hc : Yields data c (.ok a)) (hf : Yields data (f a) y) : Yields data (c >>= f) y :=
  hc.bind (g := fun _ => y) fun _ h => Except.ok.inj h ▸ hf

theorem Yields.bind_error {c : Guarded α} {f : α → Guarded β} {e : Error}
    (hc : Yields data c (.error e)) : Yields data (c >>= f) (.error e) :=
  by
  refine hc.bind (g := fun _ => .error e) fun a h => ?_
  cases h

theorem yields_word {start width : Nat} (h : start + width ≤ data.length) :
    Yields data (word start width) (.ok (Clause.field data start width)) := by
  intro p hp
  have hslice : slice start data.length data p = .ok (.ok (data.drop start), p) := by
    rw [slice, if_pos ⟨by omega, Nat.le_refl _⟩, ← List.length_drop, List.take_length]
  have hwidth : ¬ (data.drop start).length < width := by
    rw [List.length_drop]
    omega
  refine ⟨p, hp, ?_⟩
  rw [word, Guarded.bind_ok (q := p) (a := data.length) rfl, Guarded.bind_ok hslice, if_neg hwidth]
  rfl

theorem nat_of_le (width : Nat) (h : p + width ≤ data.length) :
    nat width data p = .ok (.ok (Clause.field data p width), p + width) :=
  Guarded.bind_ok (take_of_le width h) _

end Guarded

namespace Clause

/-- A clause whose flags, offsets and lengths are so many bytes wide. -/
def guarded (flagsWidth offsetWidth lengthWidth : Nat) : Guarded Clause := do
  let flags ← nat flagsWidth
  let tryOffset ← nat offsetWidth
  let tryLength ← nat lengthWidth
  let handlerOffset ← nat offsetWidth
  let handlerLength ← nat lengthWidth
  let classOrFilter ← nat 4
  return {
    flags := .ofBits (UInt16.ofNat flags)
    tryOffset := UInt32.ofNat tryOffset
    tryLength := UInt32.ofNat tryLength
    handlerOffset := UInt32.ofNat handlerOffset
    handlerLength := UInt32.ofNat handlerLength
    classOrFilter := UInt32.ofNat classOrFilter }

variable {data : Bytes} {p : Nat}

theorem field_drop (data : Bytes) (p offset width : Nat) :
    field (data.drop p) offset width = field data (p + offset) width := by
  rw [field, field, List.drop_drop]

theorem guarded_eq (flagsWidth offsetWidth lengthWidth : Nat)
    (h : p + flagsWidth + offsetWidth + lengthWidth + offsetWidth + lengthWidth + 4
      ≤ data.length) :
    guarded flagsWidth offsetWidth lengthWidth data p = .ok (.ok
      { flags := .ofBits (UInt16.ofNat (field data p flagsWidth))
        tryOffset := UInt32.ofNat (field data (p + flagsWidth) offsetWidth)
        tryLength := UInt32.ofNat (field data (p + flagsWidth + offsetWidth) lengthWidth)
        handlerOffset := UInt32.ofNat
          (field data (p + flagsWidth + offsetWidth + lengthWidth) offsetWidth)
        handlerLength := UInt32.ofNat
          (field data (p + flagsWidth + offsetWidth + lengthWidth + offsetWidth) lengthWidth)
        classOrFilter := UInt32.ofNat (field data
          (p + flagsWidth + offsetWidth + lengthWidth + offsetWidth + lengthWidth) 4) },
      p + flagsWidth + offsetWidth + lengthWidth + offsetWidth + lengthWidth + 4) := by
  rw [guarded, Guarded.bind_ok (nat_of_le flagsWidth (by omega)),
    Guarded.bind_ok (nat_of_le offsetWidth (by omega)),
    Guarded.bind_ok (nat_of_le lengthWidth (by omega)),
    Guarded.bind_ok (nat_of_le offsetWidth (by omega)),
    Guarded.bind_ok (nat_of_le lengthWidth (by omega)), Guarded.bind_ok (nat_of_le 4 h)]
  rfl

theorem guardedSmall_eq (h : p + smallSize ≤ data.length) :
    guarded 2 2 1 data p = .ok (.ok (ofSmall (data.drop p)), p + smallSize) := by
  rw [guarded_eq 2 2 1 h]
  simp only [ofSmall, field_drop]
  rfl

theorem guardedFat_eq (h : p + fatSize ≤ data.length) :
    guarded 4 4 4 data p = .ok (.ok (ofFat (data.drop p)), p + fatSize) := by
  rw [guarded_eq 4 4 4 h]
  simp only [ofFat, field_drop]
  rfl

end Clause

namespace Section

/-- The clauses of a section at `cursor`, each so many bytes wide. -/
def guardedTable (cursor size width : Nat) (clause : Guarded Clause) (cause : Malformed) :
    Guarded (List Clause) := do
  if size < 4 ∨ (← length) < cursor + size then bad cause
  else do
    moveTo (cursor + 4)
    times clause ((size - 4) / width)

def guardedOne (cursor : Nat) : Guarded (List Clause × Nat × Bool) := do
  if (← length) < cursor + 4 then fail .outOfBounds
  else do
    let flags := known (UInt8.ofNat (← word cursor 1))
    if !Header.hasFlag flags clauseTable then bad (.unsupportedSection flags)
    else if Header.hasFlag flags fat then do
      let size := (← word cursor 4) / 0x100
      let clauses ← guardedTable cursor size Clause.fatSize (Clause.guarded 4 4 4)
        (.fatSectionSize size)
      return (clauses, size, Header.hasFlag flags more)
    else do
      let size ← word (cursor + 1) 1
      let clauses ← guardedTable cursor size Clause.smallSize (Clause.guarded 2 2 1)
        (.smallSectionSize size)
      return (clauses, size, Header.hasFlag flags more)

variable {data : Bytes} {p cursor size width : Nat}

theorem iterate_clause {clause : Guarded Clause} {read : Bytes → Clause} (hwidth : 0 < width)
    (hclause : ∀ p, p + width ≤ data.length →
      clause data p = .ok (.ok (read (data.drop p)), p + width)) (count : Nat) (seen : List Clause)
    (h : p + count * width ≤ data.length) :
    ∃ items, iterate (fun items => do return (← clause) :: items) count seen data p
        = .ok (.ok items, p + count * width) ∧
      items.reverse = readClauses read width count (data.drop p) seen := by
  induction count generalizing p seen with
  | zero =>
      rw [Nat.zero_mul]
      exact ⟨seen, rfl, rfl⟩
  | succ count ih =>
      rw [Nat.succ_mul] at h
      have hstep : (do return (← clause) :: seen : Guarded (List Clause)) data p
          = .ok (.ok (read (data.drop p) :: seen), p + width) :=
        Guarded.bind_ok (hclause p (by omega)) _
      obtain ⟨items, hitems, hreverse⟩ :=
        ih (p := p + width) (read (data.drop p) :: seen) (by omega)
      have hstop : p + width + count * width = p + (count + 1) * width := by
        rw [Nat.succ_mul]
        omega
      refine ⟨items, ?_, ?_⟩
      · rw [iterate, Guarded.bind_ok (round_of_ok hstep (by omega)), hitems, hstop]
      · rw [readClauses, List.drop_drop]
        exact hreverse

theorem times_clause {clause : Guarded Clause} {read : Bytes → Clause} (hwidth : 0 < width)
    (hclause : ∀ p, p + width ≤ data.length →
      clause data p = .ok (.ok (read (data.drop p)), p + width)) (count : Nat)
    (h : p + count * width ≤ data.length) : times clause count data p
      = .ok (.ok (readClauses read width count (data.drop p) []), p + count * width) := by
  obtain ⟨items, hitems, hreverse⟩ := iterate_clause hwidth hclause count [] h
  rw [times, Guarded.bind_ok hitems, hreverse]
  rfl

theorem yields_table {clause : Guarded Clause} {read : Bytes → Clause} (hwidth : 0 < width)
    (hclause : ∀ p, p + width ≤ data.length →
      clause data p = .ok (.ok (read (data.drop p)), p + width))
    (hcursor : cursor ≤ data.length) (cause : Malformed) (follows : Bool) :
    Yields data (do return (← guardedTable cursor size width clause cause, size, follows))
      (if size < 4 ∨ (!Bytes.holds (data.drop cursor) size) = true then Error.bad cause
        else .ok (readClauses read width ((size - 4) / width) ((data.drop cursor).drop 4) [],
          size, follows)) := by
  have hsize : (size < 4 ∨ (!Bytes.holds (data.drop cursor) size) = true)
      ↔ size < 4 ∨ data.length < cursor + size := by
    rw [Bool.not_eq_true', Bool.eq_false_iff, Ne, Bytes.holds_iff, List.length_drop]
    omega
  rw [List.drop_drop]
  split
  · rename_i hbad
    rw [hsize] at hbad
    have htable : Yields data (guardedTable cursor size width clause cause) (Error.bad cause) := by
      refine yields_length.bind_ok ?_
      rw [if_pos hbad]
      exact yields_fail _
    exact htable.bind_error
  · rename_i hgood
    rw [hsize] at hgood
    have hall : (size - 4) / width * width ≤ size - 4 := Nat.div_mul_le_self _ _
    have hmove : ∀ p, moveTo (cursor + 4) data p = .ok (.ok (), cursor + 4) :=
      fun p => if_pos (by omega)
    have htimes := times_clause hwidth hclause ((size - 4) / width) (p := cursor + 4) (by omega)
    refine Yields.bind_ok ?_ (yields_pure _)
    refine yields_length.bind_ok ?_
    rw [if_neg hgood]
    exact fun p hp => ⟨_, by omega, (Guarded.bind_ok (hmove p) _).trans htimes⟩

theorem toNat_take_four {rest : Bytes} (h : 4 ≤ rest.length) :
    Bytes.toNat (rest.take 4) / 0x100 = Clause.field rest 1 3 := by
  match rest with
  | [] => cases h
  | b :: rest =>
      have hb := b.toNat_lt
      rw [Clause.field, List.take_succ_cons, Bytes.toNat, List.drop_succ_cons, List.drop_zero]
      omega

theorem ofNat_field_one (h : cursor < data.length) :
    UInt8.ofNat (Clause.field data cursor 1) = (data.drop cursor).headD 0 := by
  rw [Clause.field, List.drop_eq_getElem_cons h, List.take_succ_cons, List.take_zero,
    Bytes.toNat, Bytes.toNat]
  exact UInt8.ofNat_toNat

theorem yields_one (data : Bytes) (cursor : Nat) :
    Yields data (guardedOne cursor) (readOne (data.drop cursor)) := by
  refine yields_length.bind_ok ?_
  have hlength : (data.drop cursor).length = data.length - cursor := List.length_drop
  by_cases hshort : data.length < cursor + 4
  · have hfour : ((data.drop cursor).take 4).length < 4 := by
      rw [List.length_take]
      omega
    rw [if_pos hshort, readOne, if_pos hfour]
    exact yields_fail _
  · have hfour : ¬ ((data.drop cursor).take 4).length < 4 := by
      rw [List.length_take]
      omega
    rw [if_neg hshort, readOne, if_neg hfour]
    refine (yields_word (by omega)).bind_ok ?_
    dsimp only
    rw [ofNat_field_one (by omega)]
    generalize known ((data.drop cursor).headD 0) = flags
    split
    · exact yields_fail _
    · by_cases hfat : Header.hasFlag flags fat = true
      · have hsize : Clause.field data cursor 4 / 0x100 = Clause.field (data.drop cursor) 1 3 :=
          toNat_take_four (by omega)
        simp only [declaredSize, clausesOf, hfat, if_true]
        refine (yields_word (by omega)).bind_ok ?_
        rw [hsize]
        have hcursor : cursor ≤ data.length := by omega
        exact yields_table (by decide) (fun p => Clause.guardedFat_eq) hcursor _ _
      · simp only [declaredSize, clausesOf, if_neg hfat]
        refine (yields_word (by omega)).bind_ok ?_
        rw [Clause.field_drop]
        have hcursor : cursor ≤ data.length := by omega
        exact yields_table (by decide) (fun p => Clause.guardedSmall_eq) hcursor _ _

/-- The chain of sections at `cursor`, after the clauses already read, the last one first. A section
that ends behind the data, or where it starts, is a fault. -/
def guardedAll (cursor : Nat) (seen : List Clause) (data : Bytes) (p : Nat) :
    Except Fault (Except Error (List Clause) × Nat) :=
  match guardedOne cursor data p with
  | .error fault => .error fault
  | .ok (.error e, q) => .ok (.error e, q)
  | .ok (.ok (clauses, size, follows), q) =>
    if _hinside : cursor + size ≤ data.length then
      if _hsome : 0 < size then
        if follows then
          guardedAll (Bytes.align4 (cursor + size)) (clauses.reverse ++ seen) data q
        else .ok (.ok (clauses.reverse ++ seen).reverse, q)
      else .error .standstill
    else .error .outside
termination_by data.length - cursor
decreasing_by
  simp only [Bytes.align4]
  omega

theorem dvd_align4 (n : Nat) : 4 ∣ Bytes.align4 n :=
  Nat.dvd_mul_left 4 _

theorem align4_add (h : 4 ∣ cursor) (size : Nat) :
    Bytes.align4 (cursor + size) = cursor + Bytes.align4 size := by
  simp only [Bytes.align4]
  omega

/-- Every section is checked to have at least the four bytes of its header, inside the data. -/
theorem yields_all {rest : Bytes} (hrest : rest = data.drop cursor) (hcursor : 4 ∣ cursor)
    (seen : List Clause) : Yields data (guardedAll cursor seen) (readAll rest seen) := by
  induction rest, seen using readAll.induct generalizing cursor with
  | case1 rest seen e hone =>
      subst hrest
      intro p hp
      obtain ⟨q, hq, hgot⟩ := yields_one data cursor p hp
      refine ⟨q, hq, ?_⟩
      rw [guardedAll, hgot, hone, readAll_of_error hone]
  | case2 rest seen clauses size longer hone =>
      rename_i ih
      subst hrest
      intro p hp
      obtain ⟨q, hq, hgot⟩ := yields_one data cursor p hp
      have hsize : 4 ≤ size ∧ size ≤ (data.drop cursor).length := size_of_readOne hone
      rw [List.length_drop] at hsize
      have hdrop : (data.drop cursor).drop (Bytes.align4 size)
          = data.drop (Bytes.align4 (cursor + size)) := by
        rw [List.drop_drop, align4_add hcursor]
      obtain ⟨k, hk, hall⟩ := ih hdrop (dvd_align4 _) q hq
      refine ⟨k, hk, ?_⟩
      rw [guardedAll, hgot, hone, readAll_of_ok hone]
      simp only [dif_pos (show cursor + size ≤ data.length by omega),
        dif_pos (show 0 < size by omega), if_true]
      exact hall
  | case3 rest seen clauses size follows hone hlast =>
      subst hrest
      intro p hp
      obtain ⟨q, hq, hgot⟩ := yields_one data cursor p hp
      have hsize : 4 ≤ size ∧ size ≤ (data.drop cursor).length := size_of_readOne hone
      rw [List.length_drop] at hsize
      refine ⟨q, hq, ?_⟩
      rw [guardedAll, hgot, hone, readAll_of_ok hone]
      simp only [dif_pos (show cursor + size ≤ data.length by omega),
        dif_pos (show 0 < size by omega), if_neg hlast]

end Section

namespace Header

def guardedFat : Guarded Header := do
  if (← length) < fatSize then fail .outOfBounds
  else do
    let flags ← word 0 2
    let size := flags / 0x1000 * 4
    if size < fatSize then bad (.shortFatHeader size)
    else do
      let codeSize ← word 4 4
      if (← length) < size + codeSize then fail .outOfBounds
      else do
        let locals ← word 8 4
        let maxStack ← word 2 2
        let clauses ←
          if hasFlag flags moreSections then
            Section.guardedAll (Bytes.align4 (size + codeSize)) []
          else pure []
        return {
          size, codeSize, clauses
          maxStack := UInt16.ofNat maxStack
          locals := ⟨UInt32.ofNat locals⟩
          isFat := true
          initLocals := hasFlag flags initLocalsFlag }

def guarded : Guarded Header := do
  if (← length) = 0 then bad .emptyBody
  else do
    let first ← word 0 1
    if first % 4 = 2 then do
      if (← length) < first / 4 + 1 then fail .outOfBounds else return tiny (first / 4)
    else if first % 4 = 3 then guardedFat
    else bad (.unknownHeader first)

def guardedCode (h : Header) : Guarded Bytes := do
  if (← length) < h.size + h.codeSize then fail .outOfBounds
  else slice h.size (h.size + h.codeSize)

variable {data : Bytes}

theorem yields_fat (data : Bytes) : Yields data guardedFat (parseFat data) := by
  refine yields_length.bind_ok ?_
  simp only [parseFat]
  split
  · exact yields_fail _
  · rename_i hsize
    have hlength : 12 ≤ data.length := Nat.not_lt.mp hsize
    refine (yields_word (by omega)).bind_ok ?_
    split
    · exact yields_fail _
    · refine (yields_word (by omega)).bind_ok (yields_length.bind_ok ?_)
      split
      · exact yields_fail _
      · refine (yields_word (by omega)).bind_ok ((yields_word (by omega)).bind_ok ?_)
        split
        · refine (Section.yields_all rfl (Section.dvd_align4 _) []).bind fun clauses _ => ?_
          exact yields_pure _
        · exact (yields_pure _).bind fun clauses _ => yields_pure _

theorem yields_header (data : Bytes) : Yields data guarded (parse data) := by
  refine yields_length.bind_ok ?_
  match data with
  | [] => exact yields_fail _
  | first :: rest =>
      have hfirst : Clause.field (first :: rest) 0 1 = first.toNat := by
        simp [Clause.field, Bytes.toNat]
      rw [if_neg (by simp), parse]
      refine (yields_word (by simp)).bind_ok ?_
      rw [hfirst]
      split
      · refine yields_length.bind_ok ?_
        dsimp only
        rw [List.length_cons]
        by_cases hfits : first.toNat / 4 ≤ rest.length
        · rw [if_neg (by omega), if_pos hfits]
          exact yields_pure _
        · rw [if_pos (by omega), if_neg hfits]
          exact yields_fail _
      · split
        · exact yields_fat _
        · exact yields_fail _

theorem yields_code (h : Header) (data : Bytes) : Yields data h.guardedCode (h.code data) := by
  refine yields_length.bind_ok ?_
  rw [code]
  by_cases hsize : h.size + h.codeSize ≤ data.length
  · rw [if_neg (Nat.not_lt.mpr hsize), if_pos hsize]
    intro p hp
    refine ⟨p, hp, ?_⟩
    rw [slice, if_pos ⟨Nat.le_add_right _ _, hsize⟩, Nat.add_sub_cancel_left]
  · rw [if_pos (Nat.not_le.mp hsize), if_neg hsize]
    exact yields_fail _

end Header

namespace Body

/-- The body that a header and the instructions of its code make up. -/
def link (id : BodyId) (header : Header) (codeSize : Nat) (raws : List RawInstruction) :
    Except Error Body := do
  let starts := slotsByOffset raws
  let instructions ← raws.mapM (linkInstruction id starts)
  let handlers ← header.clauses.mapM (linkClause id starts codeSize)
  return {
    toArena := .ofInstructions instructions
    id, handlers
    maxStack := header.maxStack
    locals := header.locals
    initLocals := header.initLocals
    shifted := false }

def guarded (id : BodyId) : Guarded Body := do
  let header ← Header.guarded
  let code ← header.guardedCode
  let raws ← Stream.guarded code
  ofExcept (link id header code.length raws)

theorem yields_body (id : BodyId) (data : Bytes) : Yields data (guarded id) (decode id data) := by
  refine (Header.yields_header data).bind fun header _ => ?_
  refine (header.yields_code data).bind fun code _ => ?_
  refine Yields.bind ?_ fun raws _ => yields_ofExcept (link id header code.length raws)
  exact fun p hp => ⟨p, hp, Stream.guarded_eq code data p⟩

end Body

end CilEdit

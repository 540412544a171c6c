import CilEdit.Code.Stream

namespace CilEdit

/-- What a reading must not do. -/
inductive Guarded.Fault
  /-- An access to bytes that the data does not have. -/
  | outside
  /-- A position behind the end of the data. -/
  | beyond
  /-- A round of a loop that takes no byte. -/
  | standstill
  /-- Room for more elements than there are bytes left. -/
  | overbooked
  deriving DecidableEq, Repr

/-- Reading in data that stays where it is, from a position on. -/
def Guarded (α : Type) : Type :=
  Bytes → Nat → Except Guarded.Fault (Except Error α × Nat)

namespace Guarded

variable {α β σ : Type}

instance : Monad Guarded where
  pure a := fun _ p => .ok (.ok a, p)
  bind c f := fun data p =>
    match c data p with
    | .error fault => .error fault
    | .ok (.error e, q) => .ok (.error e, q)
    | .ok (.ok a, q) => f a data q

def ofExcept (x : Except Error α) : Guarded α := fun _ p => .ok (x, p)

def fail (e : Error) : Guarded α := ofExcept (.error e)

def bad (cause : Malformed) : Guarded α := fail (.malformed cause)

def position : Guarded Nat := fun _ p => .ok (.ok p, p)

def length : Guarded Nat := fun data p => .ok (.ok data.length, p)

/-- The bytes from `start` up to `stop`. -/
def slice (start stop : Nat) : Guarded Bytes := fun data p =>
  if start ≤ stop ∧ stop ≤ data.length then .ok (.ok ((data.drop start).take (stop - start)), p)
  else .error .outside

def moveTo (q : Nat) : Guarded Unit := fun data _ =>
  if q ≤ data.length then .ok (.ok (), q) else .error .beyond

def reserve (count : Nat) : Guarded Unit := fun data p =>
  if count ≤ data.length - p then .ok (.ok (), p) else .error .overbooked

def round (c : Guarded α) : Guarded α := fun data p =>
  match c data p with
  | .ok (.ok a, q) => if p < q then .ok (.ok a, q) else .error .standstill
  | stopped => stopped

/-- Reads from the front of other data. -/
def on (block : Bytes) (c : Guarded α) : Guarded α := fun _ p =>
  match c block 0 with
  | .ok (result, _) => .ok (result, p)
  | .error fault => .error fault

def remaining : Guarded Nat := do
  return (← length) - (← position)

def require (count : Nat) (cause : (left : Nat) → Malformed) : Guarded Unit := fun data p =>
  let left := data.length - p
  if count ≤ left then .ok (.ok (), p) else .ok (.error (.malformed (cause left)), p)

/-- Room for elements, once the bytes left are known to hold them. -/
def room (count : Nat) (cause : (left : Nat) → Malformed) (elements : Nat) : Guarded Unit := do
  require count cause
  reserve elements

def take (count : Nat) : Guarded Bytes := fun data p =>
  let stop := p + count
  if data.length < stop then fail .outOfBounds data p
  else (do
    let block ← slice p stop
    moveTo stop
    return block) data p

def nat (width : Nat) : Guarded Nat := do
  return Bytes.toNat (← take width)

def byte : Guarded UInt8 := do
  return (← take 1).headD 0

def iterate (step : σ → Guarded σ) : (count : Nat) → σ → Guarded σ
  | 0, s => pure s
  | count + 1, s => do
    let s ← round (step s)
    iterate step count s

def times (item : Guarded α) (count : Nat) : Guarded (List α) := do
  let items ← iterate (fun items => do return (← item) :: items) count []
  return items.reverse

/-- At `p`, `c` runs without a fault, does what `r` does and stays inside the data. If it succeeds,
it takes at least `least` bytes. -/
inductive TracksAt (least : Nat) (c : Guarded α) (r : Reader α) (data : Bytes) (p : Nat) : Prop
  | ok {a : α} {q : Nat} (guarded : c data p = .ok (.ok a, q))
      (read : r ⟨p, data.drop p⟩ = (.ok a, ⟨q, data.drop q⟩))
      (takes : p + least ≤ q) (inside : q ≤ data.length) : TracksAt least c r data p
  | error {e : Error} {q : Nat} (guarded : c data p = .ok (.error e, q))
      (read : r ⟨p, data.drop p⟩ = (.error e, ⟨q, data.drop q⟩))
      (inside : q ≤ data.length) : TracksAt least c r data p

def Tracks (least : Nat) (c : Guarded α) (r : Reader α) : Prop :=
  ∀ data p, p ≤ data.length → TracksAt least c r data p

variable {c : Guarded α} {r : Reader α} {data : Bytes} {p q least : Nat}

theorem bind_ok {a : α} (h : c data p = .ok (.ok a, q)) (f : α → Guarded β) :
    (c >>= f) data p = f a data q := by
  simp only [bind, h]

theorem bind_error {e : Error} (h : c data p = .ok (.error e, q)) (f : α → Guarded β) :
    (c >>= f) data p = .ok (.error e, q) := by
  simp only [bind, h]

theorem Tracks.mono {fewer : Nat} (h : Tracks least c r) (hle : fewer ≤ least) :
    Tracks fewer c r := by
  intro data p hp
  cases h data p hp with
  | ok hc hr htakes hq => exact .ok hc hr (Nat.le_trans (Nat.add_le_add_left hle p) htakes) hq
  | error hc hr hq => exact .error hc hr hq

theorem Tracks.weaken (h : Tracks least c r) : Tracks 0 c r :=
  h.mono (Nat.zero_le least)

theorem tracks_ofExcept (x : Except Error α) : Tracks 0 (ofExcept x) (Step.ofExcept x) := by
  intro data p hp
  cases x with
  | ok a => exact .ok rfl rfl (Nat.le_refl p) hp
  | error e => exact .error rfl rfl hp

theorem tracks_pure (a : α) : Tracks 0 (pure a) (pure a : Reader α) :=
  tracks_ofExcept (.ok a)

theorem tracks_fail (e : Error) : Tracks least (fail e) (Step.fail e : Reader α) :=
  fun _ _ hp => .error rfl rfl hp

theorem tracks_bad (cause : Malformed) : Tracks least (bad cause) (Reader.bad cause : Reader α) :=
  tracks_fail _

theorem tracks_position : Tracks 0 position Reader.position :=
  fun _ p hp => .ok rfl rfl (Nat.le_refl p) hp

theorem tracks_remaining : Tracks 0 remaining Reader.remaining := by
  intro data p hp
  refine .ok (a := data.length - p) rfl ?_ (Nat.le_refl p) hp
  rw [Reader.remaining, List.length_drop]

theorem Tracks.bind_add {m n : Nat} {f : α → Guarded β} {g : α → Reader β} (hc : Tracks m c r)
    (hf : ∀ a, Tracks n (f a) (g a)) : Tracks (m + n) (c >>= f) (r >>= g) := by
  intro data p hp
  cases hc data p hp with
  | error hc hr hq => exact .error (bind_error hc f) (Step.bind_error hr) hq
  | @ok a q hc hr hfirst hq =>
      cases hf a data q hq with
      | error hf hg hk => exact .error ((bind_ok hc f).trans hf) ((Step.bind_ok hr).trans hg) hk
      | ok hf hg hrest hk =>
          exact .ok ((bind_ok hc f).trans hf) ((Step.bind_ok hr).trans hg) (by omega) hk

/-- What the first part takes counts. -/
theorem Tracks.bind {f : α → Guarded β} {g : α → Reader β} (hc : Tracks least c r)
    (hf : ∀ a, Tracks 0 (f a) (g a)) : Tracks least (c >>= f) (r >>= g) :=
  hc.bind_add hf

/-- What the second part takes counts. -/
theorem Tracks.next {f : α → Guarded β} {g : α → Reader β} (hc : Tracks 0 c r)
    (hf : ∀ a, Tracks least (f a) (g a)) : Tracks least (c >>= f) (r >>= g) := by
  have h := hc.bind_add hf
  rwa [Nat.zero_add] at h

theorem run_require (count : Nat) (cause : (left : Nat) → Malformed) (data : Bytes) (p : Nat) :
    Reader.require count cause ⟨p, data.drop p⟩ =
      if count ≤ data.length - p then (.ok (), ⟨p, data.drop p⟩)
      else (.error (.malformed (cause (data.length - p))), ⟨p, data.drop p⟩) := by
  simp only [Reader.require, Bytes.holds_iff, List.length_drop]

theorem require_of_le {count : Nat} (h : count ≤ data.length - p)
    (cause : (left : Nat) → Malformed) : require count cause data p = .ok (.ok (), p) :=
  if_pos h

theorem require_of_lt {count : Nat} (h : data.length - p < count)
    (cause : (left : Nat) → Malformed) :
    require count cause data p = .ok (.error (.malformed (cause (data.length - p))), p) :=
  if_neg (Nat.not_le.mpr h)

theorem tracks_require (count : Nat) (cause : (left : Nat) → Malformed) :
    Tracks 0 (require count cause) (Reader.require count cause) := by
  intro data p hp
  have hread := run_require count cause data p
  rcases Nat.lt_or_ge (data.length - p) count with hlt | hle
  · exact .error (require_of_lt hlt cause) (hread.trans (if_neg (Nat.not_le.mpr hlt))) hp
  · exact .ok (require_of_le hle cause) (hread.trans (if_pos hle)) (Nat.le_refl p) hp

/-- Room may be asked for as many elements as the bytes left were checked to hold. -/
theorem tracks_room {count elements : Nat} (helements : elements ≤ count)
    (cause : (left : Nat) → Malformed) :
    Tracks 0 (room count cause elements) (Reader.require count cause) := by
  intro data p hp
  have hread := run_require count cause data p
  rcases Nat.lt_or_ge (data.length - p) count with hlt | hle
  · have hrequire := bind_error (require_of_lt hlt cause) fun _ => reserve elements
    exact .error hrequire (hread.trans (if_neg (Nat.not_le.mpr hlt))) hp
  · have hreserve : reserve elements data p = .ok (.ok (), p) :=
      if_pos (Nat.le_trans helements hle)
    have hrequire := bind_ok (require_of_le hle cause) fun _ => reserve elements
    exact .ok (hrequire.trans hreserve) (hread.trans (if_pos hle)) (Nat.le_refl p) hp

theorem take_of_le (count : Nat) (h : p + count ≤ data.length) :
    take count data p = .ok (.ok ((data.drop p).take count), p + count) := by
  have hslice : slice p (p + count) data p = .ok (.ok ((data.drop p).take count), p) := by
    rw [slice, if_pos ⟨Nat.le_add_right p count, h⟩, Nat.add_sub_cancel_left]
  have hmove : moveTo (p + count) data p = .ok (.ok (), p + count) := if_pos h
  rw [take, if_neg (Nat.not_lt.mpr h), bind_ok hslice, bind_ok hmove]
  rfl

theorem take_of_lt (count : Nat) (h : data.length < p + count) :
    take count data p = .ok (.error .outOfBounds, p) :=
  if_pos h

theorem tracks_take (count : Nat) : Tracks count (take count) (Reader.take count) := by
  intro data p hp
  have hlength : ((data.drop p).take count).length = min count (data.length - p) := by
    rw [List.length_take, List.length_drop]
  rcases Nat.lt_or_ge data.length (p + count) with hlt | hle
  · refine .error (take_of_lt count hlt) ?_ hp
    simp only [Reader.take, hlength]
    exact if_neg (by omega)
  · refine .ok (take_of_le count hle) ?_ (Nat.le_refl _) hle
    simp only [Reader.take, hlength, Input.advance, List.drop_drop]
    exact if_pos (by omega)

theorem tracks_nat (width : Nat) : Tracks width (nat width) (Reader.nat width) :=
  (tracks_take width).bind fun _ => tracks_pure _

theorem tracks_byte : Tracks 1 byte Reader.byte := by
  intro data p hp
  rcases Nat.lt_or_eq_of_le hp with hlt | rfl
  · have hdrop : data.drop p = data[p] :: data.drop (p + 1) := List.drop_eq_getElem_cons hlt
    refine .ok (a := data[p]) ?_ ?_ (Nat.le_refl (p + 1)) hlt
    · rw [byte, bind_ok (take_of_le 1 hlt), hdrop]
      rfl
    · rw [hdrop]
      rfl
  · refine .error (bind_error (take_of_lt 1 (Nat.lt_succ_self _)) _) ?_ hp
    rw [List.drop_length]
    rfl

theorem lt_of_round {a : α} (h : c.round data p = .ok (.ok a, q)) : p < q := by
  unfold round at h
  split at h
  · split at h
    · rename_i hlt
      cases h
      exact hlt
    · cases h
  · rename_i hstopped
    exact absurd h (hstopped a q)

theorem round_of_ok {a : α} (hc : c data p = .ok (.ok a, q)) (hlt : p < q) :
    c.round data p = .ok (.ok a, q) := by
  simp only [round, hc]
  exact if_pos hlt

theorem round_of_error {e : Error} (hc : c data p = .ok (.error e, q)) :
    c.round data p = .ok (.error e, q) := by
  simp only [round, hc]

theorem Tracks.round (hc : Tracks 1 c r) : Tracks 1 c.round r := by
  intro data p hp
  cases hc data p hp with
  | ok hc hr htakes hq => exact .ok (round_of_ok hc htakes) hr htakes hq
  | error hc hr hq => exact .error (round_of_error hc) hr hq

theorem tracks_iterate {step : σ → Guarded σ} {step' : σ → Reader σ}
    (hstep : ∀ s, Tracks 1 (step s) (step' s)) (count : Nat) (s : σ) :
    Tracks 0 (iterate step count s) (Reader.iterate step' count s) := by
  induction count generalizing s with
  | zero => exact tracks_pure s
  | succ count ih => exact (hstep s).round.weaken.bind ih

theorem tracks_times {item : Guarded α} {item' : Reader α} (hitem : Tracks 1 item item')
    (count : Nat) : Tracks 0 (times item count) (Reader.times item' count) :=
  (tracks_iterate (fun _ => hitem.bind fun _ => tracks_pure _) count []).bind
    fun _ => tracks_pure _

end Guarded

open Guarded

namespace Varint

def guardedGroups : (groups shift : Nat) → (value : UInt32) → Guarded UInt32
  | 0, shift, _ => Guarded.bad (.integerOverflow shift)
  | groups + 1, shift, value => do
    let b ← Guarded.byte
    let value := value ||| (UInt32.ofNat (b.toNat % 128) <<< UInt32.ofNat shift)
    if b < 0x80 then return value
    guardedGroups groups (shift + 7) value

def guarded : Guarded Nat := do
  let value ← guardedGroups 5 0 0
  return value.toNat

theorem tracks_groups (groups shift : Nat) (value : UInt32) :
    Tracks 0 (guardedGroups groups shift value) (readGroups groups shift value) := by
  induction groups generalizing shift value with
  | zero => exact tracks_bad _
  | succ groups ih =>
      refine tracks_byte.weaken.bind fun b => ?_
      dsimp only
      split
      · exact tracks_pure _
      · exact ih _ _

theorem tracks_read : Tracks 1 guarded read := by
  refine Tracks.bind (tracks_byte.bind fun b => ?_) fun value => tracks_pure _
  dsimp only
  split
  · exact tracks_pure _
  · exact tracks_groups 4 7 _

end Varint

namespace Prefixed

def guarded : Guarded String := do
  let length ← Varint.guarded
  let start ← position
  let block ← take length
  match Text.Utf8.decode block with
  | .ok text => return text
  | .error fault => bad (.invalidText start (start + length) fault)

theorem tracks_read : Tracks 1 guarded read := by
  refine Varint.tracks_read.bind fun length => tracks_position.bind fun start => ?_
  refine (tracks_take length).weaken.bind fun block => ?_
  cases Text.Utf8.decode block with
  | ok text => exact tracks_pure _
  | error fault => exact tracks_bad _

end Prefixed

namespace Opcode

def guardedValue (first : UInt8) : Guarded Nat :=
  if first = Opcode.wideMark then do
    let second ← byte
    return 0xFE00 + second.toNat
  else pure first.toNat

def guarded : Guarded Opcode := do
  let start ← position
  let first ← byte
  let value ← guardedValue first
  match ofValue? (UInt16.ofNat value) with
  | some op => return op
  | none => bad (.invalidOpcode value start)

theorem tracks_readValue (first : UInt8) : Tracks 0 (guardedValue first) (readValue first) := by
  unfold guardedValue readValue
  split
  · exact tracks_byte.weaken.bind fun _ => tracks_pure _
  · exact tracks_pure _

theorem tracks_read : Tracks 1 guarded read := by
  refine tracks_position.next fun start => tracks_byte.bind fun first => ?_
  refine (tracks_readValue first).bind fun value => ?_
  cases ofValue? (UInt16.ofNat value) with
  | some op => exact tracks_pure _
  | none => exact tracks_bad _

end Opcode

/-- Room for the cases of a table is asked for before they are read. -/
def OperandKind.guarded (start : Nat) : OperandKind → Guarded (Operand Int)
  | .none => return .none
  | .int8 => return .immediate (.int8 (← byte).toInt8)
  | .uint8 => return .immediate (.uint8 (← byte))
  | .uint16 => return .immediate (.uint16 (UInt16.ofNat (← nat 2)))
  | .int32 => return .immediate (.int32 (UInt32.ofNat (← nat 4)).toInt32)
  | .int64 => return .immediate (.int64 (UInt64.ofNat (← nat 8)).toInt64)
  | .float32 => return .immediate (.float32 (UInt32.ofNat (← nat 4)))
  | .float64 => return .immediate (.float64 (UInt64.ofNat (← nat 8)))
  | .token => return .token ⟨UInt32.ofNat (← nat 4)⟩
  | .shortTarget => do
    let displacement ← nat 1
    return .target ((← position) + Bytes.signed 1 displacement)
  | .target => do
    let displacement ← nat 4
    return .target ((← position) + Bytes.signed 4 displacement)
  | .switch => do
    let count ← nat 4
    room (4 * count) (fun _ => .switchCount start count) count
    let displacements ← times (nat 4) count
    let base ← position
    return .switch (displacements.map fun d => base + Bytes.signed 4 d)

theorem OperandKind.tracks_read (start : Nat) (kind : OperandKind) :
    Tracks 0 (kind.guarded start) (kind.read start) := by
  cases kind with
  | none => exact tracks_pure _
  | int8 | uint8 => exact tracks_byte.weaken.bind fun _ => tracks_pure _
  | uint16 | int32 | int64 | float32 | float64 | token =>
      exact (tracks_nat _).weaken.bind fun _ => tracks_pure _
  | shortTarget | target =>
      exact (tracks_nat _).weaken.bind fun _ => tracks_position.bind fun _ => tracks_pure _
  | switch =>
      refine (tracks_nat 4).weaken.bind fun count => ?_
      refine (tracks_room (Nat.le_mul_of_pos_left count (by decide)) _).bind fun _ => ?_
      refine (tracks_times ((tracks_nat 4).mono (by decide)) count).bind fun displacements => ?_
      exact tracks_position.bind fun base => tracks_pure _

namespace RawInstruction

def guarded : Guarded RawInstruction := do
  let start ← position
  let opcode ← Opcode.guarded
  let operand ← opcode.operand.guarded start
  return ⟨start, (← position) - start, opcode, operand⟩

theorem tracks_read : Tracks 1 guarded read := by
  refine tracks_position.next fun start => Opcode.tracks_read.bind fun opcode => ?_
  refine (OperandKind.tracks_read start opcode.operand).bind fun operand => ?_
  exact tracks_position.bind fun stop => tracks_pure _

end RawInstruction

namespace Stream

/-- Instructions up to the end of the data, after those already read, the last one first. -/
def guardedAll (seen : List RawInstruction) (data : Bytes) (p : Nat) :
    Except Fault (Except Error (List RawInstruction) × Nat) :=
  if p < data.length then
    match _h : RawInstruction.guarded.round data p with
    | .error fault => .error fault
    | .ok (.error e, q) => .ok (.error e, q)
    | .ok (.ok raw, q) => guardedAll (raw :: seen) data q
  else .ok (.ok seen.reverse, p)
termination_by data.length - p
decreasing_by
  have hlt := lt_of_round _h
  omega

def guarded (code : Bytes) : Guarded (List RawInstruction) :=
  on code (guardedAll [])

variable {data : Bytes} {p : Nat} {i : Input} {seen : List RawInstruction}

theorem guardedAll_of_ok {raw : RawInstruction} {q : Nat} (hlt : p < data.length)
    (hround : RawInstruction.guarded.round data p = .ok (.ok raw, q)) :
    guardedAll seen data p = guardedAll (raw :: seen) data q := by
  rw [guardedAll, if_pos hlt]
  split <;> rename_i heq <;> rw [hround] at heq <;> cases heq
  rfl

theorem guardedAll_of_error {e : Error} {q : Nat} (hlt : p < data.length)
    (hround : RawInstruction.guarded.round data p = .ok (.error e, q)) :
    guardedAll seen data p = .ok (.error e, q) := by
  rw [guardedAll, if_pos hlt]
  split <;> rename_i heq <;> rw [hround] at heq <;> cases heq
  rfl

theorem isEmpty_drop_iff : (data.drop p).isEmpty = true ↔ data.length ≤ p := by
  rw [List.isEmpty_iff, List.drop_eq_nil_iff]

/-- The loop over the instructions of a stream ends without a fault, and inside the data. -/
theorem guardedAll_eq (data : Bytes) (seen : List RawInstruction) (hi : i = ⟨p, data.drop p⟩)
    (hp : p ≤ data.length) :
    ∃ q ≤ data.length, guardedAll seen data p = .ok (readAll i seen, q) := by
  induction i, seen using readAll.induct generalizing p with
  | case1 i seen hempty =>
      subst hi
      have hend : ¬ p < data.length := Nat.not_lt.mpr (isEmpty_drop_iff.mp hempty)
      rw [guardedAll, if_neg hend, readAll, if_pos hempty]
      exact ⟨p, hp, rfl⟩
  | case2 i seen hrest e next hread =>
      subst hi
      have hlt : p < data.length := Nat.not_le.mp (hrest ∘ isEmpty_drop_iff.mpr)
      cases RawInstruction.tracks_read.round data p hp with
      | ok _ hr _ _ => cases hread.symm.trans hr
      | @error _ q hround hr hq =>
          cases hread.symm.trans hr
          rw [guardedAll_of_error hlt hround, readAll_of_error hrest hread]
          exact ⟨q, hq, rfl⟩
  | case3 i seen hrest raw next hread ih =>
      subst hi
      have hlt : p < data.length := Nat.not_le.mp (hrest ∘ isEmpty_drop_iff.mpr)
      cases RawInstruction.tracks_read.round data p hp with
      | error _ hr _ => cases hread.symm.trans hr
      | ok hround hr _ hq =>
          cases hread.symm.trans hr
          rw [guardedAll_of_ok hlt hround, readAll_of_ok hread]
          exact ih rfl hq

theorem guarded_eq (code : Bytes) (data : Bytes) (p : Nat) :
    guarded code data p = .ok (decode code, p) := by
  obtain ⟨q, -, hall⟩ := guardedAll_eq code [] (i := .ofBytes code) rfl (Nat.zero_le _)
  simp only [guarded, on, hall, decode]

end Stream

end CilEdit

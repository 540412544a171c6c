import CilEdit.Text.Hex

namespace CilEdit.Sha1

structure State where
  a : UInt32
  b : UInt32
  c : UInt32
  d : UInt32
  e : UInt32

def State.initial : State :=
  ⟨0x67452301, 0xEFCDAB89, 0x98BADCFE, 0x10325476, 0xC3D2E1F0⟩

def rotate (x : UInt32) (count : UInt32) : UInt32 :=
  (x <<< count) ||| (x >>> (32 - count))

def State.round (s : State) (t : Nat) (word : UInt32) : State :=
  let (f, k) : UInt32 × UInt32 :=
    if t < 20 then ((s.b &&& s.c) ||| (~~~s.b &&& s.d), 0x5A827999)
    else if t < 40 then (s.b ^^^ s.c ^^^ s.d, 0x6ED9EBA1)
    else if t < 60 then ((s.b &&& s.c) ||| (s.b &&& s.d) ||| (s.c &&& s.d), 0x8F1BBCDC)
    else (s.b ^^^ s.c ^^^ s.d, 0xCA62C1D6)
  ⟨rotate s.a 5 + f + s.e + k + word, s.a, rotate s.b 30, s.c, s.d⟩

def words (block : Array UInt8) : Array UInt32 :=
  (Array.range 16).map fun i =>
    let byte (k : Nat) : UInt32 := (block[4 * i + k]?.getD 0).toUInt32
    byte 0 <<< 24 ||| byte 1 <<< 16 ||| byte 2 <<< 8 ||| byte 3

def schedule (block : Array UInt8) : Array UInt32 :=
  (List.range 64).foldl
    (fun w i =>
      let word (k : Nat) : UInt32 := w[i + k]?.getD 0
      w.push (rotate (word 13 ^^^ word 8 ^^^ word 2 ^^^ word 0) 1))
    (words block)

def State.absorb (s : State) (block : Array UInt8) : State :=
  let w := schedule block
  let r := (List.range 80).foldl (fun r t => r.round t (w[t]?.getD 0)) s
  ⟨s.a + r.a, s.b + r.b, s.c + r.c, s.d + r.d, s.e + r.e⟩

/-- The final block or blocks: the rest of the message, the bit `1`, zeros, and the length in bits
as a big-endian number of eight bytes. -/
def finish (tail : Array UInt8) (length : Nat) : List (Array UInt8) :=
  let marked := tail.push 0x80
  let zeros := (120 - marked.size) % 64
  let count := (List.range 8).map fun i => UInt8.ofNat ((8 * length) >>> (8 * (7 - i)))
  let all := marked ++ List.replicate zeros (0 : UInt8) ++ count
  if all.size ≤ 64 then [all] else [all.extract 0 64, all.extract 64 128]

/-- Takes in bytes one by one; `block` holds those of the unfinished block. -/
def absorbAll (s : State) (block : Array UInt8) (length : Nat) : List UInt8 → State
  | [] => (finish block length).foldl State.absorb s
  | b :: rest =>
    let block := block.push b
    if block.size = 64 then absorbAll (s.absorb block) #[] (length + 1) rest
    else absorbAll s block (length + 1) rest

def hex (data : List UInt8) : String :=
  let s := absorbAll .initial #[] 0 data
  String.join ([s.a, s.b, s.c, s.d, s.e].map fun word => Text.Hex.padded 8 word.toNat)

end CilEdit.Sha1

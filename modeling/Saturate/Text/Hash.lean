/-!
A 64-bit hash of text with fixed seeds, built from the folded multiply: the
128-bit product of two words with its halves combined by exclusive or.

The bytes of the text are folded into an accumulator that starts from a
fixed seed rotated right by the length: up to 16 bytes by reading two
(possibly overlapping) words from the two ends, up to 255 bytes by taking
16-byte blocks from both ends towards the middle, and beyond that in 64-byte
blocks followed by the tail. A final byte `0xff` marks the end of the text
and is folded in last. Every word is read little-endian.
-/

namespace Saturate.Text

/-- The folded multiply: the low and high halves of the full product of two
words, combined by exclusive or. -/
def foldedMul (x y : UInt64) : UInt64 :=
  let p := x.toNat * y.toNat
  (p % Nat.pow 2 64).toUInt64 ^^^ (p / Nat.pow 2 64).toUInt64

/-- The seed the accumulator starts from. -/
def hashSeed : UInt64 := 0x082efa98ec4e6c89

/-- The seed every fold multiplies against. -/
def foldSeed : UInt64 := 0x452821e638d01377

/-- The seeds that start the second, third and fourth lanes. -/
def expandSeeds : UInt64 × UInt64 × UInt64 :=
  (0xbe5466cf34e90c6c, 0xc0ac29b7c97c50dd, 0x3f84d5b5b5470917)

/-- A word rotated right by `r` places, `r < 64`. -/
def rotateRight (x : UInt64) (r : Nat) : UInt64 :=
  (x >>> r.toUInt64) ||| (x <<< (64 - r).toUInt64)

/-- The little-endian number in the `n` bytes of `b` from position `i`;
bytes past the end count as zero. -/
def readLE (b : ByteArray) (i n : Nat) : UInt64 :=
  (List.range n).foldr (fun k acc => (acc <<< 8) ||| (b[i + k]?.getD 0).toUInt64) 0

/-- The two lanes after folding 16-byte blocks taken from both ends of
`b[start, stop)` towards the middle, `k` blocks from each end at most. -/
def foldEnds (b : ByteArray) (start stop : Nat) (s0 s1 : UInt64) : Nat → Nat → UInt64 × UInt64
  | 0, _ => (s0, s1)
  | fuel + 1, k =>
    let lo := start + 16 * k
    let hi := stop - 16 * k
    if lo + 16 > stop || lo ≥ hi then (s0, s1)
    else
      let s0' := foldedMul (readLE b lo 8 ^^^ s0) (readLE b (hi - 16) 8 ^^^ foldSeed)
      let s1' := foldedMul (readLE b (lo + 8) 8 ^^^ s1) (readLE b (hi - 8) 8 ^^^ foldSeed)
      foldEnds b start stop s0' s1' fuel (k + 1)

/-- The accumulator after the bytes `b[start, stop)`, at least 16 of them,
taken in 16-byte blocks from both ends. -/
def hashMedium (b : ByteArray) (start stop : Nat) (s0 s1 : UInt64) : UInt64 :=
  let (s0, s1) := foldEnds b start stop s0 s1 ((stop - start) / 16) 0
  s0 ^^^ s1

/-- Four lanes after folding the 64-byte blocks of `b` from block `k` on. -/
def foldBlocks (b : ByteArray) (s : UInt64 × UInt64 × UInt64 × UInt64) :
    Nat → Nat → UInt64 × UInt64 × UInt64 × UInt64
  | 0, _ => s
  | fuel + 1, k =>
    let (s0, s1, s2, s3) := s
    let at_ := fun j => readLE b (64 * k + 8 * j) 8
    let s' := (foldedMul (at_ 0 ^^^ s0) (at_ 4 ^^^ foldSeed),
      foldedMul (at_ 1 ^^^ s1) (at_ 5 ^^^ foldSeed),
      foldedMul (at_ 2 ^^^ s2) (at_ 6 ^^^ foldSeed),
      foldedMul (at_ 3 ^^^ s3) (at_ 7 ^^^ foldSeed))
    foldBlocks b s' fuel (k + 1)

/-- The accumulator after 256 bytes or more: whole 64-byte blocks in four
lanes, then the last 16 bytes or more in two. -/
def hashLong (b : ByteArray) (s0 s1 s2 s3 : UInt64) : UInt64 :=
  let n := b.size
  let (s0, s1, s2, s3) := foldBlocks b (s0, s1, s2, s3) (n / 64) 0
  let s0 := s0 ^^^ s2
  let s1 := s1 ^^^ s3
  let rest := n % 64
  if rest > 0 then hashMedium b (n - max rest 16) n s0 s1 else s0 ^^^ s1

/-- The accumulator after the bytes of a text. -/
def hashBytes (b : ByteArray) : UInt64 :=
  let n := b.size
  let (e1, e2, e3) := expandSeeds
  let base := rotateRight hashSeed (n % 64)
  if n ≤ 16 then
    let (s0, s1) :=
      if n ≥ 8 then (base ^^^ readLE b 0 8, e1 ^^^ readLE b (n - 8) 8)
      else if n ≥ 4 then (base ^^^ readLE b 0 4, e1 ^^^ readLE b (n - 4) 4)
      else if n > 0 then
        (base ^^^ readLE b 0 1, e1 ^^^ ((readLE b (n - 1) 1 <<< 8) ||| readLE b (n / 2) 1))
      else (base, e1)
    foldedMul s0 s1
  else if n < 256 then hashMedium b 0 n base (base + e1)
  else hashLong b base (base + e1) (base + e2) (base + e3)

/-- The hash of a text: its bytes, then the end mark `0xff`. -/
def hash (s : String) : UInt64 :=
  foldedMul (hashBytes s.toUTF8 ^^^ 0xff) foldSeed

end Saturate.Text

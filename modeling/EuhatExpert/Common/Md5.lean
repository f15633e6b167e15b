import EuhatExpert.Machinery.Absorb
import EuhatExpert.Machinery.Bytes

/-!
# Common/Md5 — `md5.c`, in its words

A context keeps a state of four words, a buffer of 64 bytes, and the number of bits in two words of 32.
`md5Update` takes a piece of the message: it fills the buffer, transforms the whole blocks behind it in a
loop that counts in an `unsigned int`, and keeps the rest.  `md5Final` pads by the same way.

What `md5Transform` does to a state is a parameter of the functions here, so that what they feed it can be
told apart from what it makes of it; `md5Update` and `md5Final` are theirs with the transform of the source.
A run that reads or writes outside its buffers, or that is still in its loop when the fuel is spent, is `none`.
-/

namespace EuhatExpert

open Machinery

/-! ## The transform -/

structure Md5State where
  a : UInt32
  b : UInt32
  c : UInt32
  d : UInt32
  deriving DecidableEq, Repr

namespace Md5

def F (x y z : UInt32) : UInt32 := (x &&& y) ||| (~~~x &&& z)

def G (x y z : UInt32) : UInt32 := (x &&& z) ||| (y &&& ~~~z)

def H (x y z : UInt32) : UInt32 := x ^^^ y ^^^ z

def I (x y z : UInt32) : UInt32 := y ^^^ (x ||| ~~~z)

def ROTATE_LEFT (x n : UInt32) : UInt32 := (x <<< n) ||| (x >>> (32 - n))

/-- One operation of a round, with the function of its round. -/
def roundOp (f : UInt32 → UInt32 → UInt32 → UInt32) (a b c d x s ac : UInt32) : UInt32 :=
  ROTATE_LEFT (a + (f b c d + x + ac)) s + b

def FF : UInt32 → UInt32 → UInt32 → UInt32 → UInt32 → UInt32 → UInt32 → UInt32 := roundOp F

def GG : UInt32 → UInt32 → UInt32 → UInt32 → UInt32 → UInt32 → UInt32 → UInt32 := roundOp G

def HH : UInt32 → UInt32 → UInt32 → UInt32 → UInt32 → UInt32 → UInt32 → UInt32 := roundOp H

def II : UInt32 → UInt32 → UInt32 → UInt32 → UInt32 → UInt32 → UInt32 → UInt32 := roundOp I

end Md5

/-- Four bytes of a word, least significant first. -/
def md5EncodeWord (w : UInt32) : Bytes :=
  [(w &&& 0xFF).toUInt8, (w >>> 8 &&& 0xFF).toUInt8, (w >>> 16 &&& 0xFF).toUInt8, (w >>> 24 &&& 0xFF).toUInt8]

/-- `md5Encode`. -/
def md5Encode (input : List UInt32) : Bytes := input.flatMap md5EncodeWord

/-- `md5Decode`. -/
def md5Decode : Bytes → List UInt32
  | b₀ :: b₁ :: b₂ :: b₃ :: input =>
    (b₀.toUInt32 ||| b₁.toUInt32 <<< 8 ||| b₂.toUInt32 <<< 16 ||| b₃.toUInt32 <<< 24) :: md5Decode input
  | _ => []

open Md5 in
/-- `md5Transform`. -/
def md5Transform (state : Md5State) (block : Bytes) : Md5State :=
  let ⟨a, b, c, d⟩ := state
  let x := fun i => (md5Decode block).getD i 0
  -- Round 1
  let a := FF a b c d (x 0) 7 0xd76aa478
  let d := FF d a b c (x 1) 12 0xe8c7b756
  let c := FF c d a b (x 2) 17 0x242070db
  let b := FF b c d a (x 3) 22 0xc1bdceee
  let a := FF a b c d (x 4) 7 0xf57c0faf
  let d := FF d a b c (x 5) 12 0x4787c62a
  let c := FF c d a b (x 6) 17 0xa8304613
  let b := FF b c d a (x 7) 22 0xfd469501
  let a := FF a b c d (x 8) 7 0x698098d8
  let d := FF d a b c (x 9) 12 0x8b44f7af
  let c := FF c d a b (x 10) 17 0xffff5bb1
  let b := FF b c d a (x 11) 22 0x895cd7be
  let a := FF a b c d (x 12) 7 0x6b901122
  let d := FF d a b c (x 13) 12 0xfd987193
  let c := FF c d a b (x 14) 17 0xa679438e
  let b := FF b c d a (x 15) 22 0x49b40821
  -- Round 2
  let a := GG a b c d (x 1) 5 0xf61e2562
  let d := GG d a b c (x 6) 9 0xc040b340
  let c := GG c d a b (x 11) 14 0x265e5a51
  let b := GG b c d a (x 0) 20 0xe9b6c7aa
  let a := GG a b c d (x 5) 5 0xd62f105d
  let d := GG d a b c (x 10) 9 0x2441453
  let c := GG c d a b (x 15) 14 0xd8a1e681
  let b := GG b c d a (x 4) 20 0xe7d3fbc8
  let a := GG a b c d (x 9) 5 0x21e1cde6
  let d := GG d a b c (x 14) 9 0xc33707d6
  let c := GG c d a b (x 3) 14 0xf4d50d87
  let b := GG b c d a (x 8) 20 0x455a14ed
  let a := GG a b c d (x 13) 5 0xa9e3e905
  let d := GG d a b c (x 2) 9 0xfcefa3f8
  let c := GG c d a b (x 7) 14 0x676f02d9
  let b := GG b c d a (x 12) 20 0x8d2a4c8a
  -- Round 3
  let a := HH a b c d (x 5) 4 0xfffa3942
  let d := HH d a b c (x 8) 11 0x8771f681
  let c := HH c d a b (x 11) 16 0x6d9d6122
  let b := HH b c d a (x 14) 23 0xfde5380c
  let a := HH a b c d (x 1) 4 0xa4beea44
  let d := HH d a b c (x 4) 11 0x4bdecfa9
  let c := HH c d a b (x 7) 16 0xf6bb4b60
  let b := HH b c d a (x 10) 23 0xbebfbc70
  let a := HH a b c d (x 13) 4 0x289b7ec6
  let d := HH d a b c (x 0) 11 0xeaa127fa
  let c := HH c d a b (x 3) 16 0xd4ef3085
  let b := HH b c d a (x 6) 23 0x4881d05
  let a := HH a b c d (x 9) 4 0xd9d4d039
  let d := HH d a b c (x 12) 11 0xe6db99e5
  let c := HH c d a b (x 15) 16 0x1fa27cf8
  let b := HH b c d a (x 2) 23 0xc4ac5665
  -- Round 4
  let a := II a b c d (x 0) 6 0xf4292244
  let d := II d a b c (x 7) 10 0x432aff97
  let c := II c d a b (x 14) 15 0xab9423a7
  let b := II b c d a (x 5) 21 0xfc93a039
  let a := II a b c d (x 12) 6 0x655b59c3
  let d := II d a b c (x 3) 10 0x8f0ccc92
  let c := II c d a b (x 10) 15 0xffeff47d
  let b := II b c d a (x 1) 21 0x85845dd1
  let a := II a b c d (x 8) 6 0x6fa87e4f
  let d := II d a b c (x 15) 10 0xfe2ce6e0
  let c := II c d a b (x 6) 15 0xa3014314
  let b := II b c d a (x 13) 21 0x4e0811a1
  let a := II a b c d (x 4) 6 0xf7537e82
  let d := II d a b c (x 11) 10 0xbd3af235
  let c := II c d a b (x 2) 15 0x2ad7d2bb
  let b := II b c d a (x 9) 21 0xeb86d391
  ⟨state.a + a, state.b + b, state.c + c, state.d + d⟩

/-! ## The context -/

/-- The 64 bytes in which blocks are put together. -/
structure Md5Buffer where
  val : Bytes
  length_val : val.length = 64

/-- `memcpy` into the buffer at `index`: nothing is written beyond its end. -/
def Md5Buffer.memcpy (buffer : Md5Buffer) (index : ℕ) (src : Bytes) : Option Md5Buffer :=
  if h : index + src.length ≤ 64 then
    some ⟨buffer.val.take index ++ (src ++ buffer.val.drop (index + src.length)), by
      have := buffer.length_val
      simp only [List.length_append, List.length_take, List.length_drop]
      omega⟩
  else none

structure Md5Ctx where
  count : UInt32 × UInt32
  state : Md5State
  buffer : Md5Buffer

/-- The state `md5Init` sets. -/
def md5Start : Md5State := ⟨0x67452301, 0xEFCDAB89, 0x98BADCFE, 0x10325476⟩

/-- `md5Init`, which leaves in the buffer what is there. -/
def md5Init (buffer : Md5Buffer) : Md5Ctx := ⟨(0, 0), md5Start, buffer⟩

def PADDING : Bytes := 0x80 :: List.replicate 63 0

/-- `n` bytes of a piece from `i` on: none of them beyond its end. -/
def readPiece (input : Bytes) (i n : ℕ) : Option Bytes :=
  if i + n ≤ input.length then some ((input.drop i).take n) else none

/-- Where in the buffer the next byte goes. -/
def Md5Ctx.index (context : Md5Ctx) : UInt32 := context.count.1 >>> 3 &&& 0x3F

/-- The counter after `inputlen` more bytes. -/
def Md5Ctx.counted (context : Md5Ctx) (inputlen : UInt64) : UInt32 × UInt32 :=
  let count0 := context.count.1 + (inputlen <<< 3).toUInt32
  let count1 := if count0.toUInt64 < inputlen <<< 3 then context.count.2 + 1 else context.count.2
  (count0, count1 + (inputlen >>> 29).toUInt32)

section With

variable (transform : Md5State → Bytes → Md5State)

/-- The loop over the whole blocks: `i` is an `unsigned int`, and so is `i + 64`. -/
def md5Loop (input : Bytes) (inputlen : UInt64) : ℕ → UInt32 → Md5State → Option (Md5State × UInt32)
  | 0, _, _ => none
  | fuel + 1, i, state =>
    if (i + 64).toUInt64 ≤ inputlen then do
      let block ← readPiece input i.toNat 64
      md5Loop input inputlen fuel (i + 64) (transform state block)
    else some (state, i)

/-- `md5Update`, with a transform. -/
def md5UpdateWith (fuel : ℕ) (context : Md5Ctx) (input : Bytes) : Option Md5Ctx :=
  let inputlen := UInt64.ofNat input.length
  let index := context.index
  let partlen := 64 - index
  let count := context.counted inputlen
  if inputlen ≥ partlen.toUInt64 then do
    let part ← readPiece input 0 partlen.toNat
    let buffer ← context.buffer.memcpy index.toNat part
    let (state, i) ← md5Loop transform input inputlen fuel partlen (transform context.state buffer.val)
    let rest ← readPiece input i.toNat (inputlen - i.toUInt64).toNat
    let buffer ← buffer.memcpy 0 rest
    some ⟨count, state, buffer⟩
  else do
    let buffer ← context.buffer.memcpy index.toNat input
    some ⟨count, context.state, buffer⟩

/-- `md5Final`, with a transform. -/
def md5FinalWith (fuel : ℕ) (context : Md5Ctx) : Option Bytes := do
  let index := context.index
  let padlen := if index < 56 then 56 - index else 120 - index
  let bits := md5Encode [context.count.1, context.count.2]
  let context ← md5UpdateWith transform fuel context (PADDING.take padlen.toNat)
  let context ← md5UpdateWith transform fuel context bits
  some (md5Encode [context.state.a, context.state.b, context.state.c, context.state.d])

/-- A message fed in pieces, and its digest. -/
def md5With (fuel : ℕ) (buffer : Md5Buffer) (pieces : List Bytes) : Option Bytes := do
  let context ← pieces.foldlM (md5UpdateWith transform fuel) (md5Init buffer)
  md5FinalWith transform fuel context

end With

def md5Update : ℕ → Md5Ctx → Bytes → Option Md5Ctx := md5UpdateWith md5Transform

def md5Final : ℕ → Md5Ctx → Option Bytes := md5FinalWith md5Transform

/-- `JyBuf::md5`, with what is on the stack in the buffer of its context. -/
def JyBuf.md5 (fuel : ℕ) (buffer : Md5Buffer) (data_ : Bytes) : Option Bytes := do
  let context ← md5Update fuel (md5Init buffer) data_
  md5Final fuel context

/-- A buffer of zeros. -/
def Md5Buffer.zero : Md5Buffer := ⟨List.replicate 64 0, List.length_replicate⟩

/-- The digest of `abc`. -/
example : JyBuf.md5 1 .zero (ofAscii "abc") = some [0x90, 0x01, 0x50, 0x98, 0x3c, 0xd2, 0x4f, 0xb0,
    0xd6, 0x96, 0x3f, 0x7d, 0x28, 0xe1, 0x7f, 0x72] := by
  decide +kernel

/-! ## What a digest is to be -/

/-- A message and its padding: a bit, zeros up to eight bytes before the end of a block, and the number of
bits of the message. -/
def md5Padded (message : Bytes) : Bytes :=
  message ++ (0x80 :: (List.replicate ((119 - message.length % 64) % 64) 0 ++ leBytes 8 (8 * message.length)))

/-- The digest of a message: the transform folded over the blocks of the padded message. -/
def md5Digest (transform : Md5State → Bytes → Md5State) (message : Bytes) : Bytes :=
  let state := (chunks 64 (md5Padded message)).foldl transform md5Start
  md5Encode [state.a, state.b, state.c, state.d]

end EuhatExpert

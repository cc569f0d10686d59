import LynxRecomp.Lib.BigEndian
import LynxRecomp.Runtime.Hardware

/-!
# The boot-block decryptor

`lynxdec.c`. Working buffers are strings of 52 bytes, most significant first: one
guard byte and the 51 bytes of a block. The loops over a buffer run from its last
byte to its first with a carry or borrow.
-/

namespace LynxRecomp

def klen : Nat := 51
def blen : Nat := 52

/-- The public modulus, most significant byte first. -/
def nmod : List Byte := [
  0x35,0xB5,0xA3,0x94,0x28,0x06,0xD8,0xA2,0x26,0x95,0xD7,0x71,0xB2,0x3C,0xFD,0x56,
  0x1C,0x4A,0x19,0xB6,0xA3,0xB0,0x26,0x00,0x36,0x5A,0x30,0x6E,0x3C,0x4D,0x63,0x38,
  0x1B,0xD4,0x1C,0x13,0x64,0x89,0x36,0x4C,0xF2,0xBA,0x2A,0x58,0xF4,0xFE,0xE1,0xFD,
  0xAC,0x7E,0x79]

/-- `bn_set` -/
def bnSet (src : List Byte) : List Byte := 0 :: src

def nbe : List Byte := bnSet nmod

def bnZero : List Byte := List.replicate blen 0

/-- `memcmp`: the order of the first bytes that differ. -/
def bnCmp : List Byte → List Byte → Ordering
  | x :: xs, y :: ys => if x = y then bnCmp xs ys else if x < y then .lt else .gt
  | _, _ => .eq

/-- The loop of `bn_sub`: the last borrow and the digits written so far. -/
def bnSubLoop : List Byte → List Byte → Int × List Byte
  | r :: rs, m :: ms =>
    let (borrow, ds) := bnSubLoop rs ms
    let v : Int := r.toNat - m.toNat - borrow
    (if v < 0 then 1 else 0, BitVec.ofInt 8 v :: ds)
  | _, _ => (0, [])

def bnSub (r m : List Byte) : List Byte := (bnSubLoop r m).2

/-- The loop of `bn_add`: the last carry and the digits written so far. -/
def bnAddLoop : List Byte → List Byte → Nat × List Byte
  | r :: rs, a :: as =>
    let (carry, ds) := bnAddLoop rs as
    let v := r.toNat + a.toNat + carry
    (v / 2 ^ 8, BitVec.ofNat 8 v :: ds)
  | _, _ => (0, [])

def bnAdd (r a : List Byte) : List Byte := (bnAddLoop r a).2

def bnAddmod (r a : List Byte) : List Byte :=
  let s := bnAdd r a
  if bnCmp s nbe ≠ .lt then bnSub s nbe else s

/-- `(x[byte] >> (bit & 7)) & 1` with `byte = BLEN - 1 - (bit >> 3)`. -/
def bnBit (x : List Byte) (bit : Nat) : Bool :=
  (x.getD (blen - 1 - bit / 8) 0 >>> (bit % 8)) &&& 1 != 0

/-- The loop of `bn_mulmod` and `bn_reduce` over the bits of `x` below `bits`: double, and
add `a` where the bit is set. -/
def bnShiftAdd (a x : List Byte) : Nat → List Byte → List Byte
  | 0, acc => acc
  | bit + 1, acc =>
    let acc := bnAddmod acc acc
    bnShiftAdd a x bit (if bnBit x bit then bnAddmod acc a else acc)

def bnMulmod (a b : List Byte) : List Byte := bnShiftAdd a b (klen * 8) bnZero

def bnOne : List Byte := List.replicate (blen - 1) 0 ++ [1]

def bnReduce (x : List Byte) : List Byte := bnShiftAdd bnOne x (klen * 8) bnZero

/-- The accumulator over `buf[i]`, ..., `buf[1]`: the bytes written and its last value. -/
def accumulate (buf : List Byte) : Nat → Nat → List Byte × Nat
  | 0, acc => ([], acc)
  | i + 1, acc =>
    let acc := (acc + (buf.getD (i + 1) 0).toNat) &&& 0xFF
    let (out, last) := accumulate buf i acc
    (BitVec.ofNat 8 acc :: out, last)

/-- `memcpy(buf, res + first, nbytes)` into the zeroed `buf`, where `first` counts the
leading zeros of `res`. -/
def leftAligned (res : List Byte) : List Byte :=
  let first := (res.takeWhile (· == 0)).length
  let nbytes := min (blen - first) klen
  (res.drop (blen - nbytes)).take nbytes ++ List.replicate (klen - nbytes) 0

def decryptBlock (enc : List Byte) (acc : Nat) : List Byte × Nat :=
  let blk := bnSet enc.reverse
  let r := bnReduce blk
  let t := bnMulmod r r
  let res := bnMulmod t r
  accumulate (leftAligned res) 50 acc

/-- The block loop of `lynx_decrypt_loader`. -/
def decryptBlocks : Nat → List Byte → Nat → List Byte
  | 0, _, _ => []
  | b + 1, e, acc =>
    let (out, acc) := decryptBlock (e.take klen) acc
    out ++ decryptBlocks b (e.drop klen) acc

/-- The value returned and the bytes written to `out`. -/
def lynxDecryptLoader (rom : List Byte) (outCap : Nat) : Int × List Byte :=
  match rom with
  | [] => (-1, [])
  | first :: e =>
    let blocks := (256 - first.toNat) &&& 0xFF
    if blocks < 1 ∨ blocks > 5 then (-1, [])
    else if 1 + blocks * klen > rom.length then (-1, [])
    else if outCap < blocks * 50 then (-1, [])
    else (blocks * 50, decryptBlocks blocks e 0)

end LynxRecomp

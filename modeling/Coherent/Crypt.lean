import Mathlib.Tactic
import Coherent.Lib.Feistel

/-!
`crypt`: the Data Encryption Standard of the library, with one bit to a `char`, and the password
that is made with it.

The right half of the key is taken to lie 56 bytes behind the left one, where the array `cd` ends:
what is rotated there is whatever the stack holds.
-/

namespace Coherent.Crypt

open Lib.Feistel

/-- Bits in a char. -/
def NBPC : ℕ := 8

/-- Input bits in a unit. -/
def NIB : ℕ := 64

/-- Number of key bits. -/
def NKB : ℕ := 64

/-- Number of used key bits. -/
def NUKB : ℕ := 56

/-- Number out from each key iteration. -/
def NOKB : ℕ := 48

/-- Number of iterations of S-functions. -/
def NITER : ℕ := 16

/-- Number of S-boxes. -/
def NSBOX : ℕ := 8

/-- Number in small character set. -/
def NSCSET : ℕ := 64

/-- Initial permutation of each 64 bit entity. -/
def IP : List ℕ := [
  57, 49, 41, 33, 25, 17, 9, 1,
  59, 51, 43, 35, 27, 19, 11, 3,
  61, 53, 45, 37, 29, 21, 13, 5,
  63, 55, 47, 39, 31, 23, 15, 7,
  56, 48, 40, 32, 24, 16, 8, 0,
  58, 50, 42, 34, 26, 18, 10, 2,
  60, 52, 44, 36, 28, 20, 12, 4,
  62, 54, 46, 38, 30, 22, 14, 6]

/-- Inverted initial permutation. -/
def IP1 : List ℕ := [
  39, 7, 47, 15, 55, 23, 63, 31,
  38, 6, 46, 14, 54, 22, 62, 30,
  37, 5, 45, 13, 53, 21, 61, 29,
  36, 4, 44, 12, 52, 20, 60, 28,
  35, 3, 43, 11, 51, 19, 59, 27,
  34, 2, 42, 10, 50, 18, 58, 26,
  33, 1, 41, 9, 49, 17, 57, 25,
  32, 0, 40, 8, 48, 16, 56, 24]

/-- The E bit-selection table, as it is saved. -/
def saveE : List ℕ := [
  31, 0, 1, 2, 3, 4,
  3, 4, 5, 6, 7, 8,
  7, 8, 9, 10, 11, 12,
  11, 12, 13, 14, 15, 16,
  15, 16, 17, 18, 19, 20,
  19, 20, 21, 22, 23, 24,
  23, 24, 25, 26, 27, 28,
  27, 28, 29, 30, 31, 0]

/-- Permutation of 32 bits onto 32 bits. -/
def P : List ℕ := [
  15, 6, 19, 20,
  28, 11, 27, 16,
  0, 14, 22, 25,
  4, 17, 30, 9,
  1, 7, 23, 13,
  31, 26, 2, 8,
  18, 12, 29, 5,
  21, 10, 3, 24]

/-- The S-boxes: each turns a 6-bit quantity into a four bit number. -/
def Sboxes : List (List (List ℕ)) := [
  [[14, 4, 13, 1, 2, 15, 11, 8, 3, 10, 6, 12, 5, 9, 0, 7],
    [0, 15, 7, 4, 14, 2, 13, 1, 10, 6, 12, 11, 9, 5, 3, 8],
    [4, 1, 14, 8, 13, 6, 2, 11, 15, 12, 9, 7, 3, 10, 5, 0],
    [15, 12, 8, 2, 4, 9, 1, 7, 5, 11, 3, 14, 10, 0, 6, 13]],
  [[15, 1, 8, 14, 6, 11, 3, 4, 9, 7, 2, 13, 12, 0, 5, 10],
    [3, 13, 4, 7, 15, 2, 8, 14, 12, 0, 1, 10, 6, 9, 11, 5],
    [0, 14, 7, 11, 10, 4, 13, 1, 5, 8, 12, 6, 9, 3, 2, 15],
    [13, 8, 10, 1, 3, 15, 4, 2, 11, 6, 7, 12, 0, 5, 14, 9]],
  [[10, 0, 9, 14, 6, 3, 15, 5, 1, 13, 12, 7, 11, 4, 2, 8],
    [13, 7, 0, 9, 3, 4, 6, 10, 2, 8, 5, 14, 12, 11, 15, 1],
    [13, 6, 4, 9, 8, 15, 3, 0, 11, 1, 2, 12, 5, 10, 14, 7],
    [1, 10, 13, 0, 6, 9, 8, 7, 4, 15, 14, 3, 11, 5, 2, 12]],
  [[7, 13, 14, 3, 0, 6, 9, 10, 1, 2, 8, 5, 11, 12, 4, 15],
    [13, 8, 11, 5, 6, 15, 0, 3, 4, 7, 2, 12, 1, 10, 14, 9],
    [10, 6, 9, 0, 12, 11, 7, 13, 15, 1, 3, 14, 5, 2, 8, 4],
    [3, 15, 0, 6, 10, 1, 13, 8, 9, 4, 5, 11, 12, 7, 2, 14]],
  [[2, 12, 4, 1, 7, 10, 11, 6, 8, 5, 3, 15, 13, 0, 14, 9],
    [14, 11, 2, 12, 4, 7, 13, 1, 5, 0, 15, 10, 3, 9, 8, 6],
    [4, 2, 1, 11, 10, 13, 7, 8, 15, 9, 12, 5, 6, 3, 0, 14],
    [11, 8, 12, 7, 1, 14, 2, 13, 6, 15, 0, 9, 10, 4, 5, 3]],
  [[12, 1, 10, 15, 9, 2, 6, 8, 0, 13, 3, 4, 14, 7, 5, 11],
    [10, 15, 4, 2, 7, 12, 9, 5, 6, 1, 13, 14, 0, 11, 3, 8],
    [9, 14, 15, 5, 2, 8, 12, 3, 7, 0, 4, 10, 1, 13, 11, 6],
    [4, 3, 2, 12, 9, 5, 15, 10, 11, 14, 1, 7, 6, 0, 8, 13]],
  [[4, 11, 2, 14, 15, 0, 8, 13, 3, 12, 9, 7, 5, 10, 6, 1],
    [13, 0, 11, 7, 4, 9, 1, 10, 14, 3, 5, 12, 2, 15, 8, 6],
    [1, 4, 11, 13, 12, 3, 7, 14, 10, 15, 6, 8, 0, 5, 9, 2],
    [6, 11, 13, 8, 1, 4, 10, 7, 9, 5, 0, 15, 14, 2, 3, 12]],
  [[13, 2, 8, 4, 6, 15, 11, 1, 10, 9, 3, 14, 5, 0, 12, 7],
    [1, 15, 13, 8, 10, 3, 7, 4, 12, 5, 6, 11, 0, 14, 9, 2],
    [7, 11, 4, 1, 9, 12, 14, 2, 0, 6, 10, 13, 15, 3, 5, 8],
    [2, 1, 14, 7, 4, 10, 8, 13, 15, 12, 9, 0, 3, 5, 6, 11]]]

/-- Permuted choice for the first iteration. -/
def PC1 : List ℕ := [
  56, 48, 40, 32, 24, 16, 8,
  0, 57, 49, 41, 33, 25, 17,
  9, 1, 58, 50, 42, 34, 26,
  18, 10, 2, 59, 51, 43, 35,
  62, 54, 46, 38, 30, 22, 14,
  6, 61, 53, 45, 37, 29, 21,
  13, 5, 60, 52, 44, 36, 28,
  20, 12, 4, 27, 19, 11, 3]

/-- Permuted choice for every iteration. -/
def PC2 : List ℕ := [
  13, 16, 10, 23, 0, 4,
  2, 27, 14, 5, 20, 9,
  22, 18, 11, 3, 25, 7,
  15, 6, 26, 19, 12, 1,
  40, 51, 30, 36, 46, 54,
  29, 39, 50, 44, 32, 47,
  43, 48, 38, 55, 33, 52,
  45, 41, 49, 35, 28, 31]

/-- Left shift table. -/
def shifts : List ℕ := [
  1, 1, 2, 2, 2, 2, 2, 2,
  1, 2, 2, 2, 2, 2, 2, 1]

/-- The small character set. -/
def maptab : List ℕ :=
  "abcdefghijklmnopqrstuvwxyzABCDEFGHIJKLMNOPQRSTUVWXYZ0123456789./".toList.map Char.toNat

/-- Incoming bits by a permutation table. -/
def permute (ibits ptab : List ℕ) : List ℕ := ptab.map fun k => ibits.getD k 0

/-- Modulo 2 addition of bit vectors. -/
def m2add (i1 i2 : List ℕ) : List ℕ := List.zipWith (· ^^^ ·) i1 i2

/-! ### The key -/

/-- The loop of `lrot` that moves the bytes from `bp` on, so many of them. -/
def shiftDown (mem : List ℕ) (bp : ℕ) : ℕ → List ℕ
  | 0 => mem
  | nb + 1 => shiftDown (mem.set bp (mem.getD (bp + 1) 0)) (bp + 1) nb

/-- One place of `lrot`. -/
def lrot1 (bits nbits : ℕ) (mem : List ℕ) : List ℕ :=
  (shiftDown mem bits (nbits - 1)).set (bits + (nbits - 1)) (mem.getD bits 0)

/-- Rotate left `nbits` bits from `bits` on by `ns` places. -/
def lrot (mem : List ℕ) (bits ns nbits : ℕ) : List ℕ := (lrot1 bits nbits)^[ns] mem

/-- `Ci` in the frame of `setkey`. -/
def Ci : ℕ := 0

/-- `Di`, where the array that `Ci` is in ends. -/
def Di : ℕ := NUKB

/-- A turn of the loop of `setkey`: the keys so far, and the memory from `cd` on. -/
def setkeyStep (s : List (List ℕ) × List ℕ) (ni : ℕ) : List (List ℕ) × List ℕ :=
  let mem := lrot s.2 Ci (shifts.getD ni 0) (NUKB / 2)
  let mem := lrot mem Di (shifts.getD ni 0) (NUKB / 2)
  (s.1 ++ [permute mem PC2], mem)

/-- `setkey`: the keys `Ki`, and the memory from `cd` on; `above` lies behind the array. -/
def setkey (key above : List ℕ) : List (List ℕ) × List ℕ :=
  (List.range NITER).foldl setkeyStep ([], permute key PC1 ++ above)

/-! ### The cypher -/

/-- The four bits that an S-box puts out, and what is left of `tempout`. -/
def outbits (tempout : ℕ) : ℕ → List ℕ × ℕ
  | 0 => ([], tempout)
  | n + 1 =>
    let r := outbits (tempout * 2 % 65536) n
    ((tempout >>> 3) % 2 :: r.1, r.2)

/-- The S-boxes from one on, over the bits that are left. -/
def boxes : List (List (List ℕ)) → ℕ → List ℕ → List ℕ
  | box :: rest, tempout, b0 :: b1 :: b2 :: b3 :: b4 :: b5 :: ibits =>
    let row := b0 * 2 ||| b5
    let col := ((b1 * 2 ||| b2) * 2 ||| b3) * 2 ||| b4
    let r := outbits ((tempout * 16 % 65536) ||| (box.getD row []).getD col 0) 4
    r.1 ++ boxes rest r.2 ibits
  | _, _, _ => []

def dosboxes (ibits : List ℕ) : List ℕ := boxes Sboxes 0 ibits

/-- The function of the right half in an iteration. -/
def f (E Ki right : List ℕ) : List ℕ := permute (dosboxes (m2add (permute right E) Ki)) P

/-- `cypher`, with the tables `E` and `Ki` as they are. -/
def cypher (E : List ℕ) (Ki : List (List ℕ)) (ibits : List ℕ) (edflag : Bool) : List ℕ :=
  let b := (List.range NITER).foldl (fun b n =>
    let i := if edflag then NITER - 1 - n else n
    (b.2, m2add (f E (Ki.getD i []) b.2) b.1)) (ibits.take (NIB / 2), ibits.drop (NIB / 2))
  b.2 ++ b.1

/-- `encrypt`: the block is encrypted, or decrypted where `edflag` is set. -/
def encrypt (E : List ℕ) (Ki : List (List ℕ)) (block : List ℕ) (edflag : Bool) : List ℕ :=
  permute (cypher E Ki (permute block IP) edflag) IP1

/-! ### Passwords -/

/-- Random numbers: the seed after a call of `rand`. -/
def nextSeed (seed : ℕ) : ℕ := (seed * 1664525 + 907633387) % 2 ^ 32

/-- What `rand` returns when it leaves a seed. -/
def rand (seed : ℕ) : ℕ := (seed >>> 17) % 32768

/-- The seed that `perturb` takes from a salt. -/
def salti (i1 i2 : ℕ) : ℕ :=
  (List.range NSCSET).foldl (fun salti k =>
    let salti := if i1 = maptab.getD k 0 then salti ||| (k <<< 1) else salti
    if i2 = maptab.getD k 0 then salti ||| (k <<< 9) else salti) (1 <<< 8 ||| 1)

/-- The loop of `perturb` over the entries of `saveE`. -/
def perturbLoop : ℕ → List ℕ → List ℕ
  | _, [] => []
  | seed, e :: l =>
    (e + (rand (nextSeed seed) >>> 6)) % (NIB / 2) :: perturbLoop (nextSeed seed) l

/-- `perturb`: the table `E` for a salt. -/
def perturb (i1 i2 : ℕ) : List ℕ := perturbLoop (salti i1 i2) saveE

/-- The loop of `unpack`, from bit `i` down: `bp` is the byte that `byte` came from. -/
def unpackLoop : ℕ → ℕ → ℕ → List ℕ → List ℕ
  | 0, _, _, mem => mem
  | i + 1, bp, byte, mem =>
    let bp' := if (i + 1) % NBPC = 0 then bp - 1 else bp
    let byte' := if (i + 1) % NBPC = 0 then mem.getD (bp - 1) 0 else byte
    unpackLoop i bp' (byte' / 2) (mem.set i (byte' % 2))

/-- `unpack`: the bits of bytes, in place of them. -/
def unpack (bytes : List ℕ) (nbits : ℕ) : List ℕ :=
  unpackLoop nbits ((nbits + NBPC - 1) / NBPC) 0 bytes

/-- `bkey`: the characters of the key in front of a null, and nulls; behind them what is there. -/
def bkey (key mem : List ℕ) : List ℕ :=
  let chars := (key.takeWhile (· ≠ 0)).take (NKB / NBPC)
  chars ++ List.replicate (NKB / NBPC - chars.length) 0 ++ mem

/-- The word `Password`, which is encrypted. -/
def word : List ℕ := [80, 97, 115, 115, 119, 111, 114, 100]

/-- `stuff` before it is unpacked. -/
def stuff (mem : List ℕ) : List ℕ := word ++ mem

/-- The characters for the bits from bit `i` on, six to a character. -/
def sixbits : ℕ → ℕ → List ℕ → List ℕ
  | _, sixbit, [] => [maptab.getD sixbit 0]
  | i, sixbit, b :: l =>
    if i % 6 = 6 - 1 then maptab.getD (sixbit * 2 + b) 0 :: sixbits (i + 1) 0 l
    else sixbits (i + 1) (sixbit * 2 + b) l

/-- `crypt`: the password for a key and a salt; `mem` is behind the eight bytes of either array
that is unpacked, `above` behind the array of `setkey`. -/
def crypt (key : List ℕ) (salt : ℕ × ℕ) (mem above : List ℕ) : List ℕ :=
  let E := perturb salt.1 salt.2
  let Ki := (setkey (unpack (bkey key mem) NKB) above).1
  [salt.1, salt.2] ++ sixbits 0 0 (encrypt E Ki (unpack (stuff mem) NIB) false)

end Coherent.Crypt

import Mathlib.Algebra.Group.Nat.Defs
import ShadowFs.Hash.Md5

/-!
# The digest by the standard

The definition of MD5 as the standard gives it, next to the one of `md5.h`.  The message is
padded to whole blocks of 64 bytes; each block is mixed into four registers by four rounds
of sixteen operations.  An operation `⟨.dabc, k, s, t⟩` sets the register named first from
all four, the message word `k` and the constant `t`, rotated by `s`.

`md5.h` runs one loop of 64 steps instead.  It computes the word index, and shifts the
registers on after each step, so that the one to be set is always `a`.  `Order.view` is the
correspondence between the two: the registers as the loop holds them when an operation with
this order is due.
-/

namespace ShadowFs

open CLib

namespace Md5
namespace Standard

/-!
## The definition
-/

def mixF (x y z : UInt32) : UInt32 := (x &&& y) ||| (~~~x &&& z)

def mixG (x y z : UInt32) : UInt32 := (x &&& z) ||| (y &&& ~~~z)

def mixH (x y z : UInt32) : UInt32 := x ^^^ y ^^^ z

def mixI (x y z : UInt32) : UInt32 := y ^^^ (x ||| ~~~z)

/-- The order in which an operation names the registers. -/
inductive Order where
  | abcd
  | dabc
  | cdab
  | bcda
deriving DecidableEq, Repr

structure Operation where
  order : Order
  word : Nat
  shift : UInt32
  constant : UInt32
deriving DecidableEq

def roundOne : List Operation :=
  [⟨.abcd, 0, 7, 0xd76aa478⟩, ⟨.dabc, 1, 12, 0xe8c7b756⟩,
    ⟨.cdab, 2, 17, 0x242070db⟩, ⟨.bcda, 3, 22, 0xc1bdceee⟩,
    ⟨.abcd, 4, 7, 0xf57c0faf⟩, ⟨.dabc, 5, 12, 0x4787c62a⟩,
    ⟨.cdab, 6, 17, 0xa8304613⟩, ⟨.bcda, 7, 22, 0xfd469501⟩,
    ⟨.abcd, 8, 7, 0x698098d8⟩, ⟨.dabc, 9, 12, 0x8b44f7af⟩,
    ⟨.cdab, 10, 17, 0xffff5bb1⟩, ⟨.bcda, 11, 22, 0x895cd7be⟩,
    ⟨.abcd, 12, 7, 0x6b901122⟩, ⟨.dabc, 13, 12, 0xfd987193⟩,
    ⟨.cdab, 14, 17, 0xa679438e⟩, ⟨.bcda, 15, 22, 0x49b40821⟩]

def roundTwo : List Operation :=
  [⟨.abcd, 1, 5, 0xf61e2562⟩, ⟨.dabc, 6, 9, 0xc040b340⟩,
    ⟨.cdab, 11, 14, 0x265e5a51⟩, ⟨.bcda, 0, 20, 0xe9b6c7aa⟩,
    ⟨.abcd, 5, 5, 0xd62f105d⟩, ⟨.dabc, 10, 9, 0x02441453⟩,
    ⟨.cdab, 15, 14, 0xd8a1e681⟩, ⟨.bcda, 4, 20, 0xe7d3fbc8⟩,
    ⟨.abcd, 9, 5, 0x21e1cde6⟩, ⟨.dabc, 14, 9, 0xc33707d6⟩,
    ⟨.cdab, 3, 14, 0xf4d50d87⟩, ⟨.bcda, 8, 20, 0x455a14ed⟩,
    ⟨.abcd, 13, 5, 0xa9e3e905⟩, ⟨.dabc, 2, 9, 0xfcefa3f8⟩,
    ⟨.cdab, 7, 14, 0x676f02d9⟩, ⟨.bcda, 12, 20, 0x8d2a4c8a⟩]

def roundThree : List Operation :=
  [⟨.abcd, 5, 4, 0xfffa3942⟩, ⟨.dabc, 8, 11, 0x8771f681⟩,
    ⟨.cdab, 11, 16, 0x6d9d6122⟩, ⟨.bcda, 14, 23, 0xfde5380c⟩,
    ⟨.abcd, 1, 4, 0xa4beea44⟩, ⟨.dabc, 4, 11, 0x4bdecfa9⟩,
    ⟨.cdab, 7, 16, 0xf6bb4b60⟩, ⟨.bcda, 10, 23, 0xbebfbc70⟩,
    ⟨.abcd, 13, 4, 0x289b7ec6⟩, ⟨.dabc, 0, 11, 0xeaa127fa⟩,
    ⟨.cdab, 3, 16, 0xd4ef3085⟩, ⟨.bcda, 6, 23, 0x04881d05⟩,
    ⟨.abcd, 9, 4, 0xd9d4d039⟩, ⟨.dabc, 12, 11, 0xe6db99e5⟩,
    ⟨.cdab, 15, 16, 0x1fa27cf8⟩, ⟨.bcda, 2, 23, 0xc4ac5665⟩]

def roundFour : List Operation :=
  [⟨.abcd, 0, 6, 0xf4292244⟩, ⟨.dabc, 7, 10, 0x432aff97⟩,
    ⟨.cdab, 14, 15, 0xab9423a7⟩, ⟨.bcda, 5, 21, 0xfc93a039⟩,
    ⟨.abcd, 12, 6, 0x655b59c3⟩, ⟨.dabc, 3, 10, 0x8f0ccc92⟩,
    ⟨.cdab, 10, 15, 0xffeff47d⟩, ⟨.bcda, 1, 21, 0x85845dd1⟩,
    ⟨.abcd, 8, 6, 0x6fa87e4f⟩, ⟨.dabc, 15, 10, 0xfe2ce6e0⟩,
    ⟨.cdab, 6, 15, 0xa3014314⟩, ⟨.bcda, 13, 21, 0x4e0811a1⟩,
    ⟨.abcd, 4, 6, 0xf7537e82⟩, ⟨.dabc, 11, 10, 0xbd3af235⟩,
    ⟨.cdab, 2, 15, 0x2ad7d2bb⟩, ⟨.bcda, 9, 21, 0xeb86d391⟩]

/-- `x <<< s`: the word shifted around by `s` bits. -/
def rotate (x s : UInt32) : UInt32 :=
  UInt32.ofBitVec (x.toBitVec.rotateLeft s.toNat)

/-- `b + ((a + mix(b, c, d) + x + t) <<< s)`, the new value of the first register. -/
def operation (mix : UInt32 -> UInt32 -> UInt32 -> UInt32) (a b c d x s t : UInt32) :
    UInt32 :=
  b + rotate (a + mix b c d + x + t) s

/-- One operation, with the message words `x`. -/
def perform (mix : UInt32 -> UInt32 -> UInt32 -> UInt32) (x : Nat -> UInt32)
    (v : Registers) (op : Operation) : Registers :=
  match op.order with
  | .abcd => { v with a := operation mix v.a v.b v.c v.d (x op.word) op.shift op.constant }
  | .dabc => { v with d := operation mix v.d v.a v.b v.c (x op.word) op.shift op.constant }
  | .cdab => { v with c := operation mix v.c v.d v.a v.b (x op.word) op.shift op.constant }
  | .bcda => { v with b := operation mix v.b v.c v.d v.a (x op.word) op.shift op.constant }

def rounds (x : Nat -> UInt32) (v : Registers) : Registers :=
  let v := roundOne.foldl (perform mixF x) v
  let v := roundTwo.foldl (perform mixG x) v
  let v := roundThree.foldl (perform mixH x) v
  roundFour.foldl (perform mixI x) v

/-- The `j`-th word of a block, low-order byte first. -/
def word (bytes : List Byte) (j : Nat) : UInt32 :=
  UInt32.ofNat ((bytes.getD (4 * j) 0).toNat + 2 ^ 8 * (bytes.getD (4 * j + 1) 0).toNat +
    2 ^ 16 * (bytes.getD (4 * j + 2) 0).toNat + 2 ^ 24 * (bytes.getD (4 * j + 3) 0).toNat)

def compress (v : Registers) (bytes : List Byte) : Registers :=
  let s := rounds (word bytes) v
  { a := v.a + s.a, b := v.b + s.b, c := v.c + s.c, d := v.d + s.d }

/-- A number in `n` bytes, low-order byte first. -/
def lowFirst (n value : Nat) : List Byte :=
  (List.range n).map (fun j => UInt8.ofNat (value / 256 ^ j))

/-- The message, a one bit, zero bits up to 8 bytes before the end of a block, and the
length in bits. -/
def pad (message : List Byte) : List Byte :=
  message ++ [(0x80 : Byte)] ++ List.replicate ((119 - message.length % 64) % 64) (0 : Byte) ++
    lowFirst 8 (8 * message.length)

def blocks (bytes : List Byte) : List (List Byte) :=
  (List.range (bytes.length / 64)).map (fun j => (bytes.drop (64 * j)).take 64)

def digest (message : List Byte) : List Byte :=
  let v := (blocks (pad message)).foldl compress
    { a := 0x67452301, b := 0xefcdab89, c := 0x98badcfe, d := 0x10325476 }
  lowFirst 4 v.a.toNat ++ lowFirst 4 v.b.toNat ++ lowFirst 4 v.c.toNat ++
    lowFirst 4 v.d.toNat

/-!
## The steps of a block
-/

/-- The registers as the loop holds them when an operation with this order is due. -/
def Order.view : Order -> Registers -> Registers
  | .abcd, v => v
  | .dabc, v => { a := v.d, b := v.a, c := v.b, d := v.c }
  | .cdab, v => { a := v.c, b := v.d, c := v.a, d := v.b }
  | .bcda, v => { a := v.b, b := v.c, c := v.d, d := v.a }

def Order.next : Order -> Order
  | .abcd => .dabc
  | .dabc => .cdab
  | .cdab => .bcda
  | .bcda => .abcd

/-- One step of the loop: the registers move on by one. -/
def advance (mix : UInt32 -> UInt32 -> UInt32 -> UInt32) (x s t : UInt32) (v : Registers) :
    Registers :=
  { a := v.d, b := operation mix v.a v.b v.c v.d x s t, c := v.b, d := v.c }

theorem view_perform (mix : UInt32 -> UInt32 -> UInt32 -> UInt32) (x : Nat -> UInt32)
    (v : Registers) (op : Operation) :
    op.order.next.view (perform mix x v op) =
      advance mix (x op.word) op.shift op.constant (op.order.view v) := by
  rcases op with ⟨order, k, s, t⟩
  cases order <;> rfl

/-- `n` operations from step `i` on, with the word index and the tables of the loop. -/
def operationsFrom (wordIndex : Nat -> Nat) : Order -> Nat -> Nat -> List Operation
  | _, _, 0 => []
  | o, i, n + 1 =>
      ⟨o, wordIndex i, r.getD i 0, k.getD i 0⟩ :: operationsFrom wordIndex o.next (i + 1) n

theorem foldl_step {mix : UInt32 -> UInt32 -> UInt32 -> UInt32} {wordIndex : Nat -> Nat}
    {w : List UInt32} {x : Nat -> UInt32} {i n : Nat} (o : Order) (v : Registers)
    (hstep : forall j s, i ≤ j -> j < i + n ->
      step w s j = advance mix (x (wordIndex j)) (r.getD j 0) (k.getD j 0) s) :
    (List.range' i n).foldl (step w) (o.view v) =
      (Order.next^[n] o).view ((operationsFrom wordIndex o i n).foldl (perform mix x) v) := by
  induction n generalizing o i v with
  | zero => rfl
  | succ n ih =>
      have hfirst := hstep i (o.view v) (Nat.le_refl i) (by lia)
      have hview := view_perform mix x v ⟨o, wordIndex i, r.getD i 0, k.getD i 0⟩
      rw [List.range'_succ, List.foldl_cons, hfirst, ← hview, operationsFrom, List.foldl_cons,
        Function.iterate_succ_apply]
      exact ih o.next _ (fun j s hj hlt => hstep j s (by lia) (by lia))

theorem view_abcd (v : Registers) : Order.abcd.view v = v := rfl

/-- After sixteen steps the registers are back in their order. -/
theorem foldl_step_sixteen {mix : UInt32 -> UInt32 -> UInt32 -> UInt32}
    {wordIndex : Nat -> Nat} {w : List UInt32} {x : Nat -> UInt32} (i : Nat)
    (hstep : forall j s, i ≤ j -> j < i + 16 ->
      step w s j = advance mix (x (wordIndex j)) (r.getD j 0) (k.getD j 0) s)
    (v : Registers) :
    (List.range' i 16).foldl (step w) v =
      (operationsFrom wordIndex .abcd i 16).foldl (perform mix x) v := by
  have hcycle : Order.next^[16] .abcd = .abcd := rfl
  have h := foldl_step .abcd v hstep
  rw [hcycle, view_abcd, view_abcd] at h
  exact h

/-- The two shifts of the code are the rotation, also by 0 and by 32 and more. -/
theorem leftRotate_eq_rotate (x s : UInt32) : leftRotate x s = rotate x s := by
  have hs := s.toNat_lt
  have hwidth : (32 : UInt32).toNat = 32 := rfl
  have hdown : (32 - s).toNat % 32 = (32 - s.toNat % 32) % 32 := by
    rw [UInt32.toNat_sub, hwidth]
    lia
  have hrotate : (rotate x s).toNat = (x.toBitVec <<< (s.toNat % 32)).toNat |||
      (x.toBitVec >>> (32 - s.toNat % 32)).toNat := by
    rw [← BitVec.toNat_or]
    rfl
  apply UInt32.toNat_inj.mp
  rw [hrotate, leftRotate, UInt32.toNat_or, UInt32.toNat_shiftLeft, UInt32.toNat_shiftRight,
    hdown, BitVec.toNat_shiftLeft, BitVec.toNat_ushiftRight, UInt32.toNat_toBitVec]
  by_cases hzero : s.toNat % 32 = 0
  · have hx : x.toNat >>> 32 = 0 := by
      rw [Nat.shiftRight_eq_div_pow]
      exact Nat.div_eq_of_lt x.toNat_lt
    rw [hzero, Nat.sub_zero, Nat.mod_self, Nat.shiftLeft_zero, Nat.shiftRight_zero, hx,
      Nat.or_zero, Nat.mod_eq_of_lt x.toNat_lt, Nat.or_self]
  · rw [Nat.mod_eq_of_lt (by lia : 32 - s.toNat % 32 < 32)]

theorem operation_eq (mix : UInt32 -> UInt32 -> UInt32 -> UInt32) (a b c d x s t : UInt32) :
    operation mix a b c d x s t = b + leftRotate (a + mix b c d + t + x) s := by
  rw [leftRotate_eq_rotate, operation, UInt32.add_assoc (a + mix b c d) x t, UInt32.add_comm x t,
    ← UInt32.add_assoc (a + mix b c d) t x]

def wordIndex (i : Nat) : Nat :=
  if i < 16 then i
  else if i < 32 then (5 * i + 1) % 16
  else if i < 48 then (3 * i + 5) % 16
  else (7 * i) % 16

theorem wordIndex_lt (i : Nat) : wordIndex i < 16 := by
  unfold wordIndex
  split
  · assumption
  · split
    · exact Nat.mod_lt _ (by decide)
    · split <;> exact Nat.mod_lt _ (by decide)

section Steps

variable {w : List UInt32} {x : Nat -> UInt32} (hx : forall j, j < 16 -> w.getD j 0 = x j)

include hx

theorem step_roundOne {i : Nat} (s : Registers) (hi : i < 16) :
    step w s i = advance mixF (x (wordIndex i)) (r.getD i 0) (k.getD i 0) s := by
  rw [advance, operation_eq, ← hx _ (wordIndex_lt i)]
  simp only [step, wordIndex, mixF, if_pos hi]

theorem step_roundTwo {i : Nat} (s : Registers) (hlow : 16 ≤ i) (hi : i < 32) :
    step w s i = advance mixG (x (wordIndex i)) (r.getD i 0) (k.getD i 0) s := by
  rw [advance, operation_eq, ← hx _ (wordIndex_lt i)]
  simp only [step, wordIndex, mixG, if_neg (Nat.not_lt.mpr hlow), if_pos hi,
    UInt32.and_comm s.d s.b, UInt32.and_comm (~~~s.d) s.c]

theorem step_roundThree {i : Nat} (s : Registers) (hlow : 32 ≤ i) (hi : i < 48) :
    step w s i = advance mixH (x (wordIndex i)) (r.getD i 0) (k.getD i 0) s := by
  have hone : ¬ i < 16 := by lia
  rw [advance, operation_eq, ← hx _ (wordIndex_lt i)]
  simp only [step, wordIndex, mixH, if_neg hone, if_neg (Nat.not_lt.mpr hlow), if_pos hi]

theorem step_roundFour {i : Nat} (s : Registers) (hlow : 48 ≤ i) :
    step w s i = advance mixI (x (wordIndex i)) (r.getD i 0) (k.getD i 0) s := by
  have hone : ¬ i < 16 := by lia
  have htwo : ¬ i < 32 := by lia
  rw [advance, operation_eq, ← hx _ (wordIndex_lt i)]
  simp only [step, wordIndex, mixI, if_neg hone, if_neg htwo, if_neg (Nat.not_lt.mpr hlow)]

theorem foldl_step_eq_rounds (v : Registers) :
    (List.range 64).foldl (step w) v = rounds x v := by
  have hsplit : List.range 64 =
      List.range' 0 16 ++ List.range' 16 16 ++ List.range' 32 16 ++ List.range' 48 16 := by
    decide
  have hone : operationsFrom wordIndex .abcd 0 16 = roundOne := by decide
  have htwo : operationsFrom wordIndex .abcd 16 16 = roundTwo := by decide
  have hthree : operationsFrom wordIndex .abcd 32 16 = roundThree := by decide
  have hfour : operationsFrom wordIndex .abcd 48 16 = roundFour := by decide
  rw [hsplit, List.foldl_append, List.foldl_append, List.foldl_append,
    foldl_step_sixteen 0 (fun j s _ hj => step_roundOne hx s (by lia)),
    foldl_step_sixteen 16 (fun j s hlow hj => step_roundTwo hx s hlow (by lia)),
    foldl_step_sixteen 32 (fun j s hlow hj => step_roundThree hx s hlow (by lia)),
    foldl_step_sixteen 48 (fun j s hlow _ => step_roundFour hx s hlow),
    hone, htwo, hthree, hfour, rounds]

end Steps

/-!
## Words and bytes
-/

/-- A byte that is shifted beyond a number is added to it. -/
theorem or_shiftLeft {n : Nat} {y : UInt32} (hy : y.toNat < 2 ^ n) (hn : n ≤ 24) (b : Byte) :
    (y ||| (b.toUInt32 <<< UInt32.ofNat n)).toNat = y.toNat + 2 ^ n * b.toNat := by
  have hb := b.toNat_lt
  have hpow : 2 ^ n ≤ 2 ^ 24 := Nat.pow_le_pow_right (by decide) hn
  have hshift : (b.toUInt32 <<< UInt32.ofNat n).toNat = 2 ^ n * b.toNat := by
    rw [UInt32.toNat_shiftLeft, UInt32.toNat_ofNat', UInt8.toNat_toUInt32, Nat.shiftLeft_eq]
    have hn' : n % 2 ^ 32 % 32 = n := by lia
    rw [hn', Nat.mul_comm, Nat.mod_eq_of_lt]
    calc 2 ^ n * b.toNat ≤ 2 ^ 24 * b.toNat := Nat.mul_le_mul_right _ hpow
      _ < 2 ^ 32 := by lia
  rw [UInt32.toNat_or, hshift, Nat.or_comm, ← Nat.two_pow_add_eq_or_of_lt hy, Nat.add_comm]

theorem toInt32_toNat (bytes : List Byte) :
    (toInt32 bytes).toNat = (bytes.getD 0 0).toNat + 2 ^ 8 * (bytes.getD 1 0).toNat +
      2 ^ 16 * (bytes.getD 2 0).toNat + 2 ^ 24 * (bytes.getD 3 0).toNat := by
  have h0 := (bytes.getD 0 0).toNat_lt
  have h1 := (bytes.getD 1 0).toNat_lt
  have h2 := (bytes.getD 2 0).toNat_lt
  have hfirst : ((bytes.getD 0 0).toUInt32).toNat = (bytes.getD 0 0).toNat :=
    UInt8.toNat_toUInt32 _
  have hsecond := or_shiftLeft (n := 8) (by rw [hfirst]; lia) (by decide) (bytes.getD 1 0)
  have hthird := or_shiftLeft (n := 16) (by rw [hsecond, hfirst]; lia) (by decide)
    (bytes.getD 2 0)
  have hfourth := or_shiftLeft (n := 24) (by rw [hthird, hsecond, hfirst]; lia) (by decide)
    (bytes.getD 3 0)
  rw [hthird, hsecond, hfirst] at hfourth
  exact hfourth

theorem toInt32_eq_word (msg : List Byte) (offset : Nat) {j : Nat} (hj : j < 16) :
    toInt32 (msg.drop (offset + j * 4)) = word ((msg.drop offset).take 64) j := by
  have hat : forall t, t < 4 -> (msg.drop (offset + j * 4)).getD t 0 =
      ((msg.drop offset).take 64).getD (4 * j + t) 0 := by
    intro t ht
    rw [List.getD_eq_getElem?_getD, List.getD_eq_getElem?_getD, List.getElem?_drop,
      List.getElem?_take_of_lt (by lia), List.getElem?_drop]
    congr 2
    lia
  apply UInt32.toNat_inj.mp
  rw [toInt32_toNat, hat 0 (by decide), hat 1 (by decide), hat 2 (by decide),
    hat 3 (by decide), word, UInt32.toNat_ofNat', Nat.mod_eq_of_lt]
  · rfl
  · have h0 := (((msg.drop offset).take 64).getD (4 * j) 0).toNat_lt
    have h1 := (((msg.drop offset).take 64).getD (4 * j + 1) 0).toNat_lt
    have h2 := (((msg.drop offset).take 64).getD (4 * j + 2) 0).toNat_lt
    have h3 := (((msg.drop offset).take 64).getD (4 * j + 3) 0).toNat_lt
    lia

theorem toBytes_eq_lowFirst (v : UInt32) : toBytes v = lowFirst 4 v.toNat := by
  have hbyte : forall n, n < 32 ->
      (v >>> UInt32.ofNat n).toUInt8 = UInt8.ofNat (v.toNat / 2 ^ n) := by
    intro n hn
    have hn' : n % 2 ^ 32 % 32 = n := by lia
    apply UInt8.toNat_inj.mp
    rw [UInt32.toNat_toUInt8, UInt32.toNat_shiftRight, UInt32.toNat_ofNat', UInt8.toNat_ofNat',
      Nat.shiftRight_eq_div_pow, hn']
  have hfirst : v.toUInt8 = UInt8.ofNat (v.toNat / 256 ^ 0) := by
    apply UInt8.toNat_inj.mp
    rw [UInt32.toNat_toUInt8, UInt8.toNat_ofNat', Nat.pow_zero, Nat.div_one]
  have h8 := hbyte 8 (by decide)
  have h16 := hbyte 16 (by decide)
  have h24 := hbyte 24 (by decide)
  have hpow : 256 ^ 1 = 2 ^ 8 ∧ 256 ^ 2 = 2 ^ 16 ∧ 256 ^ 3 = 2 ^ 24 := by decide
  have hrange : List.range 4 = [0, 1, 2, 3] := by decide
  rw [lowFirst, hrange, List.map_cons, List.map_cons, List.map_cons, List.map_cons,
    List.map_nil, hpow.1, hpow.2.1, hpow.2.2, ← h8, ← h16, ← h24, ← hfirst]
  rfl

/-!
## Padding
-/

theorem newLenLoop_eq (fuel n : Nat) (hfuel : (120 - n % 64) % 64 ≤ fuel) :
    newLenLoop fuel n = n + (120 - n % 64) % 64 := by
  induction fuel generalizing n with
  | zero =>
      rw [Nat.le_zero.mp hfuel]
      rfl
  | succ fuel ih =>
      rw [newLenLoop]
      split
      · rename_i hmore
        rw [ih (n + 1) (by omega)]
        omega
      · rename_i hdone
        omega

theorem paddedLen_eq (n : Nat) : paddedLen n = n + 1 + (119 - n % 64) % 64 := by
  rw [paddedLen, newLenLoop_eq 64 (n + 1) (by omega)]
  omega

theorem lowFirst_mod (v : Nat) : lowFirst 4 (v % 2 ^ 32) = lowFirst 4 v := by
  apply List.map_congr_left
  intro j hj
  rw [List.mem_range] at hj
  apply UInt8.toNat_inj.mp
  rw [UInt8.toNat_ofNat', UInt8.toNat_ofNat']
  have hcases : j = 0 ∨ j = 1 ∨ j = 2 ∨ j = 3 := by omega
  rcases hcases with rfl | rfl | rfl | rfl <;> omega

theorem lowFirst_eight (v : Nat) : lowFirst 8 v = lowFirst 4 v ++ lowFirst 4 (v / 2 ^ 32) := by
  have hrange : List.range 8 = List.range 4 ++ (List.range 4).map (fun j => 4 + j) := by decide
  have hpow : 2 ^ 32 = 256 ^ 4 := by decide
  rw [lowFirst, hrange, List.map_append, List.map_map, lowFirst, lowFirst]
  congr 1
  apply List.map_congr_left
  intro j _
  rw [Function.comp_apply, hpow, Nat.div_div_eq_div_mul, Nat.pow_add]

theorem paddedMessage_eq_pad (message : List Byte) : paddedMessage message = pad message := by
  have hzeros : paddedLen message.length - (message.length + 1) =
      (119 - message.length % 64) % 64 := by
    rw [paddedLen_eq]
    lia
  have hlow : toBytes (UInt32.ofNat (message.length * 8)) = lowFirst 4 (8 * message.length) := by
    rw [toBytes_eq_lowFirst, UInt32.toNat_ofNat', lowFirst_mod, Nat.mul_comm]
  have hhigh : toBytes (UInt32.ofNat (message.length >>> 29)) =
      lowFirst 4 (8 * message.length / 2 ^ 32) := by
    have hshift : message.length >>> 29 = 8 * message.length / 2 ^ 32 := by
      rw [Nat.shiftRight_eq_div_pow]
      lia
    rw [toBytes_eq_lowFirst, UInt32.toNat_ofNat', lowFirst_mod, hshift]
  rw [paddedMessage, hzeros, hlow, hhigh, pad, lowFirst_eight, ← List.append_assoc]

theorem pad_length (message : List Byte) :
    exists m, (pad message).length = 64 * m ∧ paddedLen message.length + 8 = 64 * m := by
  have hlen : (pad message).length = paddedLen message.length + 8 := by
    rw [paddedLen_eq]
    simp only [pad, lowFirst, List.length_append, List.length_replicate, List.length_map,
      List.length_range, List.length_singleton]
  obtain ⟨m, hm⟩ : 64 ∣ paddedLen message.length + 8 := by
    rw [paddedLen_eq]
    omega
  exact ⟨m, hlen.trans hm, hm⟩

/-!
## Blocks
-/

theorem block_eq_compress (msg : List Byte) (offset : Nat) (h : Registers) :
    block msg offset h = compress h ((msg.drop offset).take 64) := by
  have hwords : forall j, j < 16 ->
      ((List.range 16).map (fun i => toInt32 (msg.drop (offset + i * 4)))).getD j 0 =
        word ((msg.drop offset).take 64) j := by
    intro j hj
    rw [← toInt32_eq_word msg offset hj, List.getD_eq_getElem?_getD, List.getElem?_map,
      List.getElem?_range hj]
    rfl
  simp only [block, compress, foldl_step_eq_rounds hwords]

/-- The block loop from block `j` on, with `n` blocks to come: the loop ends 8 bytes before
the end of the last block, which is inside it. -/
theorem blockLoop_eq (msg : List Byte) {newLen j n fuel : Nat}
    (hlen : newLen + 8 = 64 * (j + n)) (hfuel : n ≤ fuel) (h : Registers) :
    blockLoop msg newLen fuel (64 * j) h =
      ((List.range' j n).map (fun i => (msg.drop (64 * i)).take 64)).foldl compress h := by
  induction n generalizing j fuel h with
  | zero =>
      cases fuel with
      | zero => rfl
      | succ fuel =>
          have hend : ¬ 64 * j < newLen := by lia
          rw [blockLoop, if_neg hend]
          rfl
  | succ n ih =>
      cases fuel with
      | zero => cases hfuel
      | succ fuel =>
          have hmore : 64 * j < newLen := by lia
          have hnext : 64 * j + 512 / 8 = 64 * (j + 1) := by lia
          rw [blockLoop, if_pos hmore, hnext, ih (by lia) (Nat.le_of_succ_le_succ hfuel),
            List.range'_succ, List.map_cons, List.foldl_cons, block_eq_compress]

/-- `md5` computes the digest of the standard, for messages of any length. -/
theorem md5_eq_digest (message : List Byte) : md5 message = digest message := by
  rcases pad_length message with ⟨m, hpad, hlen⟩
  have hblocks : blocks (pad message) =
      (List.range' 0 m).map (fun i => ((pad message).drop (64 * i)).take 64) := by
    rw [blocks, hpad, Nat.mul_div_cancel_left m (by decide), List.range_eq_range']
  have hloop : blockLoop (pad message) (paddedLen message.length) (paddedLen message.length)
      (64 * 0) initialRegisters = (blocks (pad message)).foldl compress initialRegisters := by
    rw [hblocks]
    exact blockLoop_eq (pad message) (by lia) (by lia) initialRegisters
  rw [Nat.mul_zero] at hloop
  simp only [md5, paddedMessage_eq_pad, hloop, toBytes_eq_lowFirst, digest]
  rfl

end Standard
end Md5

end ShadowFs

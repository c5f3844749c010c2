import ShadowFs.CLib.CString

/-!
# `md5.h`

The digest of a byte string and its hexadecimal text.  `uint32_t` is `UInt32`,
whose operations wrap as those of C do; lengths are of type `size_t` and are
narrowed to 32 bits where the code passes them to `to_bytes`.
-/

namespace ShadowFs

open CLib

namespace Md5

/-- Constants are the integer part of the sines of integers (in radians) * 2^32. -/
def k : List UInt32 :=
  [0xd76aa478, 0xe8c7b756, 0x242070db, 0xc1bdceee,
    0xf57c0faf, 0x4787c62a, 0xa8304613, 0xfd469501,
    0x698098d8, 0x8b44f7af, 0xffff5bb1, 0x895cd7be,
    0x6b901122, 0xfd987193, 0xa679438e, 0x49b40821,
    0xf61e2562, 0xc040b340, 0x265e5a51, 0xe9b6c7aa,
    0xd62f105d, 0x02441453, 0xd8a1e681, 0xe7d3fbc8,
    0x21e1cde6, 0xc33707d6, 0xf4d50d87, 0x455a14ed,
    0xa9e3e905, 0xfcefa3f8, 0x676f02d9, 0x8d2a4c8a,
    0xfffa3942, 0x8771f681, 0x6d9d6122, 0xfde5380c,
    0xa4beea44, 0x4bdecfa9, 0xf6bb4b60, 0xbebfbc70,
    0x289b7ec6, 0xeaa127fa, 0xd4ef3085, 0x04881d05,
    0xd9d4d039, 0xe6db99e5, 0x1fa27cf8, 0xc4ac5665,
    0xf4292244, 0x432aff97, 0xab9423a7, 0xfc93a039,
    0x655b59c3, 0x8f0ccc92, 0xffeff47d, 0x85845dd1,
    0x6fa87e4f, 0xfe2ce6e0, 0xa3014314, 0x4e0811a1,
    0xf7537e82, 0xbd3af235, 0x2ad7d2bb, 0xeb86d391]

/-- The per-round shift amounts. -/
def r : List UInt32 :=
  [7, 12, 17, 22, 7, 12, 17, 22, 7, 12, 17, 22, 7, 12, 17, 22,
    5, 9, 14, 20, 5, 9, 14, 20, 5, 9, 14, 20, 5, 9, 14, 20,
    4, 11, 16, 23, 4, 11, 16, 23, 4, 11, 16, 23, 4, 11, 16, 23,
    6, 10, 15, 21, 6, 10, 15, 21, 6, 10, 15, 21, 6, 10, 15, 21]

def leftRotate (x c : UInt32) : UInt32 :=
  (x <<< c) ||| (x >>> (32 - c))

def toBytes (val : UInt32) : List Byte :=
  [val.toUInt8, (val >>> 8).toUInt8, (val >>> 16).toUInt8, (val >>> 24).toUInt8]

def toInt32 (bytes : List Byte) : UInt32 :=
  (bytes.getD 0 0).toUInt32 |||
    ((bytes.getD 1 0).toUInt32 <<< 8) |||
    ((bytes.getD 2 0).toUInt32 <<< 16) |||
    ((bytes.getD 3 0).toUInt32 <<< 24)

/-!
## Padding
-/

/-- `for (...; new_len % 64 != 56; new_len++)`, for at most `fuel` rounds. -/
def newLenLoop : Nat -> Nat -> Nat
  | 0, newLen => newLen
  | fuel + 1, newLen =>
      if newLen % (512 / 8) ≠ 448 / 8 then newLenLoop fuel (newLen + 1)
      else newLen

/-- Every residue is met within 64 rounds. -/
def paddedLen (initialLen : Nat) : Nat :=
  newLenLoop 64 (initialLen + 1)

/-- The buffer `msg`: message, `0x80`, zeros up to `new_len`, bit length. -/
def paddedMessage (initialMsg : List Byte) : List Byte :=
  let initialLen := initialMsg.length
  initialMsg ++ [(0x80 : Byte)] ++
    List.replicate (paddedLen initialLen - (initialLen + 1)) (0 : Byte) ++
    toBytes (UInt32.ofNat (initialLen * 8)) ++
    toBytes (UInt32.ofNat (initialLen >>> 29))

/-!
## Rounds and blocks
-/

structure Registers where
  a : UInt32
  b : UInt32
  c : UInt32
  d : UInt32
deriving DecidableEq

/-- One pass of the 64-step loop: the mixing function `f` and the index `g` of
the message word depend on the quarter `i` lies in. -/
def step (w : List UInt32) (s : Registers) (i : Nat) : Registers :=
  let f :=
    if i < 16 then (s.b &&& s.c) ||| (~~~s.b &&& s.d)
    else if i < 32 then (s.d &&& s.b) ||| (~~~s.d &&& s.c)
    else if i < 48 then s.b ^^^ s.c ^^^ s.d
    else s.c ^^^ (s.b ||| ~~~s.d)
  let g :=
    if i < 16 then i
    else if i < 32 then (5 * i + 1) % 16
    else if i < 48 then (3 * i + 5) % 16
    else (7 * i) % 16
  { a := s.d
    b := s.b + leftRotate (s.a + f + k.getD i 0 + w.getD g 0) (r.getD i 0)
    c := s.b
    d := s.c }

def block (msg : List Byte) (offset : Nat) (h : Registers) : Registers :=
  let w := (List.range 16).map (fun i => toInt32 (msg.drop (offset + i * 4)))
  let s := (List.range 64).foldl (step w) h
  { a := h.a + s.a, b := h.b + s.b, c := h.c + s.c, d := h.d + s.d }

/-- `for(offset=0; offset<new_len; offset += 64)`, for at most `fuel` rounds. -/
def blockLoop (msg : List Byte) (newLen : Nat) :
    Nat -> Nat -> Registers -> Registers
  | 0, _, h => h
  | fuel + 1, offset, h =>
      if offset < newLen then
        blockLoop msg newLen fuel (offset + 512 / 8) (block msg offset h)
      else h

def initialRegisters : Registers :=
  { a := 0x67452301, b := 0xefcdab89, c := 0x98badcfe, d := 0x10325476 }

def md5 (initialMsg : List Byte) : List Byte :=
  let newLen := paddedLen initialMsg.length
  let h := blockLoop (paddedMessage initialMsg) newLen newLen 0 initialRegisters
  toBytes h.a ++ toBytes h.b ++ toBytes h.c ++ toBytes h.d

end Md5

/-!
## `hashword`
-/

/-- The digest is computed again and again into the same array. -/
def md5Repeat (plaintext : List Byte) : Nat -> List Byte -> List Byte
  | 0, result => result
  | n + 1, _ => md5Repeat plaintext n (Md5.md5 plaintext)

def hexDigit (n : Nat) : Byte :=
  if n < 10 then UInt8.ofNat (48 + n) else UInt8.ofNat (87 + n)

theorem hexDigit_toNat {n : Nat} (hn : n < 16) :
    (hexDigit n).toNat = if n < 10 then 48 + n else 87 + n := by
  unfold hexDigit
  split <;> simp only [UInt8.toNat_ofNat'] <;> lia

theorem hexDigit_ne {n : Nat} {c : Byte} (hn : n < 16)
    (hc : c.toNat < 48 ∨ c.toNat = 58) : hexDigit n ≠ c := by
  intro h
  have hnat := hexDigit_toNat hn
  rw [h] at hnat
  split at hnat <;> lia

theorem nul_not_mem_hexByte (b : Byte) :
    (0 : Byte) ∉ [hexDigit (b.toNat / 16), hexDigit (b.toNat % 16)] := by
  have hlt := b.toNat_lt
  have hnul : (0 : Byte).toNat < 48 ∨ (0 : Byte).toNat = 58 := by decide
  intro h
  rcases List.mem_cons.mp h with h0 | h1
  · exact hexDigit_ne (by lia) hnul h0.symm
  · exact hexDigit_ne (by lia) hnul (List.mem_singleton.mp h1).symm

/-- `%2.2x` of one byte. -/
def hexByte (b : Byte) : CString :=
  { bytes := [hexDigit (b.toNat / 16), hexDigit (b.toNat % 16)]
    nulFree := nul_not_mem_hexByte b }

def strncat (dest src : CString) (n : Nat) : CString :=
  dest ++ src.take n

/-- The loop over `result[i]`, started from the zeroed buffer. -/
def hexText (result : List Byte) : CString :=
  (List.range 16).foldl
    (fun ret i => strncat ret (hexByte (result.getD i 0)) 33) (CString.lit "")

/-- `result` is not initialised; its contents are replaced by the first pass. -/
def hashword (plaintext : CString) : CString :=
  hexText (md5Repeat plaintext.bytes 1000000 (List.replicate 16 0))

/-!
The text is always 32 hexadecimal digits, whatever the digest is.
-/

def IsHex (b : Byte) : Prop :=
  exists n, n < 16 ∧ b = hexDigit n

theorem isHex_of_mem_hexByte {b c : Byte} (h : c ∈ (hexByte b).bytes) : IsHex c := by
  have hlt := b.toNat_lt
  rcases List.mem_cons.mp h with h0 | h1
  · exact ⟨b.toNat / 16, by lia, h0⟩
  · exact ⟨b.toNat % 16, by lia, List.mem_singleton.mp h1⟩

theorem hexByte_take (b : Byte) : (hexByte b).take 33 = hexByte b := rfl

/-- Loop invariant of the hexadecimal text: two digits per byte. -/
theorem hexLoop_spec (result : List Byte) (is : List Nat) (ret : CString) :
    let out := is.foldl
      (fun ret i => strncat ret (hexByte (result.getD i 0)) 33) ret
    out.length = ret.length + 2 * is.length ∧
      forall c, c ∈ out.bytes -> c ∈ ret.bytes ∨ IsHex c := by
  induction is generalizing ret with
  | nil => exact ⟨rfl, fun _ hc => Or.inl hc⟩
  | cons i is ih =>
      have hrest := ih (strncat ret (hexByte (result.getD i 0)) 33)
      rcases hrest with ⟨hlen, hmem⟩
      have hstep : (strncat ret (hexByte (result.getD i 0)) 33).length =
          ret.length + 2 := by
        simp [strncat, CString.length, hexByte]
      constructor
      · rw [List.foldl_cons, hlen, hstep, List.length_cons]
        lia
      · intro c hc
        rcases hmem c hc with hold | hhex
        · rw [strncat, hexByte_take, CString.append_bytes] at hold
          rcases List.mem_append.mp hold with hret | hnew
          · exact Or.inl hret
          · exact Or.inr (isHex_of_mem_hexByte hnew)
        · exact Or.inr hhex

theorem hashword_length (plaintext : CString) : (hashword plaintext).length = 32 := by
  have h := hexLoop_spec (md5Repeat plaintext.bytes 1000000 (List.replicate 16 0))
    (List.range 16) (CString.lit "")
  exact h.1

theorem isHex_of_mem_hashword {plaintext : CString} {c : Byte}
    (hc : c ∈ (hashword plaintext).bytes) : IsHex c := by
  have h := hexLoop_spec (md5Repeat plaintext.bytes 1000000 (List.replicate 16 0))
    (List.range 16) (CString.lit "")
  rcases h.2 c hc with hnil | hhex
  · exact absurd hnil (by simp [CString.lit, CString.ofBytes, ascii])
  · exact hhex

/-- A hash can be written between colons and ended by a newline. -/
theorem not_mem_hashword {plaintext : CString} {c : Byte}
    (hc : c.toNat < 48 ∨ c.toNat = 58) : c ∉ (hashword plaintext).bytes := by
  intro hmem
  rcases isHex_of_mem_hashword hmem with ⟨n, hn, hcn⟩
  exact hexDigit_ne hn hc hcn.symm

end ShadowFs

import ShadowFs.Hash.Standard

/-!
# The padded buffer of `md5`

The code obtains `new_len + 8` bytes, stores the message, its padding and its length there,
and reads the buffer word by word.  Here the buffer is memory as `malloc` returns it: a byte
of it has been written or not, a store outside the block and a load of anything but a written
byte fail.  `md5Checked` is `md5` on such memory, with the positions it loads.

The run never fails, computes the same digest, and loads the buffer from the first byte to
the last.  The buffer ends with the length, and so determines the message.
-/

namespace ShadowFs

open CLib

namespace Md5

/-!
## Memory
-/

/-- A block of memory: `none` is a byte that has not been written. -/
abbrev Block := List (Option Byte)

/-- `mem[i] = b`. -/
def store (mem : Block) (i : Nat) (b : Byte) : Option Block :=
  if i < mem.length then some (mem.set i (some b)) else none

/-- The bytes at `i` and behind it, one after the other. -/
def storeAll (mem : Block) (i : Nat) : List Byte -> Option Block
  | [] => some mem
  | b :: bs =>
      match store mem i b with
      | none => none
      | some mem' => storeAll mem' (i + 1) bs

/-- `mem[i]`. -/
def load (mem : Block) (i : Nat) : Option Byte :=
  mem.getD i none

/-- The buffer `msg`, store by store. -/
def buildMessage (initialMsg : List Byte) : Option Block := do
  let initialLen := initialMsg.length
  let newLen := paddedLen initialLen
  let msg := List.replicate (newLen + 8) none
  let msg ← storeAll msg 0 initialMsg
  let msg ← store msg initialLen 0x80
  let msg ← storeAll msg (initialLen + 1) (List.replicate (newLen - (initialLen + 1)) 0)
  let msg ← storeAll msg newLen (toBytes (UInt32.ofNat (initialLen * 8)))
  storeAll msg (newLen + 4) (toBytes (UInt32.ofNat (initialLen >>> 29)))

/-- `to_int32(msg + i)` and the positions it loads. -/
def loadInt32 (msg : Block) (i : Nat) : Option (UInt32 × List Nat) := do
  let b0 ← load msg i
  let b1 ← load msg (i + 1)
  let b2 ← load msg (i + 2)
  let b3 ← load msg (i + 3)
  some (toInt32 [b0, b1, b2, b3], [i, i + 1, i + 2, i + 3])

/-- The words `w[i]` of the block at `offset`, for the given indices. -/
def loadWords (msg : Block) (offset : Nat) : List Nat -> Option (List UInt32 × List Nat)
  | [] => some ([], [])
  | i :: is => do
      let first ← loadInt32 msg (offset + i * 4)
      let rest ← loadWords msg offset is
      some (first.1 :: rest.1, first.2 ++ rest.2)

/-- The main loop over the words of one block. -/
def mixWords (w : List UInt32) (h : Registers) : Registers :=
  let s := (List.range 64).foldl (step w) h
  { a := h.a + s.a, b := h.b + s.b, c := h.c + s.c, d := h.d + s.d }

/-- The block loop, with the positions loaded so far. -/
def loadLoop (msg : Block) (newLen : Nat) :
    Nat -> Nat -> Registers -> List Nat -> Option (Registers × List Nat)
  | 0, _, h, loads => some (h, loads)
  | fuel + 1, offset, h, loads =>
      if offset < newLen then do
        let w ← loadWords msg offset (List.range 16)
        loadLoop msg newLen fuel (offset + 512 / 8) (mixWords w.1 h) (loads ++ w.2)
      else some (h, loads)

/-- The digest and the positions of the buffer that are loaded for it. -/
def md5Checked (fuel : Nat) (initialMsg : List Byte) : Option (List Byte × List Nat) := do
  let msg ← buildMessage initialMsg
  let res ← loadLoop msg (paddedLen initialMsg.length) fuel 0 initialRegisters []
  some (toBytes res.1.a ++ toBytes res.1.b ++ toBytes res.1.c ++ toBytes res.1.d, res.2)

/-!
## Stores
-/

theorem store_eq (written : List Byte) (b : Byte) (k : Nat) :
    store (written.map some ++ List.replicate (k + 1) none) written.length b =
      some ((written ++ [b]).map some ++ List.replicate k none) := by
  rw [List.replicate_succ]
  simp [store]

theorem storeAll_eq (written bs : List Byte) (k : Nat) :
    storeAll (written.map some ++ List.replicate (bs.length + k) none) written.length bs =
      some ((written ++ bs).map some ++ List.replicate k none) := by
  induction bs generalizing written with
  | nil => simp [storeAll]
  | cons b bs ih =>
      have hcount : (b :: bs).length + k = bs.length + k + 1 := by
        rw [List.length_cons]
        lia
      have hnext : written.length + 1 = (written ++ [b]).length := by
        rw [List.length_append, List.length_singleton]
      rw [storeAll, hcount, store_eq]
      simp only [hnext, ih (written ++ [b])]
      simp

theorem toBytes_length (v : UInt32) : (toBytes v).length = 4 := rfl

theorem buildMessage_eq (initialMsg : List Byte) :
    buildMessage initialMsg = some ((paddedMessage initialMsg).map some) := by
  obtain ⟨z, hz⟩ : exists z, paddedLen initialMsg.length = initialMsg.length + 1 + z :=
    ⟨_, Standard.paddedLen_eq initialMsg.length⟩
  have hzeros : initialMsg.length + 1 + z - (initialMsg.length + 1) = z := by lia
  have hsize : initialMsg.length + 1 + z + 8 = initialMsg.length + (z + (4 + (4 + 0)) + 1) := by
    lia
  have hmessage := storeAll_eq [] initialMsg (z + (4 + (4 + 0)) + 1)
  have hone := store_eq initialMsg 0x80 (z + (4 + (4 + 0)))
  have hpad := storeAll_eq (initialMsg ++ [0x80]) (List.replicate z 0) (4 + (4 + 0))
  have hlow := storeAll_eq (initialMsg ++ [0x80] ++ List.replicate z 0)
    (toBytes (UInt32.ofNat (initialMsg.length * 8))) (4 + 0)
  have hhigh := storeAll_eq (initialMsg ++ [0x80] ++ List.replicate z 0 ++
    toBytes (UInt32.ofNat (initialMsg.length * 8)))
    (toBytes (UInt32.ofNat (initialMsg.length >>> 29))) 0
  simp only [List.length_append, List.length_singleton, List.length_replicate, List.map_nil,
    List.nil_append, List.length_nil, toBytes_length] at hmessage hone hpad hlow hhigh
  simp only [buildMessage, hz, hzeros, hsize, hmessage, hone, hpad, hlow, hhigh,
    Option.bind_eq_bind, Option.bind_some, List.replicate_zero, List.append_nil]
  simp only [paddedMessage, hz, hzeros]

/-!
## Loads
-/

theorem load_eq {msg : List Byte} {i : Nat} (hi : i < msg.length) :
    load (msg.map some) i = some (msg.getD i 0) := by
  simp [load, List.getD_eq_getElem?_getD, hi]

theorem loadInt32_eq {msg : List Byte} {i : Nat} (hi : i + 4 ≤ msg.length) :
    loadInt32 (msg.map some) i = some (toInt32 (msg.drop i), List.range' i 4) := by
  have hat : forall t, (msg.drop i).getD t 0 = msg.getD (i + t) 0 := by
    intro t
    rw [List.getD_eq_getElem?_getD, List.getElem?_drop, ← List.getD_eq_getElem?_getD]
  have hword : toInt32 [msg.getD i 0, msg.getD (i + 1) 0, msg.getD (i + 2) 0,
      msg.getD (i + 3) 0] = toInt32 (msg.drop i) := by
    simp only [toInt32, hat, List.getD_cons_zero, List.getD_cons_succ, Nat.add_zero]
  rw [loadInt32, load_eq (by lia), load_eq (by lia), load_eq (by lia), load_eq (by lia)]
  simp only [Option.bind_eq_bind, Option.bind_some, hword]
  rfl

theorem loadWords_eq {msg : List Byte} {offset : Nat} {is : List Nat}
    (his : forall i, i ∈ is -> offset + i * 4 + 4 ≤ msg.length) :
    loadWords (msg.map some) offset is =
      some (is.map (fun i => toInt32 (msg.drop (offset + i * 4))),
        is.flatMap (fun i => List.range' (offset + i * 4) 4)) := by
  induction is with
  | nil => rfl
  | cons i is ih =>
      rw [List.forall_mem_cons] at his
      rw [loadWords, loadInt32_eq his.1, ih his.2]
      rfl

theorem flatMap_range' (offset n : Nat) :
    (List.range n).flatMap (fun i => List.range' (offset + i * 4) 4) =
      List.range' offset (n * 4) := by
  induction n with
  | zero => simp
  | succ n ih =>
      rw [List.range_succ, List.flatMap_append, ih, List.flatMap_singleton, Nat.succ_mul,
        List.range'_append_1]

theorem loadWords_block {msg : List Byte} {offset : Nat} (hfit : offset + 64 ≤ msg.length) :
    loadWords (msg.map some) offset (List.range 16) =
      some ((List.range 16).map (fun i => toInt32 (msg.drop (offset + i * 4))),
        List.range' offset 64) := by
  have hwords : forall i, i ∈ List.range 16 -> offset + i * 4 + 4 ≤ msg.length := by
    intro i hi
    rw [List.mem_range] at hi
    lia
  rw [loadWords_eq hwords, flatMap_range']

/-- The block loop from block `j` on, with `n` blocks to come: it loads them in order. -/
theorem loadLoop_eq {msg : List Byte} {newLen j n fuel : Nat} (hmsg : msg.length = newLen + 8)
    (hlen : newLen + 8 = 64 * (j + n)) (hfuel : n ≤ fuel) (h : Registers) (loads : List Nat) :
    loadLoop (msg.map some) newLen fuel (64 * j) h loads =
      some (blockLoop msg newLen fuel (64 * j) h, loads ++ List.range' (64 * j) (64 * n)) := by
  induction n generalizing j fuel h loads with
  | zero =>
      cases fuel with
      | zero => simp [loadLoop, blockLoop]
      | succ fuel =>
          have hend : ¬ 64 * j < newLen := by lia
          rw [loadLoop, if_neg hend, blockLoop, if_neg hend]
          simp
  | succ n ih =>
      cases fuel with
      | zero => cases hfuel
      | succ fuel =>
          have hmore : 64 * j < newLen := by lia
          have hnext : 64 * j + 512 / 8 = 64 * (j + 1) := by lia
          have hpart : 64 * (n + 1) = 64 + 64 * n := by lia
          have hafter : 64 * j + 64 = 64 * (j + 1) := by lia
          rw [loadLoop, if_pos hmore, blockLoop, if_pos hmore, loadWords_block (by lia), hnext,
            hpart, ← List.range'_append_1, hafter, ← List.append_assoc]
          exact ih (by lia) (Nat.le_of_succ_le_succ hfuel) _ _

/-- The checked run: no fault, the same digest, and every byte of the buffer in order. -/
theorem md5Checked_eq {fuel : Nat} (initialMsg : List Byte)
    (hfuel : paddedLen initialMsg.length ≤ fuel) :
    md5Checked fuel initialMsg =
      some (md5 initialMsg, List.range (paddedLen initialMsg.length + 8)) := by
  rcases Standard.pad_length initialMsg with ⟨m, hpad, hlen⟩
  rw [← Standard.paddedMessage_eq_pad] at hpad
  have hblocks : paddedLen initialMsg.length + 8 = 64 * (0 + m) := by lia
  have hrounds : m ≤ paddedLen initialMsg.length := by lia
  have hloads := loadLoop_eq (hpad.trans hlen.symm) hblocks (hrounds.trans hfuel)
    initialRegisters []
  have hloop := Standard.blockLoop_eq (paddedMessage initialMsg) hblocks
    (hrounds.trans hfuel) initialRegisters
  have hloop' := Standard.blockLoop_eq (paddedMessage initialMsg) hblocks hrounds
    initialRegisters
  rw [hloop, ← hloop', ← hlen, Nat.mul_zero, List.nil_append, ← List.range_eq_range'] at hloads
  rw [md5Checked, buildMessage_eq]
  simp only [Option.bind_eq_bind, Option.bind_some, hloads]
  rfl

/-!
## The buffer determines the message
-/

theorem toBytes_inj {v w : UInt32} (h : toBytes v = toBytes w) : v = w := by
  have hnat : forall j, j < 4 -> v.toNat / 256 ^ j % 256 = w.toNat / 256 ^ j % 256 := by
    intro j hj
    rw [Standard.toBytes_eq_lowFirst, Standard.toBytes_eq_lowFirst] at h
    have hbyte := (List.map_inj_left.mp h) j (List.mem_range.mpr hj)
    have hbyte' := congrArg UInt8.toNat hbyte
    rwa [UInt8.toNat_ofNat', UInt8.toNat_ofNat'] at hbyte'
  have h0 := hnat 0 (by decide)
  have h1 := hnat 1 (by decide)
  have h2 := hnat 2 (by decide)
  have h3 := hnat 3 (by decide)
  have hv := v.toNat_lt
  have hw := w.toNat_lt
  apply UInt32.toNat_inj.mp
  omega

theorem paddedMessage_length (initialMsg : List Byte) :
    (paddedMessage initialMsg).length = paddedLen initialMsg.length + 8 := by
  rcases Standard.pad_length initialMsg with ⟨m, hpad, hlen⟩
  rw [Standard.paddedMessage_eq_pad, hpad, hlen]

theorem paddedMessage_drop (initialMsg : List Byte) :
    (paddedMessage initialMsg).drop (paddedLen initialMsg.length) =
      toBytes (UInt32.ofNat (initialMsg.length * 8)) ++
        toBytes (UInt32.ofNat (initialMsg.length >>> 29)) := by
  have hlen := Standard.paddedLen_eq initialMsg.length
  have hfront : (initialMsg ++ [(0x80 : Byte)] ++
      List.replicate (paddedLen initialMsg.length - (initialMsg.length + 1)) (0 : Byte)).length =
      paddedLen initialMsg.length := by
    simp only [List.length_append, List.length_singleton, List.length_replicate]
    lia
  rw [paddedMessage, List.append_assoc, List.drop_append_of_le_length (Nat.le_of_eq hfront.symm)]
  nth_rewrite 1 [← hfront]
  rw [List.drop_length, List.nil_append]

theorem paddedMessage_take (initialMsg : List Byte) :
    (paddedMessage initialMsg).take initialMsg.length = initialMsg := by
  simp only [paddedMessage, List.append_assoc, List.take_left']

/-- The lengths have the same low 29 bits and differ by less than a block. -/
theorem paddedMessage_inj {m m' : List Byte} (h : paddedMessage m = paddedMessage m') :
    m = m' := by
  have hsize := congrArg List.length h
  rw [paddedMessage_length, paddedMessage_length] at hsize
  have hpadded : paddedLen m.length = paddedLen m'.length := Nat.add_right_cancel hsize
  have hend := paddedMessage_drop m
  rw [h, hpadded, paddedMessage_drop m'] at hend
  have hlow := toBytes_inj (List.append_inj hend rfl).1
  have hbits := congrArg UInt32.toNat hlow
  rw [UInt32.toNat_ofNat', UInt32.toNat_ofNat'] at hbits
  rw [Standard.paddedLen_eq, Standard.paddedLen_eq] at hpadded
  have hlength : m.length = m'.length := by omega
  calc m = (paddedMessage m).take m.length := (paddedMessage_take m).symm
    _ = (paddedMessage m').take m'.length := by rw [h, hlength]
    _ = m' := paddedMessage_take m'

/-!
## Padding
-/

/-- What the padding of a message is required to be. -/
structure PadsExactly (initialMsg : List Byte) : Prop where
  /-- The padding loop ends; further rounds change nothing. -/
  ends : forall fuel, 64 ≤ fuel ->
    newLenLoop fuel (initialMsg.length + 1) = paddedLen initialMsg.length
  residue : paddedLen initialMsg.length % 64 = 56
  room : initialMsg.length + 1 ≤ paddedLen initialMsg.length
  least : forall n, initialMsg.length + 1 ≤ n -> n % 64 = 56 -> paddedLen initialMsg.length ≤ n
  /-- No length leaves the range of `size_t`. -/
  inRange : paddedLen initialMsg.length + 8 < 2 ^ 64
  /-- The stores stay inside the buffer and the loads are of written bytes, each once. -/
  loads : forall fuel, paddedLen initialMsg.length ≤ fuel -> exists loaded,
    md5Checked fuel initialMsg = some (md5 initialMsg, loaded) ∧
      forall i, loaded.count i = if i < paddedLen initialMsg.length + 8 then 1 else 0
  /-- No other message has the same buffer. -/
  determined : forall msg, buildMessage msg = buildMessage initialMsg -> msg = initialMsg

theorem newLenLoop_eq_paddedLen {fuel : Nat} (hfuel : 64 ≤ fuel) (n : Nat) :
    newLenLoop fuel (n + 1) = paddedLen n := by
  rw [paddedLen, Standard.newLenLoop_eq fuel (n + 1) (by omega),
    Standard.newLenLoop_eq 64 (n + 1) (by omega)]

theorem paddedLen_least {n k : Nat} (hk : n + 1 ≤ k) (hresidue : k % 64 = 56) :
    paddedLen n ≤ k := by
  rw [Standard.paddedLen_eq]
  omega

/-- The padding of every message shorter than `2^61` bytes is exact and unambiguous. -/
theorem padsExactly (initialMsg : List Byte) (hlen : initialMsg.length < 2 ^ 61) :
    PadsExactly initialMsg := by
  have hpadded := Standard.paddedLen_eq initialMsg.length
  constructor
  · exact fun fuel hfuel => newLenLoop_eq_paddedLen hfuel initialMsg.length
  · omega
  · omega
  · exact fun n hn hresidue => paddedLen_least hn hresidue
  · omega
  · intro fuel hfuel
    exact ⟨_, md5Checked_eq initialMsg hfuel, fun _ => List.count_range⟩
  · intro msg hsame
    rw [buildMessage_eq, buildMessage_eq, Option.some_inj,
      List.map_inj_right (fun _ _ => Option.some.inj)] at hsame
    exact paddedMessage_inj hsame

theorem padsExactly_abc : PadsExactly (ascii "abc") :=
  padsExactly (ascii "abc") (by decide)

end Md5

end ShadowFs

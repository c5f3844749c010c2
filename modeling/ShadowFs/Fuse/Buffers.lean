import Mathlib.Algebra.Order.Ring.Nat
import ShadowFs.CLib.Memory

/-!
# Growing buffers and integers in messages

The loop by which `fuse.c` finds the new size of a buffer, and the integers of the kernel
interface, which are stored with the low byte first.
-/

namespace ShadowFs.Libfuse

open CLib

abbrev ENOMEM : Int := 12

def FUSE_UNKNOWN_INO : Nat := 0xffffffff

/-!
## Sizes
-/

/-- `while (newsize < minsize)`: an `unsigned` is doubled, and set to its maximum from
`0x80000000` on. -/
def growSize (minsize : Nat) : Nat -> Nat -> Nat
  | 0, newsize => newsize
  | rounds + 1, newsize =>
      if newsize < minsize then
        growSize minsize rounds (if newsize ≥ 0x80000000 then 0xffffffff else newsize * 2)
      else newsize

theorem le_growSize {minsize rounds newsize : Nat} (hmin : minsize ≤ 0xffffffff)
    (hrounds : 0xffffffff ≤ newsize * 2 ^ rounds) :
    minsize ≤ growSize minsize rounds newsize := by
  induction rounds generalizing newsize with
  | zero =>
      rw [growSize]
      lia
  | succ rounds ih =>
      rw [growSize]
      split
      · apply ih
        have hpow : 1 ≤ 2 ^ rounds := Nat.one_le_two_pow
        split
        · exact Nat.le_mul_of_pos_right _ hpow
        · rw [Nat.mul_assoc, ← Nat.pow_succ']
          exact hrounds
      · lia

theorem growSize_le {minsize rounds newsize : Nat} (h : newsize ≤ 0xffffffff) :
    growSize minsize rounds newsize ≤ 0xffffffff := by
  induction rounds generalizing newsize with
  | zero => exact h
  | succ rounds ih =>
      rw [growSize]
      split
      · apply ih
        split
        · exact Nat.le_refl _
        · lia
      · exact h

theorem self_le_growSize {minsize rounds newsize : Nat} (h : newsize ≤ 0xffffffff) :
    newsize ≤ growSize minsize rounds newsize := by
  induction rounds generalizing newsize with
  | zero => exact Nat.le_refl _
  | succ rounds ih =>
      rw [growSize]
      split
      · split
        · exact h.trans (ih (Nat.le_refl _))
        · have hnext : newsize * 2 ≤ growSize minsize rounds (newsize * 2) := ih (by lia)
          lia
      · exact Nat.le_refl _

/-!
## Integers
-/

/-- The bytes of an integer of the given width. -/
def leBytes : Nat -> Nat -> List Byte
  | 0, _ => []
  | width + 1, v => UInt8.ofNat v :: leBytes width (v / 256)

def leValue : List Byte -> Nat
  | [] => 0
  | b :: bs => b.toNat + 256 * leValue bs

@[simp] theorem leBytes_length (width v : Nat) : (leBytes width v).length = width := by
  induction width generalizing v with
  | zero => rfl
  | succ width ih => rw [leBytes, List.length_cons, ih]

theorem leValue_leBytes {width v : Nat} (h : v < 256 ^ width) :
    leValue (leBytes width v) = v := by
  induction width generalizing v with
  | zero =>
      rw [Nat.pow_zero] at h
      rw [leBytes, leValue]
      lia
  | succ width ih =>
      have hhigh : v / 256 < 256 ^ width := by
        rw [Nat.pow_succ] at h
        exact Nat.div_lt_of_lt_mul (by lia)
      rw [leBytes, leValue, ih hhigh, UInt8.toNat_ofNat']
      lia

end ShadowFs.Libfuse

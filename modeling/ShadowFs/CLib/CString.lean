import Mathlib.Data.List.TakeWhile
import Mathlib.Data.List.TakeDrop

/-!
# C strings and the memory they live in

A `char *` of the C language is a position in memory together with the
convention that the text ends at the first NUL byte.  This module keeps the two
apart.  A `CString` is the text alone and carries the proof that no NUL
occurs in it; a `CBuffer` is a stretch of memory that contains a NUL, so
that reading a string from its first byte is defined.  What lies behind the
terminator stays part of the buffer, because code that indexes past the
terminator can see it.
-/

namespace ShadowFs
namespace CLib

abbrev Byte := UInt8

abbrev newline : Byte := 10
abbrev slash : Byte := 47
abbrev colon : Byte := 58

def ascii (s : String) : List Byte :=
  s.toList.map (fun c => c.toNat.toUInt8)

/-- The text of a NUL-terminated string, without its terminator. -/
@[ext]
structure CString where
  bytes : List Byte
  nulFree : (0 : Byte) ∉ bytes
deriving DecidableEq

theorem forall_ne_of_not_mem {stop : Byte} {s : List Byte} (h : stop ∉ s) :
    forall b, b ∈ s -> decide (b ≠ stop) = true := by
  intro b hb
  have hne : b ≠ stop := fun heq => h (heq ▸ hb)
  simpa using hne

theorem takeWhile_nul_free (mem : List Byte) :
    (0 : Byte) ∉ mem.takeWhile (fun b => b ≠ 0) := by
  intro h
  have h0 := List.mem_takeWhile_imp h
  simp at h0

namespace CString

/-- The string found at the start of a stretch of memory. -/
def ofBytes (mem : List Byte) : CString :=
  { bytes := mem.takeWhile (fun b => b ≠ 0)
    nulFree := takeWhile_nul_free mem }

def lit (s : String) : CString :=
  ofBytes (ascii s)

/-- `strlen`. -/
def length (s : CString) : Nat :=
  s.bytes.length

/-- The string `s + n`, for `n` not beyond the terminator. -/
def drop (s : CString) (n : Nat) : CString :=
  { bytes := s.bytes.drop n
    nulFree := fun h => s.nulFree (List.mem_of_mem_drop h) }

/-- The first `n` characters. -/
def take (s : CString) (n : Nat) : CString :=
  { bytes := s.bytes.take n
    nulFree := fun h => s.nulFree (List.mem_of_mem_take h) }

/-- `strcat`, as a value. -/
def append (s t : CString) : CString :=
  { bytes := s.bytes ++ t.bytes
    nulFree := by
      intro h
      rcases List.mem_append.mp h with hs | ht
      · exact s.nulFree hs
      · exact t.nulFree ht }

instance : Append CString := ⟨append⟩

@[simp] theorem append_bytes (s t : CString) :
    (s ++ t).bytes = s.bytes ++ t.bytes := rfl

@[simp] theorem drop_bytes (s : CString) (n : Nat) :
    (s.drop n).bytes = s.bytes.drop n := rfl

@[simp] theorem take_bytes (s : CString) (n : Nat) :
    (s.take n).bytes = s.bytes.take n := rfl

theorem ofBytes_of_nulFree {mem : List Byte} (h : (0 : Byte) ∉ mem) :
    ofBytes mem = { bytes := mem, nulFree := h } := by
  ext1
  exact List.takeWhile_eq_self_iff.mpr (forall_ne_of_not_mem h)

@[simp] theorem ofBytes_bytes (s : CString) : ofBytes s.bytes = s := by
  rw [ofBytes_of_nulFree s.nulFree]

theorem ofBytes_length_le (mem : List Byte) : (ofBytes mem).length ≤ mem.length :=
  (List.takeWhile_sublist _).length_le

theorem ofBytes_append_nul (s : CString) (behind : List Byte) :
    ofBytes (s.bytes ++ 0 :: behind) = s := by
  ext1
  show (s.bytes ++ 0 :: behind).takeWhile (fun b => b ≠ 0) = s.bytes
  rw [List.takeWhile_append_of_pos (forall_ne_of_not_mem s.nulFree)]
  simp

end CString

/-- Memory from which a string can be read: some byte of it is NUL. -/
structure CBuffer where
  bytes : List Byte
  terminated : (0 : Byte) ∈ bytes

namespace CBuffer

def get (m : CBuffer) (i : Nat) : Byte :=
  m.bytes.getD i 0

/-- The string that starts at `m + i`. -/
def strAt (m : CBuffer) (i : Nat) : CString :=
  CString.ofBytes (m.bytes.drop i)

/-- The string held by the buffer. -/
def str (m : CBuffer) : CString :=
  m.strAt 0

/-- A string in memory, with an arbitrary stretch behind its terminator. -/
def ofCString (s : CString) (behind : List Byte) : CBuffer :=
  { bytes := s.bytes ++ 0 :: behind
    terminated := by simp }

@[simp] theorem str_ofCString (s : CString) (behind : List Byte) :
    (ofCString s behind).str = s :=
  CString.ofBytes_append_nul s behind

/-- Every buffer is its string, a terminator and the bytes behind it. -/
theorem exists_behind (m : CBuffer) :
    exists behind, m.bytes = m.str.bytes ++ 0 :: behind := by
  have hsplit := List.takeWhile_append_dropWhile
    (p := fun b : Byte => decide (b ≠ 0)) (l := m.bytes)
  cases hrest : m.bytes.dropWhile (fun b => decide (b ≠ 0)) with
  | nil =>
      exfalso
      have hall := List.dropWhile_eq_nil_iff.mp hrest 0 m.terminated
      simp at hall
  | cons b behind =>
      have hb : b = 0 := by
        have hhead := List.head_dropWhile_not (fun b : Byte => decide (b ≠ 0))
          (l := m.bytes) (by rw [hrest]; simp)
        simp only [hrest, List.head_cons] at hhead
        simpa using hhead
      subst hb
      refine ⟨behind, ?_⟩
      rw [hrest] at hsplit
      exact hsplit.symm

theorem get_length (m : CBuffer) : m.get m.str.length = 0 := by
  rcases m.exists_behind with ⟨behind, hbytes⟩
  show m.bytes.getD m.str.bytes.length 0 = 0
  simp [hbytes, List.getD_eq_getElem?_getD]

theorem strAt_of_le {m : CBuffer} {i : Nat} (hi : i ≤ m.str.length) :
    m.strAt i = m.str.drop i := by
  rcases m.exists_behind with ⟨behind, hbytes⟩
  have hi' : i ≤ m.str.bytes.length := hi
  show CString.ofBytes (m.bytes.drop i) = _
  rw [hbytes, List.drop_append_of_le_length hi']
  exact CString.ofBytes_append_nul (m.str.drop i) behind

end CBuffer

end CLib
end ShadowFs

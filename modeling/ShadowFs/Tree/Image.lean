import ShadowFs.CLib.Memory
import ShadowFs.Tree.Record

/-!
# `struct user` as bytes

On a 64-bit machine the members from `username` to `dd` occupy the bytes 8 to 79
of the structure without padding: `username[16]`, `hash[32]` and six
little-endian `int`s.  `UserImage` holds these 72 bytes; offsets are counted
from `username`.  The `next` pointer in front of them is the position in the
list, and `reserved` behind them is kept as the string it points to.

`strcpy` stores a string and its terminator wherever they fall, and a string
read runs to the first NUL, so fields can run into each other.  The lemmas say
when they do not, and what happens to a hash that fills its array.
-/

namespace ShadowFs

open CLib

structure UserImage where
  bytes : List Byte
  size : bytes.length = 72
  reserved : Option CString
deriving DecidableEq

namespace UserImage

def hashOffset : Nat := 16

def dayOffset : DayField -> Nat
  | .dsc => 48
  | .dcc => 52
  | .dmc => 56
  | .dw => 60
  | .de => 64
  | .dd => 68

theorem hashOffset_le : hashOffset ≤ 72 := by
  decide

theorem le_dayOffset (d : DayField) : 48 ≤ dayOffset d := by
  cases d <;> decide

theorem dayOffset_le (d : DayField) : dayOffset d + 4 ≤ 72 := by
  cases d <;> decide

theorem dayOffset_disjoint {d e : DayField} (h : d ≠ e) :
    dayOffset d + 4 ≤ dayOffset e ∨ dayOffset e + 4 ≤ dayOffset d := by
  cases d <;> cases e <;> first | exact absurd rfl h | decide

theorem dayOffset_of_ne_dsc {d : DayField} (h : d ≠ .dsc) : 52 ≤ dayOffset d := by
  cases d <;> first | exact absurd rfl h | decide

def username (u : UserImage) : CString := stringAt u.bytes 0

def hash (u : UserImage) : CString := stringAt u.bytes hashOffset

def day (d : DayField) (u : UserImage) : Int32 := int32At u.bytes (dayOffset d)

theorem poke_size (u : UserImage) {off : Nat} (hoff : off ≤ 72) (bs : List Byte) :
    (poke u.bytes off bs).length = 72 := by
  rw [poke_length _ _ (by rw [u.size]; exact hoff), u.size]

/-- What would pass the image is dropped here; `Mounted.shRename` makes a fault of it. -/
def strcpyUsername (n : CString) (u : UserImage) : UserImage :=
  { u with
    bytes := pokeString u.bytes 0 n
    size := u.poke_size (Nat.zero_le 72) _ }

def strcpyHash (h : CString) (u : UserImage) : UserImage :=
  { u with
    bytes := pokeString u.bytes hashOffset h
    size := u.poke_size hashOffset_le _ }

def setDay (d : DayField) (v : Int32) (u : UserImage) : UserImage :=
  { u with
    bytes := pokeInt32 u.bytes (dayOffset d) v
    size := u.poke_size (Nat.le_of_add_right_le (dayOffset_le d)) _ }

/-!
## The user name
-/

def Terminated (u : UserImage) : Prop := u.username.length ≤ 15

theorem username_strcpyUsername {n : CString} (u : UserImage) (hn : n.length ≤ 15) :
    (strcpyUsername n u).username = n :=
  stringAt_pokeString (by rw [u.size]; lia)

theorem username_strcpyHash (h : CString) {u : UserImage} (hu : Terminated u) :
    (strcpyHash h u).username = u.username := by
  have hlen : (stringAt u.bytes 0).length ≤ 15 := hu
  apply stringAt_poke_of_lt
  · rw [u.size]
    decide
  · simp only [hashOffset]
    lia

theorem username_setDay (d : DayField) (v : Int32) {u : UserImage}
    (hu : Terminated u) : (setDay d v u).username = u.username := by
  have hlen : (stringAt u.bytes 0).length ≤ 15 := hu
  have hlow := le_dayOffset d
  have hhigh := dayOffset_le d
  apply stringAt_poke_of_lt
  · rw [u.size]
    lia
  · lia

/-!
## The other fields under `strcpy` of a name
-/

theorem hash_strcpyUsername {n : CString} (u : UserImage) (hn : n.length ≤ 15) :
    (strcpyUsername n u).hash = u.hash := by
  have hn' : n.bytes.length ≤ 15 := hn
  apply stringAt_poke_of_ge
  · simp only [List.length_append, List.length_singleton, u.size]
    lia
  · simp only [List.length_append, List.length_singleton, hashOffset]
    lia

theorem day_strcpyUsername {n : CString} (d : DayField) (u : UserImage)
    (hn : n.length ≤ 15) : (strcpyUsername n u).day d = u.day d := by
  have hn' : n.bytes.length ≤ 15 := hn
  have hlow := le_dayOffset d
  apply int32At_poke_of_ge
  · simp only [List.length_append, List.length_singleton, u.size]
    lia
  · simp only [List.length_append, List.length_singleton]
    lia

/-!
## The hash

A hash of 32 bytes leaves its terminator in the low byte of `dsc`.
-/

theorem hash_strcpyHash {h : CString} (u : UserImage) (hh : h.length ≤ 32) :
    (strcpyHash h u).hash = h :=
  stringAt_pokeString (by rw [u.size]; simp only [hashOffset]; lia)

theorem day_strcpyHash {h : CString} {d : DayField} (u : UserImage)
    (hfit : hashOffset + h.length + 1 ≤ dayOffset d) :
    (strcpyHash h u).day d = u.day d := by
  have hhigh := dayOffset_le d
  have hfit' : hashOffset + (h.bytes ++ [0]).length ≤ dayOffset d := by
    simpa [CString.length, Nat.add_assoc] using hfit
  apply int32At_poke_of_ge
  · rw [u.size]
    lia
  · exact hfit'

/-- The hash is not the end of the record: `dsc` follows. -/
theorem exists_drop_eq_cons (u : UserImage) : exists b rest, u.bytes.drop 48 = b :: rest := by
  cases hdrop : u.bytes.drop 48 with
  | nil =>
      have hlen := congrArg List.length hdrop
      rw [List.length_drop, u.size] at hlen
      cases hlen
  | cons b rest => exact ⟨b, rest, rfl⟩

/-- The terminator of a full hash is stored into `dsc`. -/
theorem dsc_strcpyHash_of_full {h : CString} (u : UserImage) (hh : h.length = 32) :
    (strcpyHash h u).day .dsc = u.day .dsc <-> (u.day .dsc).toInt % 256 = 0 := by
  rcases u.exists_drop_eq_cons with ⟨b, rest, hold⟩
  have hbytes : h.bytes.length = 32 := hh
  have hfit : hashOffset + (h.bytes ++ [0]).length ≤ u.bytes.length := by
    rw [u.size, List.length_append, hbytes]
    decide
  have hnew : (strcpyHash h u).bytes.drop 48 = 0 :: rest := by
    have hlong : (strcpyHash h u).bytes.drop 16 =
        (h.bytes ++ [0]) ++ u.bytes.drop 49 := by
      have hself := poke_drop_self hfit
      rw [List.length_append, hbytes] at hself
      exact hself
    have hrest : u.bytes.drop 49 = rest := by
      rw [← List.drop_drop (i := 1) (j := 48), hold]
      rfl
    have hdrop : (strcpyHash h u).bytes.drop 48 =
        ((strcpyHash h u).bytes.drop 16).drop 32 := by
      rw [List.drop_drop]
    rw [hdrop, hlong, hrest, List.append_assoc,
      List.drop_append_of_le_length (by rw [hbytes]), ← hbytes, List.drop_length]
    rfl
  have hday : u.day .dsc = int32OfBytes (b :: rest) := congrArg int32OfBytes hold
  have hday' : (strcpyHash h u).day .dsc = int32OfBytes (0 :: rest) :=
    congrArg int32OfBytes hnew
  rw [hday, hday', int32OfBytes_cons_inj, int32OfBytes_emod_eq_zero_iff]
  exact eq_comm

/-- A day field that starts behind the terminator of the hash. -/
theorem hash_setDay_of_lt {d : DayField} (v : Int32) {u : UserImage}
    (hu : hashOffset + u.hash.length < dayOffset d) :
    (setDay d v u).hash = u.hash := by
  have hhigh := dayOffset_le d
  apply stringAt_poke_of_lt
  · rw [u.size]
    lia
  · exact hu

/-!
## The day fields
-/

theorem day_setDay_self (d : DayField) (v : Int32) (u : UserImage) :
    (setDay d v u).day d = v :=
  int32At_pokeInt32 v (by rw [u.size]; exact dayOffset_le d)

theorem day_setDay_of_ne {d e : DayField} (h : d ≠ e) (v : Int32) (u : UserImage) :
    (setDay e v u).day d = u.day d := by
  have hhigh := dayOffset_le e
  cases dayOffset_disjoint h with
  | inl hbefore =>
      apply int32At_poke_of_le
      · rw [u.size]
        lia
      · exact hbefore
  | inr hafter =>
      apply int32At_poke_of_ge
      · rw [u.size, int32Bytes_length]
        exact hhigh
      · rw [int32Bytes_length]
        exact hafter

/-!
## A hash that fills its array

The string then runs on into `dsc`, and ends there only if the low byte of `dsc`
is NUL.
-/

def hashArray (u : UserImage) : List Byte :=
  (u.bytes.drop hashOffset).take 32

theorem drop_hashOffset (u : UserImage) :
    u.bytes.drop hashOffset = u.hashArray ++ u.bytes.drop 48 := by
  have hsplit := List.take_append_drop 32 (u.bytes.drop hashOffset)
  rw [List.drop_drop] at hsplit
  exact hsplit.symm

theorem hashArray_setDay (d : DayField) (v : Int32) (u : UserImage) :
    (setDay d v u).hashArray = u.hashArray := by
  have hlow := le_dayOffset d
  have hhigh := dayOffset_le d
  have htake : (poke u.bytes (dayOffset d) (int32Bytes v)).take 48 = u.bytes.take 48 :=
    poke_take_of_le (int32Bytes v) (by rw [u.size]; lia) hlow
  show ((poke u.bytes (dayOffset d) (int32Bytes v)).drop 16).take 32 =
    (u.bytes.drop 16).take 32
  rw [List.take_drop, List.take_drop, htake]

theorem hashArray_strcpyHash {h : CString} (u : UserImage) (hh : h.length = 32) :
    (strcpyHash h u).hashArray = h.bytes := by
  have hbytes : h.bytes.length = 32 := hh
  have hfit : hashOffset + (h.bytes ++ [0]).length ≤ u.bytes.length := by
    rw [u.size, List.length_append, hbytes]
    decide
  show ((poke u.bytes hashOffset (h.bytes ++ [0])).drop hashOffset).take 32 = h.bytes
  rw [poke_drop_self hfit, List.append_assoc, ← hbytes, List.take_left]

theorem hashArray_of_full {u : UserImage} (hu : u.hash.length = 32) :
    u.hashArray = u.hash.bytes := by
  have hlen : u.hash.bytes.length = 32 := hu
  have hprefix : u.hash.bytes <+: u.bytes.drop hashOffset :=
    List.takeWhile_prefix _
  rw [hashArray, ← hlen]
  exact (List.prefix_iff_eq_take.mp hprefix).symm

theorem hash_eq_iff_of_full {u : UserImage} {h : CString}
    (hfull : u.hashArray = h.bytes) :
    u.hash = h <-> (u.day .dsc).toInt % 256 = 0 := by
  rcases u.exists_drop_eq_cons with ⟨b, rest, hold⟩
  have hhash : u.hash = CString.ofBytes (h.bytes ++ b :: rest) := by
    rw [← hfull, ← hold, ← drop_hashOffset]
    rfl
  have hday : u.day .dsc = int32OfBytes (b :: rest) := congrArg int32OfBytes hold
  rw [hhash, hday, ofBytes_append_cons_eq_iff, int32OfBytes_emod_eq_zero_iff]

/-- A full hash survives an assignment to `dsc` exactly when the low byte of the
new value is NUL. -/
theorem hash_setDay_dsc_of_full (v : Int32) {u : UserImage}
    (hu : u.hash.length = 32) :
    (setDay .dsc v u).hash = u.hash <-> v.toInt % 256 = 0 := by
  have hfull : (setDay .dsc v u).hashArray = u.hash.bytes := by
    rw [hashArray_setDay, hashArray_of_full hu]
  rw [hash_eq_iff_of_full hfull, day_setDay_self]

end UserImage

instance : UserRep UserImage where
  username := UserImage.username
  hash := UserImage.hash
  day := UserImage.day
  reserved := UserImage.reserved
  strcpyUsername := UserImage.strcpyUsername
  strcpyHash := UserImage.strcpyHash
  setDay := UserImage.setDay
  setReserved r u := { u with reserved := r }
  terminated := UserImage.Terminated
  terminated_strcpyUsername n u hn := by
    rw [UserImage.Terminated, UserImage.username_strcpyUsername u hn]
    exact hn
  terminated_strcpyHash h u hu := by
    rw [UserImage.Terminated, UserImage.username_strcpyHash h hu]
    exact hu
  terminated_setDay d v u hu := by
    rw [UserImage.Terminated, UserImage.username_setDay d v hu]
    exact hu
  terminated_setReserved _ _ hu := hu
  username_strcpyUsername _ u hn := UserImage.username_strcpyUsername u hn
  username_strcpyHash h _ hu := UserImage.username_strcpyHash h hu
  username_setDay d v _ hu := UserImage.username_setDay d v hu
  username_setReserved _ _ _ := rfl
  hash_strcpyHash _ u hh := UserImage.hash_strcpyHash u (Nat.le_succ_of_le hh)
  hash_setDay d v u hu := by
    have hfits : u.hash.length ≤ 31 := hu
    have hlow := UserImage.le_dayOffset d
    apply UserImage.hash_setDay_of_lt
    simp only [UserImage.hashOffset]
    lia
  hash_setReserved _ _ := rfl
  day_setDay_self d v u := UserImage.day_setDay_self d v u
  day_setDay_of_ne _ _ v u h := UserImage.day_setDay_of_ne h v u
  day_setReserved _ _ _ := rfl
  reserved_strcpyUsername _ _ _ := rfl
  reserved_strcpyHash _ _ _ := rfl
  reserved_setDay _ _ _ := rfl
  reserved_setReserved_none _ := rfl
  reserved_setReserved_some_ne_none _ _ := Option.some_ne_none _

end ShadowFs

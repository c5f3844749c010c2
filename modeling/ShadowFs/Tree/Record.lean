import ShadowFs.CLib.Decimal

/-!
# `struct user`

The code reads and writes the records of the user list only through the fields
of `struct user`: `%s` and `strcmp` read the two character arrays, `strcpy`
writes them, and the six `int` fields and the `reserved` pointer are assigned
directly.  `UserRep` collects these accesses, so that the functions of
`shadowTree.h`, `parse.h` and `shfs.c` are written once and can be run on three
kinds of record: `User`, where the string fields are values of any length, the
byte image of `ShadowFs.Tree.Image`, where a `strcpy` that is too long runs into
the next field, and the records of `ShadowFs.System.UserMap`, where `reserved` is
an address and the text is what the memory has there.  In the first two the text is
the one at the time of the assignment; a text that a write has stored does not last
beyond its request, and the results about later requests leave such writes out.

The laws of the class are the ones all kinds satisfy.  A record is
`terminated` when its user name ends inside its own array; for such a record
no access to another field can change the name.  A hash that leaves room for its
terminator is safe from the day fields behind it.
-/

namespace ShadowFs

open CLib

/-- The six `int` fields of `struct user`. -/
inductive DayField where
  | dsc
  | dcc
  | dmc
  | dw
  | de
  | dd
deriving DecidableEq, Repr

/-- Capacity of `username[16]`, without the terminator. -/
abbrev usernameCapacity : Nat := 15

/-- Capacity of `hash[32]`, without the terminator. -/
abbrev hashCapacity : Nat := 31

class UserRep (ρ : Type) where
  username : ρ -> CString
  hash : ρ -> CString
  day : DayField -> ρ -> Int32
  reserved : ρ -> Option CString
  strcpyUsername : CString -> ρ -> ρ
  strcpyHash : CString -> ρ -> ρ
  setDay : DayField -> Int32 -> ρ -> ρ
  setReserved : Option CString -> ρ -> ρ
  terminated : ρ -> Prop
  terminated_strcpyUsername : forall (n : CString) (u : ρ),
    n.length ≤ usernameCapacity -> terminated (strcpyUsername n u)
  terminated_strcpyHash : forall (h : CString) (u : ρ),
    terminated u -> terminated (strcpyHash h u)
  terminated_setDay : forall (d : DayField) (v : Int32) (u : ρ),
    terminated u -> terminated (setDay d v u)
  terminated_setReserved : forall (r : Option CString) (u : ρ),
    terminated u -> terminated (setReserved r u)
  username_strcpyUsername : forall (n : CString) (u : ρ),
    n.length ≤ usernameCapacity -> username (strcpyUsername n u) = n
  username_strcpyHash : forall (h : CString) (u : ρ),
    terminated u -> username (strcpyHash h u) = username u
  username_setDay : forall (d : DayField) (v : Int32) (u : ρ),
    terminated u -> username (setDay d v u) = username u
  username_setReserved : forall (r : Option CString) (u : ρ),
    terminated u -> username (setReserved r u) = username u
  hash_strcpyHash : forall (h : CString) (u : ρ),
    h.length ≤ hashCapacity -> hash (strcpyHash h u) = h
  hash_setDay : forall (d : DayField) (v : Int32) (u : ρ),
    (hash u).length ≤ hashCapacity -> hash (setDay d v u) = hash u
  hash_setReserved : forall (r : Option CString) (u : ρ), hash (setReserved r u) = hash u
  day_setDay_self : forall (d : DayField) (v : Int32) (u : ρ), day d (setDay d v u) = v
  day_setDay_of_ne : forall (d e : DayField) (v : Int32) (u : ρ),
    d ≠ e -> day d (setDay e v u) = day d u
  day_setReserved : forall (d : DayField) (r : Option CString) (u : ρ),
    day d (setReserved r u) = day d u
  reserved_strcpyUsername : forall (n : CString) (u : ρ),
    n.length ≤ usernameCapacity -> reserved (strcpyUsername n u) = reserved u
  reserved_strcpyHash : forall (h : CString) (u : ρ),
    h.length ≤ 32 -> reserved (strcpyHash h u) = reserved u
  reserved_setDay : forall (d : DayField) (v : Int32) (u : ρ),
    reserved (setDay d v u) = reserved u
  reserved_setReserved_none : forall u : ρ, reserved (setReserved none u) = none
  reserved_setReserved_some_ne_none : forall (r : CString) (u : ρ),
    reserved (setReserved (some r) u) ≠ none

/-!
## Records whose string fields are values
-/

structure User where
  username : CString
  hash : CString
  dsc : Int32
  dcc : Int32
  dmc : Int32
  dw : Int32
  de : Int32
  dd : Int32
  reserved : Option CString
deriving DecidableEq

namespace User

def day : DayField -> User -> Int32
  | .dsc, u => u.dsc
  | .dcc, u => u.dcc
  | .dmc, u => u.dmc
  | .dw, u => u.dw
  | .de, u => u.de
  | .dd, u => u.dd

def setDay : DayField -> Int32 -> User -> User
  | .dsc, v, u => { u with dsc := v }
  | .dcc, v, u => { u with dcc := v }
  | .dmc, v, u => { u with dmc := v }
  | .dw, v, u => { u with dw := v }
  | .de, v, u => { u with de := v }
  | .dd, v, u => { u with dd := v }

@[simp] theorem username_setDay (d : DayField) (v : Int32) (u : User) :
    (setDay d v u).username = u.username := by
  cases d <;> rfl

@[simp] theorem hash_setDay (d : DayField) (v : Int32) (u : User) :
    (setDay d v u).hash = u.hash := by
  cases d <;> rfl

@[simp] theorem reserved_setDay (d : DayField) (v : Int32) (u : User) :
    (setDay d v u).reserved = u.reserved := by
  cases d <;> rfl

@[simp] theorem day_setDay_self (d : DayField) (v : Int32) (u : User) :
    day d (setDay d v u) = v := by
  cases d <;> rfl

theorem day_setDay_of_ne {d e : DayField} (h : d ≠ e) (v : Int32) (u : User) :
    day d (setDay e v u) = day d u := by
  cases d <;> cases e <;> first | rfl | exact absurd rfl h

end User

instance : UserRep User where
  username := User.username
  hash := User.hash
  day := User.day
  reserved := User.reserved
  strcpyUsername n u := { u with username := n }
  strcpyHash h u := { u with hash := h }
  setDay := User.setDay
  setReserved r u := { u with reserved := r }
  terminated _ := True
  terminated_strcpyUsername _ _ _ := trivial
  terminated_strcpyHash _ _ _ := trivial
  terminated_setDay _ _ _ _ := trivial
  terminated_setReserved _ _ _ := trivial
  username_strcpyUsername _ _ _ := rfl
  username_strcpyHash _ _ _ := rfl
  username_setDay d v u _ := User.username_setDay d v u
  username_setReserved _ _ _ := rfl
  hash_strcpyHash _ _ _ := rfl
  hash_setDay d v u _ := User.hash_setDay d v u
  hash_setReserved _ _ := rfl
  day_setDay_self d v u := User.day_setDay_self d v u
  day_setDay_of_ne _ _ v u h := User.day_setDay_of_ne h v u
  day_setReserved d _ _ := by cases d <;> rfl
  reserved_strcpyUsername _ _ _ := rfl
  reserved_strcpyHash _ _ _ := rfl
  reserved_setDay d v u := User.reserved_setDay d v u
  reserved_setReserved_none _ := rfl
  reserved_setReserved_some_ne_none _ _ := Option.some_ne_none _

namespace User

@[simp] theorem rep_username (u : User) : UserRep.username u = u.username := rfl

@[simp] theorem rep_hash (u : User) : UserRep.hash u = u.hash := rfl

@[simp] theorem rep_day (d : DayField) (u : User) : UserRep.day d u = day d u := rfl

@[simp] theorem rep_reserved (u : User) : UserRep.reserved u = u.reserved := rfl

@[simp] theorem rep_strcpyUsername (n : CString) (u : User) :
    UserRep.strcpyUsername n u = { u with username := n } := rfl

@[simp] theorem rep_strcpyHash (h : CString) (u : User) :
    UserRep.strcpyHash h u = { u with hash := h } := rfl

@[simp] theorem rep_setDay (d : DayField) (v : Int32) (u : User) :
    UserRep.setDay d v u = setDay d v u := rfl

@[simp] theorem rep_setReserved (r : Option CString) (u : User) :
    UserRep.setReserved r u = { u with reserved := r } := rfl

@[simp] theorem rep_terminated (u : User) : UserRep.terminated u := trivial

end User

/-- The fields of a record as values. -/
def UserRep.toUser {ρ : Type} [UserRep ρ] (u : ρ) : User :=
  { username := username u, hash := hash u, dsc := day .dsc u, dcc := day .dcc u,
    dmc := day .dmc u, dw := day .dw u, de := day .de u, dd := day .dd u,
    reserved := reserved u }

/-- A record as the sample backing file has it. -/
def binUser : User :=
  { username := CString.lit "bin", hash := CString.lit "*",
    dsc := 15819, dcc := 0, dmc := 99999, dw := 7, de := 0, dd := 0,
    reserved := none }

end ShadowFs

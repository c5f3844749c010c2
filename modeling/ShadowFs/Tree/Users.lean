import ShadowFs.Tree.Record

/-!
# The user list: `shadowTree.h`

The linked list under `sf->head` is a list of records and a `struct user *`
into it is a position.  `findUser` stops at the first record with the wanted
name, so every lookup, update and deletion acts on the first match only; the
relation `FirstMatch` states this split of the list and the lemmas about each
function are given in terms of it.

What the functions take from outside is an `Env`: the clock, and the block that
`malloc` returns for a new record, with whatever contents it had before.
-/

namespace ShadowFs

open CLib UserRep

/-- Ways in which the C code leaves defined behaviour. -/
inductive Fault where
  | nullPointer
  | bufferOverflow
deriving DecidableEq, Repr

/-- What one request obtains from the C library: `time(NULL)`, the block for a
new record (`none` when `malloc` fails) and whether `malloc(50)` succeeds. -/
structure Env (ρ : Type) where
  time : Int
  block : Option ρ
  buffer : Bool

/-- A request served at the epoch, with every allocation succeeding. -/
def plainEnv : Env User :=
  { time := 0, block := some binUser, buffer := true }

/-- `(int) time(NULL) / 86400`: the cast applies to the time, not to the day. -/
def shadowTime (time : Int) : Int32 :=
  Int32.ofInt time / 86400

section Functions

variable {ρ : Type} [UserRep ρ]

def findUser (sf : List ρ) (name : CString) : Option Nat :=
  sf.findIdx? (fun current => username current = name)

/-- The record a pointer returned by `findUser` designates. -/
def findRecord (sf : List ρ) (name : CString) : Option ρ :=
  (findUser sf name).bind (fun p => sf[p]?)

/-- The assignments that fill the block of a new user. -/
def initUser (env : Env ρ) (name : CString) (u : ρ) : ρ :=
  setReserved none
    (setDay .dd 0
      (setDay .de 0
        (setDay .dw 7
          (setDay .dmc 99999
            (setDay .dcc 0
              (setDay .dsc (shadowTime env.time)
                (strcpyHash (CString.lit "*")
                  (strcpyUsername name u))))))))

def sfTreeAddUser (env : Env ρ) (sf : List ρ) (name : CString) : Int × List ρ :=
  if findUser sf name ≠ none then (-3, sf)
  else
    match env.block with
    | none => (-1, sf)
    | some u =>
        if name.length > 16 then (-2, sf)
        else (0, sf ++ [initUser env name u])

/-- The loop over `del->next`: the list behind `del` after the removal, or
`none` when the loop ends without a match. -/
def deleteNext (name : CString) : List ρ -> Option (List ρ)
  | [] => none
  | temp :: rest =>
      if username temp = name then some rest
      else (deleteNext name rest).map (fun rest' => temp :: rest')

/-- The head is dereferenced before anything else is looked at. -/
def sfTreeDeleteUser (sf : List ρ) (name : CString) :
    Except Fault (Int × List ρ) :=
  match sf with
  | [] => .error .nullPointer
  | del :: next =>
      if username del = name then .ok (0, next)
      else
        match deleteNext name next with
        | some next' => .ok (0, del :: next')
        | none => .ok (-1, del :: next)

/-- The common body of the `update_*` functions: find the user, assign. -/
def updateField (sf : List ρ) (name : CString) (assign : ρ -> ρ) :
    Int × List ρ :=
  match findUser sf name with
  | some cuser => (0, sf.modify cuser assign)
  | none => (-1, sf)

def updateHash (sf : List ρ) (name newhash : CString) : Int × List ρ :=
  match findUser sf name with
  | some cuser =>
      if newhash.length > 32 then (-1, sf)
      else (0, sf.modify cuser (strcpyHash newhash))
  | none => (-1, sf)

def updateDaysSinceChanged (sf : List ρ) (name : CString) (dsc : Int32) :
    Int × List ρ :=
  updateField sf name (setDay .dsc dsc)

def updateDaysUntilCanChange (sf : List ρ) (name : CString) (dcc : Int32) :
    Int × List ρ :=
  updateField sf name (setDay .dcc dcc)

def updateDaysUntilMustChange (sf : List ρ) (name : CString) (dmc : Int32) :
    Int × List ρ :=
  updateField sf name (setDay .dmc dmc)

def updateDaysBeforeWarning (sf : List ρ) (name : CString) (dw : Int32) :
    Int × List ρ :=
  updateField sf name (setDay .dw dw)

def updateDaysUntilExpiration (sf : List ρ) (name : CString) (de : Int32) :
    Int × List ρ :=
  updateField sf name (setDay .de de)

def updateDaysSinceDeactivation (sf : List ρ) (name : CString) (dd : Int32) :
    Int × List ρ :=
  updateField sf name (setDay .dd dd)

/-- What is assigned is a pointer.  The records of `User` and `UserImage` have the text it
leads to, those of `ShadowFs.System.UserMap` the address. -/
def updateReserved (sf : List ρ) (name : CString) (res : Option CString) :
    Int × List ρ :=
  updateField sf name (setReserved res)

end Functions

/-!
## One record of a list
-/

section OneRecord

variable {ρ : Type} {P : ρ -> Prop} {front back : List ρ} {u v : ρ}

theorem forall_mem_replace (h : forall x, x ∈ front ++ u :: back -> P x) (hv : P v) :
    forall x, x ∈ front ++ v :: back -> P x := by
  rw [List.forall_mem_append, List.forall_mem_cons] at h ⊢
  exact ⟨h.1, hv, h.2.2⟩

theorem forall_mem_remove (h : forall x, x ∈ front ++ u :: back -> P x) :
    forall x, x ∈ front ++ back -> P x := by
  rw [List.forall_mem_append, List.forall_mem_cons] at h
  rw [List.forall_mem_append]
  exact ⟨h.1, h.2.2⟩

theorem forall_mem_append_singleton (h : forall x, x ∈ front -> P x) (hv : P v) :
    forall x, x ∈ front ++ [v] -> P x := by
  rw [List.forall_mem_append, List.forall_mem_singleton]
  exact ⟨h, hv⟩

theorem modify_append_cons (front back : List ρ) (u : ρ) (f : ρ -> ρ) :
    (front ++ u :: back).modify front.length f = front ++ f u :: back := by
  induction front with
  | nil => simp
  | cons x front ih => simp [ih]

end OneRecord

/-!
## The first match

`FirstMatch sf name front u back` splits the list at the record that every
function of the file acts on.
-/

section FirstMatch

variable {ρ : Type} [UserRep ρ]

structure FirstMatch (sf : List ρ) (name : CString)
    (front : List ρ) (u : ρ) (back : List ρ) : Prop where
  split : sf = front ++ u :: back
  found : username u = name
  first : forall x, x ∈ front -> username x ≠ name

theorem findUser_eq_none_iff {sf : List ρ} {name : CString} :
    findUser sf name = none <-> forall u, u ∈ sf -> username u ≠ name := by
  simp [findUser, List.findIdx?_eq_none_iff]

theorem FirstMatch.findUser_eq {sf front back : List ρ} {name : CString} {u : ρ}
    (h : FirstMatch sf name front u back) :
    findUser sf name = some front.length := by
  rcases h with ⟨rfl, hfound, hfirst⟩
  induction front with
  | nil => simp [findUser, List.findIdx?_cons, hfound]
  | cons x front ih =>
      have hx : username x ≠ name := hfirst x (by simp)
      have hrest := ih (fun y hy => hfirst y (by simp [hy]))
      unfold findUser at hrest ⊢
      simp [List.findIdx?_cons, hx, hrest]

theorem findUser_cases (sf : List ρ) (name : CString) :
    findUser sf name = none ∨
      exists front u back, FirstMatch sf name front u back := by
  induction sf with
  | nil => exact Or.inl rfl
  | cons x sf ih =>
      by_cases hx : username x = name
      · exact Or.inr ⟨[], x, sf, rfl, hx, by simp⟩
      · cases ih with
        | inl hnone =>
            apply Or.inl
            rw [findUser_eq_none_iff] at hnone ⊢
            intro u hu
            cases hu with
            | head => exact hx
            | tail _ htail => exact hnone u htail
        | inr hsome =>
            rcases hsome with ⟨front, u, back, hsplit, hfound, hfirst⟩
            apply Or.inr
            refine ⟨x :: front, u, back, by rw [hsplit]; rfl, hfound, ?_⟩
            intro y hy
            cases hy with
            | head => exact hx
            | tail _ htail => exact hfirst y htail

theorem exists_firstMatch {sf : List ρ} {name : CString}
    (h : findUser sf name ≠ none) :
    exists front u back, FirstMatch sf name front u back := by
  rcases findUser_cases sf name with hnone | hsome
  · exact absurd hnone h
  · exact hsome

theorem FirstMatch.ne_none {sf front back : List ρ} {name : CString} {u : ρ}
    (h : FirstMatch sf name front u back) : findUser sf name ≠ none := by
  rw [h.findUser_eq]
  simp

theorem FirstMatch.mem {sf front back : List ρ} {name : CString} {u : ρ}
    (h : FirstMatch sf name front u back) : u ∈ sf := by
  rw [h.split]
  simp

theorem FirstMatch.findRecord_eq {sf front back : List ρ} {name : CString}
    {u : ρ} (h : FirstMatch sf name front u back) :
    findRecord sf name = some u := by
  rw [findRecord, h.findUser_eq, h.split]
  simp

theorem findRecord_of_none {sf : List ρ} {name : CString}
    (h : findUser sf name = none) : findRecord sf name = none := by
  rw [findRecord, h]
  rfl

theorem findUser_ne_none_iff_findRecord {sf : List ρ} {name : CString} :
    findUser sf name ≠ none <-> exists u, findRecord sf name = some u := by
  constructor
  · intro h
    rcases exists_firstMatch h with ⟨_, u, _, hm⟩
    exact ⟨u, hm.findRecord_eq⟩
  · rintro ⟨u, hu⟩ hnone
    rw [findRecord_of_none hnone] at hu
    cases hu

theorem findUser_ne_none_of_mem {sf : List ρ} {u : ρ} (hu : u ∈ sf) :
    findUser sf (username u) ≠ none := by
  intro hnone
  exact findUser_eq_none_iff.mp hnone u hu rfl

/-!
## Lookups in a changed list
-/

theorem findRecord_eq_find? (sf : List ρ) (name : CString) :
    findRecord sf name = sf.find? (fun u => username u = name) := by
  rcases findUser_cases sf name with hnone | ⟨front, u, back, hm⟩
  · rw [findRecord_of_none hnone]
    symm
    rw [List.find?_eq_none]
    intro u hu
    simpa using findUser_eq_none_iff.mp hnone u hu
  · have hfront : front.find? (fun u => username u = name) = none := by
      rw [List.find?_eq_none]
      intro x hx
      simpa using hm.first x hx
    rw [hm.findRecord_eq, hm.split, List.find?_append, hfront]
    simp [hm.found]

theorem findRecord_append_of_some {sf : List ρ} {name : CString} {u : ρ}
    (h : findRecord sf name = some u) (more : List ρ) :
    findRecord (sf ++ more) name = some u := by
  rw [findRecord_eq_find?] at h ⊢
  rw [List.find?_append, h]
  rfl

theorem findUser_replace_of_eq (front back : List ρ) {u v : ρ}
    (h : username v = username u) (name : CString) :
    findUser (front ++ v :: back) name = findUser (front ++ u :: back) name := by
  simp [findUser, List.findIdx?_append, List.findIdx?_cons, h]

theorem findUser_replace_of_ne (front back : List ρ) {u v : ρ} {name : CString}
    (hu : username u ≠ name) (hv : username v ≠ name) :
    findUser (front ++ v :: back) name = findUser (front ++ u :: back) name := by
  simp [findUser, List.findIdx?_append, List.findIdx?_cons, hu, hv]

theorem findRecord_replace_of_ne (front back : List ρ) {u v : ρ} {name : CString}
    (hu : username u ≠ name) (hv : username v ≠ name) :
    findRecord (front ++ v :: back) name = findRecord (front ++ u :: back) name := by
  rw [findRecord_eq_find?, findRecord_eq_find?]
  simp [List.find?_append, hu, hv]

theorem findRecord_remove_of_ne (front back : List ρ) {u : ρ} {name : CString}
    (hu : username u ≠ name) :
    findRecord (front ++ back) name = findRecord (front ++ u :: back) name := by
  rw [findRecord_eq_find?, findRecord_eq_find?]
  simp [List.find?_append, hu]

theorem FirstMatch.updateField_eq {sf front back : List ρ} {name : CString}
    {u : ρ} (h : FirstMatch sf name front u back) (assign : ρ -> ρ) :
    updateField sf name assign = (0, front ++ assign u :: back) := by
  simp only [updateField, h.findUser_eq]
  rw [h.split, modify_append_cons]

theorem updateField_of_none {sf : List ρ} {name : CString}
    (h : findUser sf name = none) (assign : ρ -> ρ) :
    updateField sf name assign = (-1, sf) := by
  simp only [updateField, h]

/-- The length check of `update_hash` is the only difference to the others. -/
theorem updateHash_eq_updateField (sf : List ρ) (name : CString)
    {newhash : CString} (hlen : newhash.length ≤ 32) :
    updateHash sf name newhash = updateField sf name (strcpyHash newhash) := by
  have hnot : ¬ newhash.length > 32 := by lia
  simp only [updateHash, updateField, if_neg hnot]

theorem FirstMatch.update {sf front back : List ρ} {name : CString} {u : ρ}
    (h : FirstMatch sf name front u back) {u' : ρ} (hname : username u' = username u) :
    FirstMatch (front ++ u' :: back) name front u' back :=
  { split := rfl
    found := hname.trans h.found
    first := h.first }

/-!
## Adding and deleting
-/

theorem sfTreeAddUser_of_found {sf : List ρ} {name : CString} (env : Env ρ)
    (h : findUser sf name ≠ none) : sfTreeAddUser env sf name = (-3, sf) := by
  simp [sfTreeAddUser, h]

theorem sfTreeAddUser_of_new {sf : List ρ} {name : CString} {env : Env ρ} {u : ρ}
    (hnew : findUser sf name = none) (hblock : env.block = some u)
    (hlen : name.length ≤ 16) :
    sfTreeAddUser env sf name = (0, sf ++ [initUser env name u]) := by
  have hnot : ¬ name.length > 16 := by lia
  simp only [sfTreeAddUser, hnew, hblock, if_neg hnot]
  simp

/-- Either nothing happens and the result is negative, or the name was free and
one record is appended. -/
theorem sfTreeAddUser_cases (env : Env ρ) (sf : List ρ) (name : CString) :
    (exists code : Int, code < 0 ∧ sfTreeAddUser env sf name = (code, sf)) ∨
      (exists u, env.block = some u ∧ findUser sf name = none ∧
        name.length ≤ 16 ∧
        sfTreeAddUser env sf name = (0, sf ++ [initUser env name u])) := by
  by_cases hfound : findUser sf name = none
  · cases hblock : env.block with
    | none =>
        apply Or.inl
        exact ⟨-1, by decide, by simp [sfTreeAddUser, hfound, hblock]⟩
    | some u =>
        by_cases hlen : name.length ≤ 16
        · exact Or.inr ⟨u, rfl, hfound, hlen, sfTreeAddUser_of_new hfound hblock hlen⟩
        · apply Or.inl
          have hgt : name.length > 16 := by lia
          exact ⟨-2, by decide, by simp [sfTreeAddUser, hfound, hblock, hgt]⟩
  · exact Or.inl ⟨-3, by decide, sfTreeAddUser_of_found env hfound⟩

theorem deleteNext_of_split {front back : List ρ} {u : ρ} {name : CString}
    (hfound : username u = name)
    (hfirst : forall x, x ∈ front -> username x ≠ name) :
    deleteNext name (front ++ u :: back) = some (front ++ back) := by
  induction front with
  | nil => simp [deleteNext, hfound]
  | cons x front ih =>
      have hx : username x ≠ name := hfirst x (by simp)
      have hrest := ih (fun y hy => hfirst y (by simp [hy]))
      simp [deleteNext, hx, hrest]

/-- With the name present the deletion unlinks exactly the first match. -/
theorem FirstMatch.sfTreeDeleteUser_eq {sf front back : List ρ}
    {name : CString} {u : ρ} (h : FirstMatch sf name front u back) :
    sfTreeDeleteUser sf name = .ok (0, front ++ back) := by
  rcases h with ⟨rfl, hfound, hfirst⟩
  cases front with
  | nil => simp [sfTreeDeleteUser, hfound]
  | cons x front =>
      have hx : username x ≠ name := hfirst x (by simp)
      have hrest : deleteNext name (front ++ u :: back) = some (front ++ back) :=
        deleteNext_of_split hfound (fun y hy => hfirst y (by simp [hy]))
      simp [sfTreeDeleteUser, hx, hrest]

/-!
## Fields of a new record
-/

theorem terminated_initUser (env : Env ρ) {name : CString} (u : ρ)
    (hlen : name.length ≤ usernameCapacity) :
    terminated (initUser env name u) := by
  unfold initUser
  repeat first
    | apply terminated_setReserved
    | apply terminated_setDay
    | apply terminated_strcpyHash
  exact terminated_strcpyUsername name u hlen

theorem username_initUser (env : Env ρ) {name : CString} (u : ρ)
    (hlen : name.length ≤ usernameCapacity) :
    username (initUser env name u) = name := by
  have h0 := terminated_strcpyUsername name u hlen
  have h1 := terminated_strcpyHash (CString.lit "*") _ h0
  have h2 := terminated_setDay .dsc (shadowTime env.time) _ h1
  have h3 := terminated_setDay .dcc 0 _ h2
  have h4 := terminated_setDay .dmc 99999 _ h3
  have h5 := terminated_setDay .dw 7 _ h4
  have h6 := terminated_setDay .de 0 _ h5
  have h7 := terminated_setDay .dd 0 _ h6
  rw [initUser, username_setReserved _ _ h7, username_setDay _ _ _ h6,
    username_setDay _ _ _ h5, username_setDay _ _ _ h4, username_setDay _ _ _ h3,
    username_setDay _ _ _ h2, username_setDay _ _ _ h1, username_strcpyHash _ _ h0,
    username_strcpyUsername _ _ hlen]

theorem hash_setDay_of_eq {h : CString} (hlen : h.length ≤ hashCapacity) (d : DayField)
    (v : Int32) {u : ρ} (hu : hash u = h) : hash (setDay d v u) = h := by
  rw [hash_setDay d v u (by rw [hu]; exact hlen), hu]

theorem hash_initUser (env : Env ρ) {name : CString} (u : ρ) :
    hash (initUser env name u) = CString.lit "*" := by
  have hstar : (CString.lit "*").length ≤ hashCapacity := by decide
  rw [initUser, hash_setReserved]
  repeat apply hash_setDay_of_eq hstar
  exact hash_strcpyHash _ _ hstar

/-- What `sf_tree_add_user` assigns to the days. -/
def newDays (env : Env ρ) : DayField -> Int32
  | .dsc => shadowTime env.time
  | .dcc => 0
  | .dmc => 99999
  | .dw => 7
  | .de => 0
  | .dd => 0

theorem day_initUser (env : Env ρ) (name : CString) (u : ρ) (d : DayField) :
    day d (initUser env name u) = newDays env d := by
  rw [initUser, day_setReserved]
  cases d <;> simp [day_setDay_self, day_setDay_of_ne, newDays]

end FirstMatch

end ShadowFs

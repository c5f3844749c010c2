import ShadowFs.System.Requests

/-!
# Frame conditions of the callbacks

For records whose string fields are values: a request that fails leaves the
users as they were, and a request that succeeds touches one record at most and
in it only the field its path names.  `Frame` lists what each kind of request
may do.
-/

namespace ShadowFs

open CLib

/-- The members of `struct user` apart from the link. -/
inductive Field where
  | username
  | hash
  | day (d : DayField)
  | reserved
deriving DecidableEq

/-- The records agree in every field that is not touched. -/
structure SameExcept (touched : Field -> Prop) (u v : User) : Prop where
  username : ¬ touched .username -> v.username = u.username
  hash : ¬ touched .hash -> v.hash = u.hash
  day : forall d, ¬ touched (.day d) -> v.day d = u.day d
  reserved : ¬ touched .reserved -> v.reserved = u.reserved

def Attr.field : Attr -> Field
  | .passwordHash => .hash
  | .daysSinceChanged => .day .dsc
  | .daysUntilCanChange => .day .dcc
  | .daysUntilMustChange => .day .dmc
  | .daysBeforeWarning => .day .dw
  | .daysUntilExpiration => .day .de
  | .daysSinceAccountDeactivated => .day .dd
  | .reserved => .reserved

/-- The fields a write may touch: a new password also stamps `dsc`. -/
def writeFields (attr : Option Attr) (f : Field) : Prop :=
  exists a, attr = some a ∧ (f = a.field ∨ (a = .passwordHash ∧ f = .day .dsc))

def unlinkFields (attr : Option Attr) (f : Field) : Prop :=
  exists a, attr = some a ∧ f = a.field

/-- One record is replaced, and agrees with the old one except in `touched`. -/
def OneRecord (touched : Field -> Prop) (name : CString) (sf sf' : List User) : Prop :=
  exists front u v back, sf = front ++ u :: back ∧ sf' = front ++ v :: back ∧
    u.username = name ∧ SameExcept touched u v

/-- What a successful request may do to the users. -/
def Frame (req : Request) (sf sf' : List User) : Prop :=
  match req with
  | .getattr _ | .readdir _ | .openFile _ | .read .. | .truncate .. => sf' = sf
  | .mkdir path => exists u, u.username = path.name ∧ sf' = sf ++ [u]
  | .rmdir path =>
      exists front u back, u.username = path.name ∧
        sf = front ++ u :: back ∧ sf' = front ++ back
  | .rename source _ => OneRecord (fun f => f = .username) source.name sf sf'
  | .write path .. =>
      OneRecord (writeFields (attrOf (attrText path.name))) (headName path.name) sf sf'
  | .unlink path =>
      OneRecord (unlinkFields (attrOf (attrText path.name))) (headName path.name) sf sf'
  | .mknod path => OneRecord (fun f => f = .reserved) (headName path.name) sf sf'

/-!
## One edit
-/

theorem sameExcept_setDay (d : DayField) (v : Int32) (u : User)
    {touched : Field -> Prop} (hd : touched (.day d)) :
    SameExcept touched u (User.setDay d v u) := by
  constructor
  · intro _
    exact User.username_setDay d v u
  · intro _
    exact User.hash_setDay d v u
  · intro e he
    have hne : e ≠ d := by
      intro h
      rw [h] at he
      exact he hd
    exact User.day_setDay_of_ne hne v u
  · intro _
    exact User.reserved_setDay d v u

theorem User.day_with_hash (d : DayField) (h : CString) (u : User) :
    User.day d { u with hash := h } = User.day d u := by
  cases d <;> rfl

theorem User.day_with_username (d : DayField) (n : CString) (u : User) :
    User.day d { u with username := n } = User.day d u := by
  cases d <;> rfl

theorem User.day_with_reserved (d : DayField) (r : Option CString) (u : User) :
    User.day d { u with reserved := r } = User.day d u := by
  cases d <;> rfl

theorem sameExcept_hash (h : CString) (u : User) {touched : Field -> Prop}
    (hh : touched .hash) : SameExcept touched u { u with hash := h } := by
  constructor
  · intro _
    rfl
  · intro hnot
    exact absurd hh hnot
  · intro d _
    exact User.day_with_hash d h u
  · intro _
    rfl

theorem sameExcept_username (n : CString) (u : User) {touched : Field -> Prop}
    (hn : touched .username) : SameExcept touched u { u with username := n } := by
  constructor
  · intro hnot
    exact absurd hn hnot
  · intro _
    rfl
  · intro d _
    exact User.day_with_username d n u
  · intro _
    rfl

theorem sameExcept_reserved (r : Option CString) (u : User)
    {touched : Field -> Prop} (hr : touched .reserved) :
    SameExcept touched u { u with reserved := r } := by
  constructor
  · intro _
    rfl
  · intro _
    rfl
  · intro d _
    exact User.day_with_reserved d r u
  · intro hnot
    exact absurd hr hnot

theorem SameExcept.refl (touched : Field -> Prop) (u : User) :
    SameExcept touched u u :=
  ⟨fun _ => rfl, fun _ => rfl, fun _ _ => rfl, fun _ => rfl⟩

theorem SameExcept.trans {touched : Field -> Prop} {u v w : User}
    (huv : SameExcept touched u v) (hvw : SameExcept touched v w) :
    SameExcept touched u w := by
  constructor
  · intro h
    exact (hvw.username h).trans (huv.username h)
  · intro h
    exact (hvw.hash h).trans (huv.hash h)
  · intro d h
    exact (hvw.day d h).trans (huv.day d h)
  · intro h
    exact (hvw.reserved h).trans (huv.reserved h)

theorem writeEdit_sameExcept (env : Env User) (attr : Option Attr) (buf : CBuffer)
    (u : User) : SameExcept (writeFields attr) u (writeEdit env attr buf u) := by
  cases attr with
  | none => exact SameExcept.refl _ u
  | some attr =>
      have hown : writeFields (some attr) attr.field := ⟨attr, rfl, Or.inl rfl⟩
      cases attr with
      | passwordHash =>
          have hstamp : writeFields (some Attr.passwordHash) (.day .dsc) :=
            ⟨.passwordHash, rfl, Or.inr ⟨rfl, rfl⟩⟩
          exact (sameExcept_hash _ u hown).trans (sameExcept_setDay .dsc _ _ hstamp)
      | reserved => exact sameExcept_reserved _ u hown
      | _ => exact sameExcept_setDay _ _ u hown

theorem unlinkEdit_sameExcept (env : Env User) (attr : Option Attr) (u : User) :
    SameExcept (unlinkFields attr) u (unlinkEdit env attr u) := by
  cases attr with
  | none => exact SameExcept.refl _ u
  | some attr =>
      have hown : unlinkFields (some attr) attr.field := ⟨attr, rfl, rfl⟩
      cases attr with
      | passwordHash => exact sameExcept_hash _ u hown
      | reserved => exact sameExcept_reserved _ u hown
      | _ => exact sameExcept_setDay _ _ u hown

/-!
## All callbacks
-/

theorem framed_of_nonneg {req : Request} {sf sf' : List User} {result : Int}
    (hresult : 0 ≤ result) (h : Frame req sf sf') :
    (result < 0 -> sf' = sf) ∧ (0 ≤ result -> Frame req sf sf') := by
  constructor
  · intro hneg
    exact absurd hneg (Int.not_lt.mpr hresult)
  · intro _
    exact h

theorem AttrEdit.frame {env : Env User} {name : CString} {req : Request} {result : Int}
    {assign : User -> User} (h : AttrEdit env name req result assign)
    {sf front back : List User} {u : User} (hm : FirstMatch sf (headName name) front u back) :
    Frame req sf (front ++ assign u :: back) := by
  cases h with
  | write hname =>
      subst hname
      exact ⟨front, u, _, back, hm.split, rfl, hm.found, writeEdit_sameExcept env _ _ u⟩
  | unlink hname =>
      subst hname
      exact ⟨front, u, _, back, hm.split, rfl, hm.found, unlinkEdit_sameExcept env _ u⟩
  | mknod hname =>
      subst hname
      exact ⟨front, u, _, back, hm.split, rfl, hm.found, sameExcept_reserved _ u rfl⟩

/-- An attribute operation that reaches its record does not report an error. -/
theorem AttrEdit.result_nonneg {env : Env User} {name : CString} {req : Request}
    {result : Int} {assign : User -> User} (h : AttrEdit env name req result assign)
    (hsize : forall path buf size offset,
      req = .write path buf size offset -> size < 2 ^ 31) : 0 ≤ result := by
  cases h with
  | write _ => exact toInt_nonneg (hsize _ _ _ _ rfl)
  | unlink _ => exact Int.le_refl 0
  | mknod _ => exact Int.le_refl 0

/-- A failed request leaves the users as they were; a successful one does what
`Frame` allows. -/
theorem serve_frame (env : Env User) (p p' : Process User) (req : Request)
    (reply : Reply)
    (hsize : forall path buf size offset,
      req = .write path buf size offset -> size < 2 ^ 31)
    (h : serve env p req = .ok (reply, p')) :
    (reply.result < 0 -> p'.root = p.root) ∧
      (0 ≤ reply.result -> Frame req p.root p'.root) := by
  have heffect := serve_effect (fun u _ => User.rep_terminated u) h
  generalize reply.result = result at heffect
  generalize p'.root = sf' at heffect
  cases heffect with
  | query hquery =>
      constructor
      · intro _
        rfl
      · intro _
        cases req <;> first | exact hquery.elim | rfl
  | refused hneg =>
      constructor
      · intro _
        rfl
      · intro hnonneg
        exact absurd hneg (Int.not_lt.mpr hnonneg)
  | append hblock hnone hlen =>
      apply framed_of_nonneg (Int.le_refl 0)
      exact ⟨_, rfl, rfl⟩
  | remove hm =>
      apply framed_of_nonneg (Int.le_refl 0)
      exact ⟨_, _, _, hm.found, hm.split, rfl⟩
  | rename hm =>
      apply framed_of_nonneg (Int.le_refl 0)
      exact ⟨_, _, _, _, hm.split, rfl, hm.found, sameExcept_username _ _ rfl⟩
  | edit hedit hreach hm =>
      exact framed_of_nonneg (hedit.result_nonneg hsize) (hedit.frame hm)

def warningWrite : Request :=
  .write (Path.of (CString.lit "bin/days_before_warning") [])
    (CBuffer.ofCString (CString.lit "9") []) 1 0

theorem serve_frame_warningWrite :
    exists reply,
      serve plainEnv (plainProcess [binUser]) warningWrite =
          .ok (reply, plainProcess [{ binUser with dw := 9 }]) ∧
        Frame warningWrite [binUser] [{ binUser with dw := 9 }] := by
  have hserve : serve plainEnv (plainProcess [binUser]) warningWrite =
      .ok ({ result := 1 }, plainProcess [{ binUser with dw := 9 }]) := rfl
  refine ⟨{ result := 1 }, hserve, ?_⟩
  refine (serve_frame _ _ _ _ _ ?_ hserve).2 (by decide)
  intro path buf size offset hreq
  cases hreq
  decide

end ShadowFs

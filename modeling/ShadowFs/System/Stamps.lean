import ShadowFs.Callbacks.HashField
import ShadowFs.System.Requests

/-!
# Stamping the day of the last change

Three requests store the current day in `dsc`: creating a user, writing a password and
removing `days_since_changed`.  They all take it from `shadow_time`, which casts the time to
`int` before it divides.  The day is right up to the last second an `int` can count and
wrong on every later day, on which it is negative or too small.

`stamps` collects what the requests of a run stamp, each stamp as it is read from the record
after the request.
-/

namespace ShadowFs

open CLib UserRep

/-!
## The day of a time
-/

theorem shadowTime_toInt (t : Int) : (shadowTime t).toInt = (t.bmod (2 ^ 32)).tdiv 86400 := by
  have hdivisor : (86400 : Int32).toInt = 86400 := by decide
  rw [shadowTime, Int32.toInt_div_of_ne_right _ _ (by decide), Int32.toInt_ofInt, hdivisor]
  rfl

theorem shadowTime_bounds (t : Int) :
    -24855 ≤ (shadowTime t).toInt ∧ (shadowTime t).toInt ≤ 24855 := by
  have hlow : -(2 ^ 31) ≤ t.bmod (2 ^ 32) := Int.le_bmod (by decide)
  have hhigh : t.bmod (2 ^ 32) < 2 ^ 31 := Int.bmod_lt (by decide)
  rw [shadowTime_toInt]
  generalize t.bmod (2 ^ 32) = x at hlow hhigh ⊢
  by_cases hx : 0 ≤ x
  · rw [Int.tdiv_eq_ediv_of_nonneg hx]
    lia
  · rw [← Int.neg_neg x, Int.neg_tdiv, Int.tdiv_eq_ediv_of_nonneg (by lia)]
    lia

/-- The day is right exactly for the times that fit an `int` themselves. -/
theorem shadowTime_eq_iff {t : Int} (hlow : 0 ≤ t) :
    (shadowTime t).toInt = t / 86400 <-> t < 2 ^ 31 := by
  rw [shadowTime_toInt, Int.bmod_def]
  constructor
  · intro h
    by_contra hlate
    split at h
    · rw [Int.tdiv_eq_ediv_of_nonneg (by lia)] at h
      lia
    · -- a time that wraps to a negative number
      have hneg : (t % (2 ^ 32 : Nat) - (2 ^ 32 : Nat)).tdiv 86400 ≤ 0 := by
        rw [← Int.neg_neg (t % (2 ^ 32 : Nat) - (2 ^ 32 : Nat)), Int.neg_tdiv]
        have hpos := Int.tdiv_nonneg
          (by lia : 0 ≤ -(t % (2 ^ 32 : Nat) - (2 ^ 32 : Nat))) (by decide : (0 : Int) ≤ 86400)
        lia
      lia
  · intro hearly
    have hfits : t % (2 ^ 32 : Nat) = t := Int.emod_eq_of_lt hlow (by lia)
    rw [hfits, if_pos (by lia), Int.tdiv_eq_ediv_of_nonneg hlow]

/-!
## The stamps of a run
-/

/-- The position of the record a request stamps, if it stamps one. -/
def stamped (call : Env UserImage × Request) (p : Process UserImage) : Option Nat :=
  match call.2 with
  | .mkdir path =>
      if Accepts call.1 p.root path.name then some p.root.length else none
  | .write path _ _ _ =>
      if Reaches p.root path.name ∧ attrOf (attrText path.name) = some .passwordHash then
        findUser p.root (headName path.name)
      else none
  | .unlink path =>
      if Reaches p.root path.name ∧ attrOf (attrText path.name) = some .daysSinceChanged then
        findUser p.root (headName path.name)
      else none
  | _ => none

/-- A record was stamped at some time with some day. -/
structure Stamp where
  user : CString
  time : Int
  dsc : Int32
deriving DecidableEq

/-- The stamp as it stands in the record after the request. -/
def stampOf (call : Env UserImage × Request) (p p' : Process UserImage) : Option Stamp :=
  ((stamped call p).bind (fun i => p'.root[i]?)).map
    (fun u => { user := u.username, time := call.1.time, dsc := u.day .dsc })

def stamps : List (Env UserImage × Request) -> Process UserImage -> List Stamp
  | [], _ => []
  | call :: calls, p =>
      match serveStep call p with
      | .error _ => []
      | .ok p' => (stampOf call p p').toList ++ stamps calls p'

theorem getElem?_front_length {α : Type} (front back : List α) (a : α) :
    (front ++ a :: back)[front.length]? = some a := by
  simp

theorem stampOf_of_stamped {call : Env UserImage × Request} {p p' : Process UserImage}
    (hstep : serveStep call p = .ok p') {i : Nat} (h : stamped call p = some i) :
    exists user, stampOf call p p' =
      some { user := user, time := call.1.time, dsc := shadowTime call.1.time } := by
  -- enough that the record at the position has the day
  suffices hrecord : exists u, p'.root[i]? = some u ∧ day .dsc u = shadowTime call.1.time by
    rcases hrecord with ⟨u, hu, hday⟩
    refine ⟨u.username, ?_⟩
    rw [stampOf, h, Option.bind_some, hu, Option.map_some, ← hday]
    rfl
  rcases call with ⟨env, req⟩
  cases req with
  | mkdir path =>
      cases hstep
      simp only [stamped] at h
      split at h
      · rename_i haccepts
        cases h
        rcases shMkdir_of_accepts haccepts with ⟨block, _, hmkdir⟩
        refine ⟨initUser env path.name block, ?_, day_initUser env path.name block .dsc⟩
        rw [hmkdir]
        exact getElem?_front_length _ _ _
      · cases h
  | write path buf size offset =>
      cases hstep
      simp only [stamped] at h
      split at h
      · rename_i hfile
        rcases hfile.1.exists_firstMatch with ⟨front, u, back, hm⟩
        rw [hm.findUser_eq] at h
        cases h
        refine ⟨writeEdit env (some .passwordHash) buf u, ?_, day_setDay_self .dsc _ _⟩
        rw [shWrite_of_reaches hfile.1,
          hm.writeAttr_eq (UserImage.terminated_of_headName hm), hfile.2]
        exact getElem?_front_length _ _ _
      · cases h
  | unlink path =>
      cases hstep
      simp only [stamped] at h
      split at h
      · rename_i hfile
        rcases hfile.1.exists_firstMatch with ⟨front, u, back, hm⟩
        rw [hm.findUser_eq] at h
        cases h
        refine ⟨unlinkEdit env (some .daysSinceChanged) u, ?_, day_setDay_self .dsc _ _⟩
        rw [shUnlink_of_reaches hfile.1, hm.unlinkAttr_eq, hfile.2]
        exact getElem?_front_length _ _ _
      · cases h
  | _ => cases h

theorem stamps_of_error {call : Env UserImage × Request} {p : Process UserImage} {fault : Fault}
    (hstep : serveStep call p = .error fault) (calls : List (Env UserImage × Request)) :
    stamps (call :: calls) p = [] := by
  rw [stamps, hstep]

theorem stamps_of_none {call : Env UserImage × Request} {p p' : Process UserImage}
    (hstep : serveStep call p = .ok p') (h : stamped call p = none)
    (calls : List (Env UserImage × Request)) :
    stamps (call :: calls) p = stamps calls p' := by
  rw [stamps, hstep]
  simp only [stampOf, h]
  rfl

theorem stamps_of_some {call : Env UserImage × Request} {p p' : Process UserImage}
    (hstep : serveStep call p = .ok p') {i : Nat} (h : stamped call p = some i)
    (calls : List (Env UserImage × Request)) :
    exists user, stamps (call :: calls) p =
      { user := user, time := call.1.time, dsc := shadowTime call.1.time } ::
        stamps calls p' := by
  rcases stampOf_of_stamped hstep h with ⟨user, hstamp⟩
  refine ⟨user, ?_⟩
  rw [stamps, hstep]
  simp only [hstamp]
  rfl

theorem stamps_time_sublist (calls : List (Env UserImage × Request))
    (p : Process UserImage) :
    ((stamps calls p).map Stamp.time).Sublist (calls.map (fun call => call.1.time)) := by
  induction calls generalizing p with
  | nil => exact List.Sublist.slnil
  | cons call calls ih =>
      cases hstep : serveStep call p with
      | error fault =>
          rw [stamps_of_error hstep]
          exact List.nil_sublist _
      | ok p' =>
          cases hat : stamped call p with
          | none =>
              rw [stamps_of_none hstep hat]
              exact (ih p').cons _
          | some i =>
              rcases stamps_of_some hstep hat calls with ⟨user, hstamps⟩
              rw [hstamps]
              exact (ih p').cons_cons _

/-!
## Right stamps
-/

/-- A request stamps no record, or stamps it while the time fits an `int`. -/
def StampsInTime (call : Env UserImage × Request) (p : Process UserImage) : Prop :=
  stamped call p ≠ none -> call.1.time < 2 ^ 31

/-- The stamps are the days of their times and, for each user, do not go back. -/
structure RightStamps (calls : List (Env UserImage × Request)) (p : Process UserImage) :
    Prop where
  right : forall s, s ∈ stamps calls p -> s.dsc.toInt = s.time / 86400
  nonneg : forall s, s ∈ stamps calls p -> 0 ≤ s.dsc.toInt
  monotone : forall user, ((stamps calls p).filter (fun s => s.user = user)).Pairwise
    (fun s t => s.dsc.toInt ≤ t.dsc.toInt)

/-- The run: each request in turn stamps nothing or the right day. -/
theorem stamps_right_iff (calls : List (Env UserImage × Request)) (p : Process UserImage)
    (hclock : forall call, call ∈ calls -> 0 ≤ call.1.time) :
    (forall s, s ∈ stamps calls p -> s.dsc.toInt = s.time / 86400) <->
      Library.Guarded serveStep StampsInTime calls p := by
  induction calls generalizing p with
  | nil => exact ⟨fun _ => trivial, fun _ s hs => absurd hs List.not_mem_nil⟩
  | cons call calls ih =>
      rw [List.forall_mem_cons] at hclock
      cases hstep : serveStep call p with
      | error fault =>
          have hidle : StampsInTime call p := by
            intro hstamped
            rcases call with ⟨env, req⟩
            cases req with
            | rmdir path => exact absurd rfl hstamped
            | mknod path => exact absurd rfl hstamped
            | _ => cases hstep
          rw [stamps_of_error hstep]
          refine ⟨fun _ => ⟨hidle, ?_⟩, fun _ s hs => absurd hs List.not_mem_nil⟩
          intro p' hp'
          rw [hstep] at hp'
          cases hp'
      | ok p' =>
          rw [Library.guarded_cons_iff hstep, ← ih p' hclock.2]
          cases hat : stamped call p with
          | none =>
              have hidle : StampsInTime call p := fun hstamped => absurd hat hstamped
              rw [stamps_of_none hstep hat]
              exact ⟨fun h => ⟨hidle, h⟩, fun h => h.2⟩
          | some i =>
              rcases stamps_of_some hstep hat calls with ⟨user, hstamps⟩
              rw [hstamps, List.forall_mem_cons, shadowTime_eq_iff hclock.1, StampsInTime, hat]
              simp

/-- In a run with a clock that does not go back, the stamps are right, not negative and for
each user in order if and only if every stamp is made while the time fits an `int`. -/
theorem rightStamps_iff (calls : List (Env UserImage × Request)) (p : Process UserImage)
    (hclock : forall call, call ∈ calls -> 0 ≤ call.1.time)
    (hforward : (calls.map (fun call => call.1.time)).Pairwise (fun t t' => t ≤ t')) :
    RightStamps calls p <-> Library.Guarded serveStep StampsInTime calls p := by
  rw [← stamps_right_iff calls p hclock]
  constructor
  · exact fun h => h.right
  · intro hright
    have hsub := stamps_time_sublist calls p
    refine ⟨hright, ?_, ?_⟩
    · intro s hs
      have htime := hsub.subset (List.mem_map_of_mem hs)
      rcases List.mem_map.mp htime with ⟨call, hcall, hsame⟩
      have hpos := hclock call hcall
      rw [hsame] at hpos
      rw [hright s hs]
      exact Int.ediv_nonneg hpos (by decide)
    · intro user
      have htimes : (stamps calls p).Pairwise (fun s t => s.time ≤ t.time) :=
        List.pairwise_map.mp (hforward.sublist hsub)
      have hdays : (stamps calls p).Pairwise (fun s t => s.dsc.toInt ≤ t.dsc.toInt) := by
        refine htimes.imp_of_mem ?_
        intro s t hs ht hle
        rw [hright s hs, hright t ht]
        exact Int.ediv_le_ediv (by decide) hle
      exact hdays.filter _

def stampCalls (created reset : Int) : List (Env UserImage × Request) :=
  [({ UserImage.calmEnv with time := created }, .mkdir (Path.of (CString.lit "bin") [])),
    ({ UserImage.calmEnv with time := reset },
      .unlink (Path.of (CString.lit "bin/days_since_changed") []))]

theorem rightStamps_stampCalls :
    (stamps (stampCalls 1366761600 1366848000) (imageProcess [])).length = 2 ∧
      RightStamps (stampCalls 1366761600 1366848000) (imageProcess []) := by
  refine ⟨by decide, ?_⟩
  refine (rightStamps_iff _ (imageProcess []) ?_ (by decide)).mpr ?_
  · intro call hcall
    simp only [stampCalls, List.mem_cons, List.not_mem_nil, or_false] at hcall
    rcases hcall with rfl | rfl
    · exact (by decide : (0 : Int) ≤ 1366761600)
    · exact (by decide : (0 : Int) ≤ 1366848000)
  · refine ⟨fun _ => ?_, fun p _ => ⟨fun _ => ?_, fun _ _ => trivial⟩⟩
    · exact (by decide : (1366761600 : Int) < 2 ^ 31)
    · exact (by decide : (1366848000 : Int) < 2 ^ 31)

/-- One second later than an `int` can count the day is negative. -/
theorem not_rightStamps_late :
    stamps (stampCalls (2 ^ 31 - 1) (2 ^ 31)) (imageProcess []) =
        [{ user := CString.lit "bin", time := 2 ^ 31 - 1, dsc := 24855 },
          { user := CString.lit "bin", time := 2 ^ 31, dsc := -24855 }] ∧
      ¬ RightStamps (stampCalls (2 ^ 31 - 1) (2 ^ 31)) (imageProcess []) := by
  have hstamps : stamps (stampCalls (2 ^ 31 - 1) (2 ^ 31)) (imageProcess []) =
      [{ user := CString.lit "bin", time := 2 ^ 31 - 1, dsc := 24855 },
        { user := CString.lit "bin", time := 2 ^ 31, dsc := -24855 }] := by decide
  refine ⟨hstamps, ?_⟩
  intro h
  have hlate := h.nonneg { user := CString.lit "bin", time := 2 ^ 31, dsc := -24855 }
    (by rw [hstamps]; simp)
  exact absurd hlate (by decide)

end ShadowFs

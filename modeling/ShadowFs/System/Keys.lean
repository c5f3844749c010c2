import ShadowFs.Callbacks.HashField
import ShadowFs.System.Requests

/-!
# User names as keys

A user name is a directory name, the key of every lookup and the first field of a
line, so it must not be empty, overlong or contain a slash, a colon or a newline.
The names of a store come from `sh_mkdir` and `sh_rename`, which take the whole
path behind the first slash.  `sf_tree_add_user` accepts one byte more than the
array has room for, `sh_rename` checks nothing, and neither looks at the
characters.  The names stay valid exactly in the runs whose requests bring valid
names themselves.

The records are byte images: a name that fills `username[16]` runs on into the
hash and reads as more than it was.
-/

namespace ShadowFs

open CLib UserImage

/-- A name that can serve as directory name, key and field of a line. -/
structure ValidKey (name : CString) : Prop where
  nonempty : name.bytes ≠ []
  fits : name.length ≤ 15
  noSlash : slash ∉ name.bytes
  noColon : colon ∉ name.bytes
  noNewline : newline ∉ name.bytes

instance (name : CString) : Decidable (ValidKey name) :=
  decidable_of_iff
    (name.bytes ≠ [] ∧ name.length ≤ 15 ∧ slash ∉ name.bytes ∧ colon ∉ name.bytes ∧
      newline ∉ name.bytes)
    ⟨fun h => ⟨h.1, h.2.1, h.2.2.1, h.2.2.2.1, h.2.2.2.2⟩,
      fun h => ⟨h.nonempty, h.fits, h.noSlash, h.noColon, h.noNewline⟩⟩

def Keyed (p : Process UserImage) : Prop :=
  forall u, u ∈ p.root -> ValidKey u.username

/-- The request brings no invalid name into the store: a name that `sh_mkdir` accepts
and the new name of a user that is there are valid keys. -/
def BringsKeys (call : Env UserImage × Request) (p : Process UserImage) : Prop :=
  match call.2 with
  | .mkdir path => Accepts call.1 p.root path.name -> ValidKey path.name
  | .rename source target =>
      findUser p.root source.name ≠ none -> ValidKey target.name
  | _ => True

/-!
## Names that were stored
-/

namespace UserImage

theorem terminated_strcpyHash_iff (h : CString) (u : UserImage) :
    Terminated (strcpyHash h u) <-> Terminated u := by
  have htake : (strcpyHash h u).bytes.take 16 = u.bytes.take 16 :=
    poke_take_of_le _ (by rw [u.size]; decide) (Nat.le_refl 16)
  rw [terminated_iff, terminated_iff, htake]

theorem terminated_setDay_iff (d : DayField) (v : Int32) (u : UserImage) :
    Terminated (setDay d v u) <-> Terminated u := by
  have hlow := le_dayOffset d
  have hhigh := dayOffset_le d
  have htake : (setDay d v u).bytes.take 16 = u.bytes.take 16 :=
    poke_take_of_le _ (by rw [u.size]; lia) (by lia)
  rw [terminated_iff, terminated_iff, htake]

theorem terminated_setReserved_iff (r : Option CString) (u : UserImage) :
    Terminated (UserRep.setReserved r u) <-> Terminated u :=
  Iff.rfl

theorem terminated_initUser_iff (env : Env UserImage) (name : CString) (u : UserImage) :
    Terminated (initUser env name u) <-> name.length ≤ 15 := by
  have h0 := terminated_strcpyUsername_iff name u
  have h1 := (terminated_strcpyHash_iff (CString.lit "*") _).trans h0
  have h2 := (terminated_setDay_iff .dsc (shadowTime env.time) _).trans h1
  have h3 := (terminated_setDay_iff .dcc 0 _).trans h2
  have h4 := (terminated_setDay_iff .dmc 99999 _).trans h3
  have h5 := (terminated_setDay_iff .dw 7 _).trans h4
  have h6 := (terminated_setDay_iff .de 0 _).trans h5
  have h7 := (terminated_setDay_iff .dd 0 _).trans h6
  rw [initUser, terminated_setReserved_iff]
  exact h7

end UserImage

/-- A stored name reads as a valid key if and only if it is one. -/
theorem validKey_stored_iff {name : CString} {u : UserImage}
    (hterm : Terminated u <-> name.length ≤ 15)
    (hname : name.length ≤ 15 -> u.username = name) :
    ValidKey u.username <-> ValidKey name := by
  constructor
  · intro h
    have hlen := hterm.mp h.fits
    rw [hname hlen] at h
    exact h
  · intro h
    rw [hname h.fits]
    exact h

theorem validKey_initUser_iff (env : Env UserImage) (name : CString) (u : UserImage) :
    ValidKey (initUser env name u).username <-> ValidKey name :=
  validKey_stored_iff (terminated_initUser_iff env name u) (username_initUser env u)

theorem validKey_strcpyUsername_iff (name : CString) (u : UserImage) :
    ValidKey (strcpyUsername name u).username <-> ValidKey name :=
  validKey_stored_iff (terminated_strcpyUsername_iff name u)
    (username_strcpyUsername u)

/-!
## One request
-/

theorem keyed_mkdir_iff {env : Env UserImage} {path : Path} {p p' : Process UserImage}
    (h : Keyed p) (hstep : serveStep (env, .mkdir path) p = .ok p') :
    BringsKeys (env, .mkdir path) p <-> Keyed p' := by
  have hroot : p'.root = (shMkdir env p.root path).2 := by
    cases hstep
    rfl
  by_cases haccepts : Accepts env p.root path.name
  · rcases shMkdir_of_accepts haccepts with ⟨u, _, hmkdir⟩
    have hkeyed : Keyed p' <-> ValidKey path.name := by
      rw [← validKey_initUser_iff env path.name u, Keyed, hroot, hmkdir]
      constructor
      · intro hall
        exact hall _ (by simp)
      · intro hnew
        exact forall_mem_append_singleton h hnew
    rw [hkeyed]
    exact ⟨fun hbrings => hbrings haccepts, fun hvalid _ => hvalid⟩
  · rw [shMkdir_of_not_accepts haccepts] at hroot
    have hkept : Keyed p' := by
      rw [Keyed, hroot]
      exact h
    exact iff_of_true (fun hacc => absurd hacc haccepts) hkept

theorem keyed_rename_iff {env : Env UserImage} {source target : Path}
    {p p' : Process UserImage} (h : Keyed p)
    (hstep : serveStep (env, .rename source target) p = .ok p') :
    BringsKeys (env, .rename source target) p <-> Keyed p' := by
  have hroot : p'.root = (shRename p.root source target).2 := by
    cases hstep
    rfl
  rcases findUser_cases p.root source.name with hnone | ⟨front, u, back, hm⟩
  · rw [shRename_of_none hnone] at hroot
    have hkept : Keyed p' := by
      rw [Keyed, hroot]
      exact h
    exact iff_of_true (fun hfound => absurd hnone hfound) hkept
  · have hsplit : forall v, v ∈ front ++ u :: back -> ValidKey v.username := by
      rw [← hm.split]
      exact h
    have hkeyed : Keyed p' <-> ValidKey target.name := by
      rw [← validKey_strcpyUsername_iff target.name u, Keyed, hroot, hm.shRename_eq]
      constructor
      · intro hall
        exact hall _ (by simp; exact Or.inr (Or.inl rfl))
      · intro hnew
        exact forall_mem_replace hsplit hnew
    rw [hkeyed]
    exact ⟨fun hbrings => hbrings hm.ne_none, fun hvalid _ => hvalid⟩

theorem Keyed.other {call : Env UserImage × Request} {p p' : Process UserImage}
    (h : Keyed p) (hmkdir : forall path, call.2 ≠ .mkdir path)
    (hrename : forall source target, call.2 ≠ .rename source target)
    (hstep : serveStep call p = .ok p') : Keyed p' := by
  rcases call with ⟨env, req⟩
  have hterm : forall u, u ∈ p.root -> UserRep.terminated u := fun u hu => (h u hu).fits
  rcases serveStep_effect hterm hstep with ⟨result, heffect⟩
  unfold Keyed at h ⊢
  generalize p'.root = sf' at heffect ⊢
  cases heffect with
  | query _ => exact h
  | refused _ => exact h
  | append _ _ _ => exact absurd rfl (hmkdir _)
  | remove hm =>
      rw [hm.split] at h
      exact forall_mem_remove h
  | rename _ => exact absurd rfl (hrename _ _)
  | edit hedit _ hm =>
      have hname := congrArg ValidKey (hedit.username_eq (hterm _ hm.mem))
      have hkey := hname.mpr (h _ hm.mem)
      rw [hm.split] at h
      exact forall_mem_replace h hkey

theorem keyed_step_iff {call : Env UserImage × Request} {p p' : Process UserImage}
    (h : Keyed p) (hstep : serveStep call p = .ok p') : BringsKeys call p <-> Keyed p' := by
  rcases call with ⟨env, req⟩
  cases req with
  | mkdir path => exact keyed_mkdir_iff h hstep
  | rename source target => exact keyed_rename_iff h hstep
  | _ => exact iff_of_true trivial (h.other (by simp) (by simp) hstep)

theorem bringsKeys_of_fault {call : Env UserImage × Request} {p : Process UserImage}
    {fault : Fault} (hstep : serveStep call p = .error fault) : BringsKeys call p := by
  rcases call with ⟨env, req⟩
  cases req with
  | mkdir path => cases hstep
  | rename source target => cases hstep
  | _ => exact trivial

/-!
## Runs
-/

/-- From a store with valid names, the names are valid in every state of a run if and
only if no request of the run brings in an invalid one. -/
theorem keyed_always_iff (start : Process UserImage) (hstart : Keyed start)
    (calls : List (Env UserImage × Request)) :
    Library.Always serveStep Keyed calls start <->
      Library.Guarded serveStep BringsKeys calls start := by
  apply Library.always_iff_guarded (Q := fun _ => True) (J := fun _ => True)
  · intro _ _ _ _ _ _
    trivial
  · intro call p p' _ _ h hstep
    exact keyed_step_iff h hstep
  · intro call p fault hstep
    exact bringsKeys_of_fault hstep
  · intro _ _
    trivial
  · trivial
  · exact hstart

theorem keyed_nil : Keyed (imageProcess []) :=
  fun _ hu => absurd hu List.not_mem_nil

def renameCalls (name target : CString) : List (Env UserImage × Request) :=
  [(calmEnv, .mkdir (Path.of name [])),
    (calmEnv, .rename (Path.of name []) (Path.of target []))]

theorem keyed_renameCalls :
    Library.Always serveStep Keyed (renameCalls (CString.lit "bin") (CString.lit "sys"))
      (imageProcess []) := by
  refine (keyed_always_iff (imageProcess []) keyed_nil _).mpr ?_
  refine ⟨?_, fun q _ => ⟨?_, fun _ _ => trivial⟩⟩
  · intro _
    exact (by decide : ValidKey (Path.of (CString.lit "bin") []).name)
  · intro _
    exact (by decide : ValidKey (Path.of (CString.lit "sys") []).name)

/-- `sh_mkdir("/a/b")` makes a user whose name no path can reach. -/
theorem not_keyed_nested :
    Keyed (imageProcess []) ∧
      exists p, serveAll [(calmEnv, .mkdir (Path.of (CString.lit "a/b") []))]
          (imageProcess []) = .ok p ∧ ¬ Keyed p := by
  have hstep : serveAll [(calmEnv, .mkdir (Path.of (CString.lit "a/b") []))]
      (imageProcess []) =
        .ok (imageProcess [initUser calmEnv (CString.lit "a/b") blank]) := rfl
  refine ⟨keyed_nil, _, hstep, ?_⟩
  intro h
  have hkey := h (initUser calmEnv (CString.lit "a/b") blank) List.mem_cons_self
  rw [validKey_initUser_iff] at hkey
  exact hkey.noSlash (by decide)

end ShadowFs

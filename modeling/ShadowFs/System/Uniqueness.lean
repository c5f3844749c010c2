import ShadowFs.System.Requests

/-!
# One record per name

`sf_tree_add_user` refuses a name that is taken, so loading a file and creating
users keep the names distinct; `sh_rename` does not look.  In a run that starts
from a loaded file the names are distinct in every state if and only if no
request renames a user to the name of another one.
-/

namespace ShadowFs

open CLib UserRep

section Distinct

variable {ρ : Type} [UserRep ρ]

def AllTerminated (sf : List ρ) : Prop :=
  forall u, u ∈ sf -> terminated u

def Distinct (sf : List ρ) : Prop :=
  (sf.map username).Nodup

/-- What distinct names are for: `find_user` designates the only record with the
name, and after a successful `sh_rmdir` none is left. -/
structure UniqueNames (sf : List ρ) : Prop where
  distinct : Distinct sf
  only : forall name front u back, FirstMatch sf name front u back ->
    forall v, v ∈ front ++ back -> username v ≠ name
  removed : forall path sf', shRmdir sf path = .ok (0, sf') ->
    findUser sf' path.name = none

/-!
## Changing one record
-/

theorem distinct_cons_iff (front back : List ρ) (u : ρ) :
    Distinct (front ++ u :: back) <->
      Distinct (front ++ back) ∧ forall v, v ∈ front ++ back -> username v ≠ username u := by
  have hperm : ((front ++ u :: back).map username).Perm
      (username u :: (front ++ back).map username) := by
    rw [← List.map_cons]
    exact List.Perm.map username List.perm_middle
  rw [Distinct, hperm.nodup_iff, List.nodup_cons, Distinct, and_comm]
  simp only [List.mem_map, not_exists, not_and]

theorem Distinct.replace {front back : List ρ} {u v : ρ}
    (h : Distinct (front ++ u :: back)) (hname : username v = username u) :
    Distinct (front ++ v :: back) := by
  rw [distinct_cons_iff] at h ⊢
  rw [hname]
  exact h

theorem distinct_append_iff (sf : List ρ) (u : ρ) :
    Distinct (sf ++ [u]) <-> Distinct sf ∧ findUser sf (username u) = none := by
  rw [distinct_cons_iff, List.append_nil, findUser_eq_none_iff]

theorem Distinct.uniqueNames {sf : List ρ} (h : Distinct sf) : UniqueNames sf where
  distinct := h
  only := by
    intro name front u back hm v hv
    rw [hm.split, distinct_cons_iff] at h
    rw [← hm.found]
    exact h.2 v hv
  removed := by
    intro path sf' hrmdir
    rcases findUser_cases sf path.name with hnone | ⟨front, u, back, hm⟩
    · rw [shRmdir_of_none hnone] at hrmdir
      cases hrmdir
    · rw [hm.shRmdir_eq] at hrmdir
      cases hrmdir
      rw [hm.split, distinct_cons_iff, hm.found] at h
      rw [findUser_eq_none_iff]
      exact h.2

/-!
## Loading
-/

/-- The names of a list of terminated records are distinct. -/
structure Loaded (sf : List ρ) : Prop where
  terminated : AllTerminated sf
  distinct : Distinct sf

theorem Loaded.updateField {sf : List ρ} (h : Loaded sf) (name : CString)
    {assign : ρ -> ρ}
    (hterm : forall u, UserRep.terminated u -> UserRep.terminated (assign u))
    (hname : forall u, UserRep.terminated u -> username (assign u) = username u) :
    Loaded (updateField sf name assign).2 := by
  rcases findUser_cases sf name with hnone | ⟨front, u, back, hm⟩
  · rw [updateField_of_none hnone]
    exact h
  · have hu := h.terminated u hm.mem
    have hall := h.terminated
    have hdistinct := h.distinct
    rw [hm.split] at hall hdistinct
    rw [hm.updateField_eq]
    exact ⟨forall_mem_replace hall (hterm u hu), hdistinct.replace (hname u hu)⟩

theorem Loaded.updateHash {sf : List ρ} (h : Loaded sf) (name newhash : CString) :
    Loaded (updateHash sf name newhash).2 := by
  by_cases hlen : newhash.length ≤ 32
  · rw [updateHash_eq_updateField _ _ hlen]
    exact h.updateField name (terminated_strcpyHash newhash) (username_strcpyHash newhash)
  · have hgt : newhash.length > 32 := Nat.not_le.mp hlen
    unfold ShadowFs.updateHash
    split
    · rw [if_pos hgt]
      exact h
    · exact h

theorem Loaded.setDay {sf : List ρ} (h : Loaded sf) (name : CString) (d : DayField)
    (v : Int32) : Loaded (ShadowFs.updateField sf name (setDay d v)).2 :=
  h.updateField name (terminated_setDay d v) (username_setDay d v)

theorem Loaded.parseDays {sf : List ρ} (h : Loaded sf) (user : CString) (s : List Byte) :
    Loaded (parseDays sf user s) := by
  unfold ShadowFs.parseDays
  repeat apply Loaded.setDay
  exact h

theorem Loaded.sfTreeAddUser {sf : List ρ} (h : Loaded sf) (env : Env ρ) {name : CString}
    (hlen : name.length ≤ usernameCapacity) : Loaded (sfTreeAddUser env sf name).2 := by
  rcases sfTreeAddUser_cases env sf name with ⟨_, _, hadd⟩ | ⟨u, _, hnone, _, hadd⟩
  · rw [hadd]
    exact h
  · rw [hadd]
    refine ⟨forall_mem_append_singleton h.terminated (terminated_initUser env u hlen), ?_⟩
    rw [distinct_append_iff, username_initUser env u hlen]
    exact ⟨h.distinct, hnone⟩

/-- One line: a duplicate user name updates the record that is there. -/
theorem Loaded.parseLine {env : Env ρ} {sf : List ρ} {line : List Byte}
    {outcome : LineOutcome ρ} (h : Loaded sf)
    (hline : parseLine env sf line = .ok outcome) : Loaded outcome.list := by
  cases parseLine_effect hline with
  | noName _ _ _ => exact h
  | noHash _ hlen _ _ _ _ =>
      exact h.sfTreeAddUser env (Nat.le_trans (CString.ofBytes_length_le _)
        (Nat.le_of_lt_succ hlen))
  | record _ hlen _ _ _ _ =>
      have hadded := h.sfTreeAddUser env (Nat.le_trans (CString.ofBytes_length_le _)
        (Nat.le_of_lt_succ hlen))
      exact (hadded.updateHash _ _).parseDays _ _

theorem loaded_initParse {load : LoadEnv ρ} (hhead : load.head = []) {file : List Byte}
    {sf : List ρ} (h : initParse load file = .ok sf) : Loaded sf := by
  have hstart : Loaded (sfTreeInit load) := by
    rw [sfTreeInit, hhead]
    exact ⟨fun u hu => absurd hu List.not_mem_nil, List.nodup_nil⟩
  exact parseLines_invariant (fun _ _ _ _ _ hloaded => hloaded.parseLine) hstart h

/-!
## Serving requests
-/

/-- The names a request gives to users fit the array. -/
def NamesFit (call : Env ρ × Request) : Prop :=
  match call.2 with
  | .mkdir path => path.name.length ≤ usernameCapacity
  | .rename _ target => target.name.length ≤ usernameCapacity
  | _ => True

/-- The request does not rename a user to the name of another one. -/
def KeepsApart (call : Env ρ × Request) (p : Process ρ) : Prop :=
  match call.2 with
  | .rename source target =>
      findUser p.root source.name = none ∨ target.name = source.name ∨
        findUser p.root target.name = none
  | _ => True

theorem AllTerminated.serve {call : Env ρ × Request} (hfit : NamesFit call)
    {p p' : Process ρ} (h : AllTerminated p.root) (hstep : serveStep call p = .ok p') :
    AllTerminated p'.root := by
  rcases call with ⟨env, req⟩
  rcases serveStep_effect h hstep with ⟨result, heffect⟩
  generalize p'.root = sf' at heffect
  cases heffect with
  | query _ => exact h
  | refused _ => exact h
  | append _ _ _ => exact forall_mem_append_singleton h (terminated_initUser env _ hfit)
  | remove hm =>
      rw [hm.split] at h
      exact forall_mem_remove h
  | rename hm =>
      rw [hm.split] at h
      exact forall_mem_replace h (terminated_strcpyUsername _ _ hfit)
  | edit hedit _ hm =>
      have hu := hedit.terminated (h _ hm.mem)
      rw [hm.split] at h
      exact forall_mem_replace h hu

/-- Only `sh_rename` can bring two names together. -/
theorem Distinct.serve {env : Env ρ} {req : Request} (hfit : NamesFit (env, req))
    (hreq : forall source target, req ≠ .rename source target) {p p' : Process ρ}
    (hterm : AllTerminated p.root) (h : Distinct p.root)
    (hstep : serveStep (env, req) p = .ok p') : Distinct p'.root := by
  rcases serveStep_effect hterm hstep with ⟨result, heffect⟩
  generalize p'.root = sf' at heffect
  cases heffect with
  | query _ => exact h
  | refused _ => exact h
  | append _ hnone _ =>
      rw [distinct_append_iff, username_initUser env _ hfit]
      exact ⟨h, hnone⟩
  | remove hm =>
      rw [hm.split, distinct_cons_iff] at h
      exact h.1
  | rename _ => exact absurd rfl (hreq _ _)
  | edit hedit _ hm =>
      have hname := hedit.username_eq (hterm _ hm.mem)
      rw [hm.split] at h
      exact h.replace hname

/-- Giving the record a name that fits keeps the names distinct if and only if the
name is its own or free. -/
theorem FirstMatch.distinct_rename_iff {sf front back : List ρ} {source name : CString}
    {u : ρ} (hm : FirstMatch sf source front u back) (h : Distinct sf)
    (hlen : name.length ≤ usernameCapacity) :
    Distinct (front ++ strcpyUsername name u :: back) <->
      name = source ∨ findUser sf name = none := by
  rw [hm.split, distinct_cons_iff, hm.found] at h
  rw [distinct_cons_iff, username_strcpyUsername name u hlen, hm.split]
  constructor
  · rintro ⟨_, hfree⟩
    by_cases hname : name = source
    · exact Or.inl hname
    · apply Or.inr
      rw [findUser_eq_none_iff, List.forall_mem_append, List.forall_mem_cons, hm.found]
      rw [List.forall_mem_append] at hfree
      exact ⟨hfree.1, Ne.symm hname, hfree.2⟩
  · intro hname
    refine ⟨h.1, ?_⟩
    cases hname with
    | inl hsame =>
        rw [hsame]
        exact h.2
    | inr hnone => exact forall_mem_remove (findUser_eq_none_iff.mp hnone)

theorem keepsApart_iff_distinct {call : Env ρ × Request} (hfit : NamesFit call)
    {p p' : Process ρ} (hterm : AllTerminated p.root) (h : Distinct p.root)
    (hstep : serveStep call p = .ok p') : KeepsApart call p <-> Distinct p'.root := by
  rcases call with ⟨env, req⟩
  by_cases hreq : exists source target, req = .rename source target
  · rcases hreq with ⟨source, target, rfl⟩
    cases hstep
    show _ <-> Distinct (shRename p.root source target).2
    rcases findUser_cases p.root source.name with hnone | ⟨front, u, back, hm⟩
    · rw [shRename_of_none hnone]
      exact ⟨fun _ => h, fun _ => Or.inl hnone⟩
    · rw [hm.shRename_eq, hm.distinct_rename_iff h hfit]
      constructor
      · intro hapart
        cases hapart with
        | inl hnone => exact absurd hnone hm.ne_none
        | inr hname => exact hname
      · exact Or.inr
  · have hother : forall source target, req ≠ .rename source target := by
      intro source target heq
      exact hreq ⟨source, target, heq⟩
    refine ⟨fun _ => h.serve hfit hother hterm hstep, fun _ => ?_⟩
    cases req with
    | rename source target => exact absurd rfl (hother source target)
    | _ => exact trivial

theorem uniqueNames_iff (sf : List ρ) : UniqueNames sf <-> Distinct sf :=
  ⟨fun h => h.distinct, fun h => h.uniqueNames⟩

/-- In a run from a loaded file, every state has unique names if and only if every
request keeps them apart. -/
theorem uniqueNames_always_iff (load : LoadEnv ρ) (hhead : load.head = [])
    (file : List Byte) (p : Process ρ) (hload : initParse load file = .ok p.root)
    (calls : List (Env ρ × Request)) (hfit : forall call, call ∈ calls -> NamesFit call) :
    Library.Always serveStep (fun q => UniqueNames q.root) calls p <->
      Library.Guarded serveStep KeepsApart calls p := by
  have hloaded := loaded_initParse hhead hload
  refine Library.always_iff_guarded (Q := NamesFit) (J := fun q => AllTerminated q.root)
    ?_ ?_ ?_ calls p hfit hloaded.terminated hloaded.distinct.uniqueNames
  · intro call q q' hcall hterm hstep
    exact hterm.serve hcall hstep
  · intro call q q' hcall hterm hunique hstep
    rw [uniqueNames_iff]
    exact keepsApart_iff_distinct hcall hterm hunique.distinct hstep
  · intro call q fault hstep
    rcases call with ⟨env, req⟩
    cases req with
    | rename source target => cases hstep
    | _ => exact trivial

end Distinct

/-- Two users are created and one is renamed to the name of the other. -/
def clashCalls (target : CString) : List (Env User × Request) :=
  [(plainEnv, .mkdir (Path.of (CString.lit "bin") [])),
    (plainEnv, .mkdir (Path.of (CString.lit "sys") [])),
    (plainEnv, .rename (Path.of (CString.lit "bin") []) (Path.of target []))]

theorem clashCalls_fit {target : CString} (h : target.length ≤ usernameCapacity) :
    forall call, call ∈ clashCalls target -> NamesFit call := by
  intro call hcall
  simp only [clashCalls, List.mem_cons, List.not_mem_nil, or_false] at hcall
  rcases hcall with rfl | rfl | rfl
  · exact (by decide : (CString.lit "bin").length ≤ 15)
  · exact (by decide : (CString.lit "sys").length ≤ 15)
  · show (Path.of target []).name.length ≤ 15
    rw [Path.name_of]
    exact h

theorem uniqueNames_freeTarget :
    Library.Always serveStep (fun q => UniqueNames q.root)
      (clashCalls (CString.lit "adm")) (plainProcess []) := by
  refine (uniqueNames_always_iff plainLoad rfl [] (plainProcess []) rfl _
    (clashCalls_fit (by decide))).mpr ?_
  refine ⟨trivial, fun q hq => ⟨trivial, fun q' hq' => ⟨?_, fun _ _ => trivial⟩⟩⟩
  cases hq
  cases hq'
  exact Or.inr (Or.inr (by decide))

/-- After the clash two records carry the name. -/
theorem not_uniqueNames_clash :
    initParse plainLoad [] = .ok (plainProcess []).root ∧
      (forall call, call ∈ clashCalls (CString.lit "sys") -> NamesFit call) ∧
      exists p, serveAll (clashCalls (CString.lit "sys")) (plainProcess []) = .ok p ∧
        ¬ UniqueNames p.root := by
  refine ⟨rfl, clashCalls_fit (by decide), _, rfl, ?_⟩
  intro h
  have hnodup : ([CString.lit "sys", CString.lit "sys"] : List CString).Nodup := h.distinct
  exact absurd hnodup (by decide)

end ShadowFs

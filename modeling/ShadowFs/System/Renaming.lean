import ShadowFs.System.Keys
import ShadowFs.System.Uniqueness

/-!
# Accounts and the names they are stored under

`sh_rename` overwrites the name of the first record with the old name and looks at nothing
else.  If another record has the new name already, the two are told apart by their
positions only: the account moves if its record is the first of the two, and is hidden by
the other one if it is not.

The name is copied into an array of 16 bytes with the hash right behind it.
`sf_tree_add_user` lets one byte too many pass and `sh_rename` does not count at all.
-/

namespace ShadowFs

open CLib UserRep

/-!
## Lookups after a rename
-/

section Lookups

variable {ρ : Type} [UserRep ρ]

theorem le_of_findUser_append {front back : List ρ} {name : CString} {i : Nat}
    (hnone : findUser front name = none) (h : findUser (front ++ back) name = some i) :
    front.length ≤ i := by
  rw [findUser] at hnone h
  rw [List.findIdx?_append, hnone, Option.none_or, Option.map_eq_some_iff] at h
  rcases h with ⟨k, _, rfl⟩
  exact Nat.le_add_left _ _

theorem FirstMatch.append {sf front back : List ρ} {name : CString} {u : ρ}
    (h : FirstMatch sf name front u back) (more : List ρ) :
    FirstMatch (sf ++ more) name front u (back ++ more) where
  split := by
    rw [h.split, List.append_assoc, List.cons_append]
  found := h.found
  first := h.first

end Lookups

/-!
## Renaming one account
-/

structure SameAccount (u v : UserImage) : Prop where
  hash : v.hash = u.hash
  day : forall d, v.day d = u.day d
  reserved : v.reserved = u.reserved

/-- The account `f` becomes the account `t` and nothing else changes. -/
structure MovesAccount (sf sf' : List UserImage) (f t : CString) : Prop where
  gone : findUser sf' f = none
  moved : exists u v, findRecord sf f = some u ∧ findRecord sf' t = some v ∧ SameAccount u v
  others : forall name, name ≠ f -> name ≠ t ->
    findUser sf' name = findUser sf name ∧ findRecord sf' name = findRecord sf name

def NotHidden (sf : List UserImage) (f t : CString) : Prop :=
  forall i j u w, findUser sf t = some i -> findUser sf f = some j -> i < j ->
    findRecord sf f = some u -> findRecord sf t = some w -> SameAccount u w

theorem sameAccount_strcpyUsername {n : CString} (u : UserImage) (hn : n.length ≤ 15) :
    SameAccount u (UserImage.strcpyUsername n u) where
  hash := UserImage.hash_strcpyUsername u hn
  day := fun d => UserImage.day_strcpyUsername d u hn
  reserved := rfl

/-- The record that answers for the new name: the first one to carry it. -/
theorem FirstMatch.moved_iff {sf front back : List UserImage} {f t : CString}
    {u : UserImage} (hm : FirstMatch sf f front u back) (ht : t.length ≤ 15) :
    (exists u' v, findRecord sf f = some u' ∧
        findRecord (front ++ strcpyUsername t u :: back) t = some v ∧ SameAccount u' v) <->
      NotHidden sf f t := by
  have hname : username (strcpyUsername t u) = t := username_strcpyUsername t u ht
  rcases findUser_cases front t with hnone | ⟨front', w, back', hw⟩
  · have hnew : FirstMatch (front ++ strcpyUsername t u :: back) t front
        (strcpyUsername t u) back :=
      ⟨rfl, hname, findUser_eq_none_iff.mp hnone⟩
    constructor
    · intro _ i j _ _ hi hj hlt _ _
      have hbehind := le_of_findUser_append hnone (hm.split ▸ hi)
      rw [hm.findUser_eq] at hj
      cases hj
      exact absurd hlt (Nat.not_lt.mpr hbehind)
    · intro _
      exact ⟨u, _, hm.findRecord_eq, hnew.findRecord_eq, sameAccount_strcpyUsername u ht⟩
  · have hold : FirstMatch sf t front' w (back' ++ u :: back) := by
      rw [hm.split]
      exact hw.append _
    have hnew := hw.append (strcpyUsername t u :: back)
    have hlt : front'.length < front.length := by
      rw [hw.split, List.length_append, List.length_cons]
      lia
    constructor
    · rintro ⟨u', v, hu', hv, hsame⟩ i j u'' w' _ _ _ hu'' hw'
      rw [hu'] at hu''
      rw [hnew.findRecord_eq] at hv
      rw [hold.findRecord_eq] at hw'
      cases hu''
      cases hv
      cases hw'
      exact hsame
    · intro h
      exact ⟨u, w, hm.findRecord_eq, hnew.findRecord_eq,
        h _ _ u w hold.findUser_eq hm.findUser_eq hlt hm.findRecord_eq hold.findRecord_eq⟩

/-- A rename that succeeds moves the account if and only if no other user of the new name
stands in front of it. -/
theorem movesAccount_iff (sf : List UserImage) (hdistinct : Distinct sf) (source target : Path)
    (hne : source.name ≠ target.name) (htarget : target.name.length ≤ 15) :
    ((shRename sf source target).1 = 0 ->
        MovesAccount sf (shRename sf source target).2 source.name target.name) <->
      NotHidden sf source.name target.name := by
  rcases findUser_cases sf source.name with hnone | ⟨front, u, back, hm⟩
  · rw [shRename_of_none hnone]
    constructor
    · intro _ _ _ _ _ _ hj
      rw [hnone] at hj
      cases hj
    · intro _ hcode
      have hrefused : (-EACCES : Int) ≠ 0 := by decide
      exact absurd hcode hrefused
  · have hname : username (strcpyUsername target.name u) = target.name :=
      username_strcpyUsername target.name u htarget
    have hgone : findUser (front ++ strcpyUsername target.name u :: back) source.name = none := by
      rw [hm.split, distinct_cons_iff, hm.found] at hdistinct
      rw [findUser_eq_none_iff, List.forall_mem_append, List.forall_mem_cons, hname]
      exact ⟨(List.forall_mem_append.mp hdistinct.2).1, Ne.symm hne,
        (List.forall_mem_append.mp hdistinct.2).2⟩
    have hothers : forall name, name ≠ source.name -> name ≠ target.name ->
        findUser (front ++ strcpyUsername target.name u :: back) name = findUser sf name ∧
          findRecord (front ++ strcpyUsername target.name u :: back) name =
            findRecord sf name := by
      intro name hsource htarget
      have hu : username u ≠ name := by
        rw [hm.found]
        exact Ne.symm hsource
      have hv : username (strcpyUsername target.name u) ≠ name := by
        rw [hname]
        exact Ne.symm htarget
      rw [hm.split]
      exact ⟨findUser_replace_of_ne front back hu hv, findRecord_replace_of_ne front back hu hv⟩
    rw [hm.shRename_eq, ← hm.moved_iff htarget]
    constructor
    · exact fun h => (h rfl).moved
    · exact fun hmoved _ => ⟨hgone, hmoved, hothers⟩

def twoAccounts : List UserImage :=
  [strcpyHash (CString.lit "x")
      (initUser UserImage.calmEnv (CString.lit "sys") UserImage.blank),
    initUser UserImage.calmEnv (CString.lit "bin") UserImage.blank]

theorem distinct_twoAccounts : Distinct twoAccounts := by
  show (twoAccounts.map username).Nodup
  decide

/-- The new name is taken, but by a record behind the renamed one. -/
theorem movesAccount_taken :
    findUser twoAccounts (CString.lit "bin") = some 1 ∧
      MovesAccount twoAccounts
        (shRename twoAccounts (Path.of (CString.lit "sys") []) (Path.of (CString.lit "bin") [])).2
        (CString.lit "sys") (CString.lit "bin") := by
  have hnotHidden : NotHidden twoAccounts (CString.lit "sys") (CString.lit "bin") := by
    have hsys : findUser twoAccounts (CString.lit "sys") = some 0 := by decide
    intro i j u w _ hj hlt
    rw [hsys] at hj
    cases hj
    exact absurd hlt (Nat.not_lt_zero i)
  have hiff := movesAccount_iff twoAccounts distinct_twoAccounts (Path.of (CString.lit "sys") [])
    (Path.of (CString.lit "bin") []) (by decide) (by decide)
  exact ⟨by decide, hiff.mpr hnotHidden (by decide)⟩

/-- The record that has the name already answers for the renamed account. -/
theorem not_movesAccount_hidden :
    Distinct twoAccounts ∧
      (shRename twoAccounts (Path.of (CString.lit "bin") [])
        (Path.of (CString.lit "sys") [])).1 = 0 ∧
      ¬ MovesAccount twoAccounts
        (shRename twoAccounts (Path.of (CString.lit "bin") [])
          (Path.of (CString.lit "sys") [])).2
        (CString.lit "bin") (CString.lit "sys") := by
  refine ⟨distinct_twoAccounts, by decide, ?_⟩
  intro h
  rcases h.moved with ⟨u, v, hu, hv, hsame⟩
  have hbin : (findRecord twoAccounts (CString.lit "bin")).map UserImage.hash =
      some (CString.lit "*") := by decide
  have hsys : (findRecord (shRename twoAccounts (Path.of (CString.lit "bin") [])
      (Path.of (CString.lit "sys") [])).2 (CString.lit "sys")).map UserImage.hash =
      some (CString.lit "x") := by decide
  rw [hu, Option.map_some, Option.some.injEq] at hbin
  rw [hv, Option.map_some, Option.some.injEq, hsame.hash, hbin] at hsys
  exact absurd hsys (by decide)

/-!
## Names of any length
-/

namespace UserImage

theorem drop_strcpyUsername {n : CString} (u : UserImage) (hn : 16 ≤ n.length) :
    (strcpyUsername n u).bytes.drop 16 =
      ((n.drop 16).bytes ++ 0 :: u.bytes.drop (n.length + 1)).take 56 := by
  have hlen : 16 ≤ n.bytes.length := hn
  show (poke u.bytes 0 (n.bytes ++ [0])).drop 16 = _
  rw [poke, u.size, List.take_zero, List.nil_append, List.append_assoc, List.drop_take,
    List.drop_append_of_le_length hlen, List.length_append, Nat.zero_add]
  rfl

theorem username_strcpyUsername_bytes (n : CString) (u : UserImage) :
    (strcpyUsername n u).username.bytes = n.bytes.take 72 := by
  have h := ofBytes_take_append_nul n (u.bytes.drop (n.length + 1)) 72
  show (CString.ofBytes ((poke u.bytes 0 (n.bytes ++ [0])).drop 0)).bytes = _
  rw [poke, u.size, List.take_zero, List.nil_append, List.append_assoc, List.drop_zero,
    List.length_append, Nat.zero_add]
  exact h

theorem hash_strcpyUsername_bytes {n : CString} (u : UserImage) (hn : 16 ≤ n.length) :
    (strcpyUsername n u).hash.bytes = (n.bytes.drop 16).take 56 := by
  show (CString.ofBytes ((strcpyUsername n u).bytes.drop 16)).bytes = _
  rw [drop_strcpyUsername u hn]
  exact ofBytes_take_append_nul (n.drop 16) _ 56

/-- A name that repeats the hash behind its 16th byte changes nothing behind the name. -/
theorem drop_strcpyUsername_of_hash {n : CString} {u : UserImage} (hn : 16 ≤ n.length)
    (hhash : n.drop 16 = u.hash) :
    (strcpyUsername n u).bytes.drop 16 = u.bytes.drop 16 := by
  have hsize : (u.bytes.drop 16).length = 56 := by
    rw [List.length_drop, u.size]
  rw [drop_strcpyUsername u hn, hhash]
  by_cases hnul : (0 : Byte) ∈ u.bytes.drop 16
  · rcases (CBuffer.mk (u.bytes.drop 16) hnul).exists_behind with ⟨behind, hsplit⟩
    replace hsplit : u.bytes.drop 16 = u.hash.bytes ++ 0 :: behind := hsplit
    have hlen : n.length + 1 = 16 + (u.hash.bytes.length + 1) := by
      rw [← hhash, CString.drop_bytes, List.length_drop]
      have hn' : n.length = n.bytes.length := rfl
      lia
    have hbehind : u.bytes.drop (n.length + 1) = behind := by
      rw [hlen, ← List.drop_drop, hsplit]
      simp
    rw [hbehind, ← hsplit, List.take_of_length_le (Nat.le_of_eq hsize)]
  · have hall : u.hash = ⟨u.bytes.drop 16, hnul⟩ := CString.ofBytes_of_nulFree hnul
    rw [hall, List.take_append_of_le_length (Nat.le_of_eq hsize.symm),
      List.take_of_length_le (Nat.le_of_eq hsize)]

theorem hash_day_of_drop {u v : UserImage} (h : v.bytes.drop 16 = u.bytes.drop 16) :
    v.hash = u.hash ∧ forall d, v.day d = u.day d := by
  refine ⟨congrArg CString.ofBytes h, ?_⟩
  intro d
  have hbehind : v.bytes.drop (dayOffset d) = u.bytes.drop (dayOffset d) := by
    have hlow := le_dayOffset d
    have hsplit : dayOffset d = 16 + (dayOffset d - 16) := by lia
    rw [hsplit, ← List.drop_drop, h, List.drop_drop]
  exact congrArg int32OfBytes hbehind

/-- Storing a name keeps it whole and the other fields as they were if and only if the name
fits its array, or repeats the hash behind its 16th byte. -/
theorem strcpyUsername_keeps_iff (n : CString) (u : UserImage) :
    ((strcpyUsername n u).username = n ∧ (strcpyUsername n u).hash = u.hash ∧
        forall d, (strcpyUsername n u).day d = u.day d) <->
      n.length ≤ 15 ∨ n.drop 16 = u.hash := by
  by_cases hshort : n.length ≤ 15
  · refine ⟨fun _ => Or.inl hshort, fun _ => ?_⟩
    exact ⟨username_strcpyUsername u hshort, hash_strcpyUsername u hshort,
      fun d => day_strcpyUsername d u hshort⟩
  · have hlong : 16 ≤ n.length := Nat.not_le.mp hshort
    have hname := username_strcpyUsername_bytes n u
    have hhash := hash_strcpyUsername_bytes u hlong
    constructor
    · rintro ⟨hkept, hkeptHash, _⟩
      have hfits : n.bytes.length ≤ 72 := by
        rw [hkept] at hname
        have hle := congrArg List.length hname
        rw [List.length_take] at hle
        lia
      apply Or.inr
      ext1
      rw [← hkeptHash, hhash, CString.drop_bytes, List.take_of_length_le]
      rw [List.length_drop]
      lia
    · rintro (h | h)
      · exact absurd h hshort
      · have hfits : n.bytes.length ≤ 72 := by
          have hle := congrArg (fun s => s.bytes.length) h
          have hhashLen : u.hash.bytes.length ≤ (u.bytes.drop 16).length :=
            (List.takeWhile_sublist _).length_le
          rw [List.length_drop, u.size] at hhashLen
          simp only [CString.drop_bytes, List.length_drop] at hle
          lia
        refine ⟨?_, hash_day_of_drop (drop_strcpyUsername_of_hash hlong h)⟩
        ext1
        rw [hname, List.take_of_length_le hfits]

end UserImage

/-- The new user is found again, with the fields it was given. -/
structure AddStores (env : Env UserImage) (sf : List UserImage) (n : CString) : Prop where
  found : exists v, findRecord (sfTreeAddUser env sf n).2 n = some v ∧ v.username = n ∧
    v.hash = CString.lit "*" ∧ forall d, v.day d = newDays env d
  taken : forall again, (sfTreeAddUser again (sfTreeAddUser env sf n).2 n).1 = -3

/-- The renamed user is found again, with the fields it had.  The record found for the name
is the renamed one or has not been touched. -/
structure RenameStores (sf : List UserImage) (source target : Path) : Prop where
  renamed : exists p u v, findUser sf source.name = some p ∧ sf[p]? = some u ∧
    (shRename sf source target).2[p]? = some v ∧ v.username = target.name ∧
    v.hash = u.hash ∧ forall d, v.day d = u.day d
  found : exists p u v, findUser (shRename sf source target).2 target.name = some p ∧
    sf[p]? = some u ∧ (shRename sf source target).2[p]? = some v ∧
    v.hash = u.hash ∧ forall d, v.day d = u.day d
  taken : forall again,
    (sfTreeAddUser again (shRename sf source target).2 target.name).1 = -3

theorem username_initUser_of_full (env : Env UserImage) {n : CString} (u : UserImage)
    (hn : n.length = 16) : (initUser env n u).username ≠ n := by
  have hopen : ¬ UserImage.Terminated (initUser env n u) := by
    rw [UserImage.terminated_initUser_iff, hn]
    decide
  rw [UserImage.terminated_iff] at hopen
  have hstar : (initUser env n u).hash = CString.lit "*" := hash_initUser env u
  intro hname
  have hlen := congrArg List.length (UserImage.username_of_filled hopen)
  have hn' : n.bytes.length = 16 := hn
  rw [hname, hstar, hn', List.length_append, List.length_take, (initUser env n u).size] at hlen
  exact absurd hlen (by decide)

/-- `sf_tree_add_user` keeps what it accepts if and only if the name leaves room for its
terminator. -/
theorem addStores_iff {env : Env UserImage} {sf : List UserImage} {n : CString}
    (h : (sfTreeAddUser env sf n).1 = 0) : AddStores env sf n <-> n.length ≤ 15 := by
  rcases sfTreeAddUser_cases env sf n with ⟨code, hneg, hadd⟩ | ⟨block, _, hnew, hlen, hadd⟩
  · rw [hadd] at h
    exact absurd h (Int.ne_of_lt hneg)
  · constructor
    · intro hstores
      by_contra hlong
      rcases hstores.found with ⟨v, hv, hname, _⟩
      have hfull : n.length = 16 := by lia
      have hnone : findUser (sf ++ [initUser env n block]) n = none :=
        findUser_eq_none_iff.mpr (forall_mem_append_singleton
          (findUser_eq_none_iff.mp hnew) (username_initUser_of_full env block hfull))
      rw [hadd, findRecord_of_none hnone] at hv
      cases hv
    · intro hshort
      have hm : FirstMatch (sfTreeAddUser env sf n).2 n sf (initUser env n block) [] := by
        rw [hadd]
        exact ⟨rfl, username_initUser env block hshort, findUser_eq_none_iff.mp hnew⟩
      refine ⟨⟨_, hm.findRecord_eq, hm.found, hash_initUser env block,
        day_initUser env n block⟩, ?_⟩
      intro again
      rw [sfTreeAddUser_of_found again hm.ne_none]

theorem FirstMatch.getElem?_shRename {sf front back : List UserImage} {source : Path}
    {u : UserImage} (hm : FirstMatch sf source.name front u back) (target : Path) {p : Nat}
    {w : UserImage} (hw : sf[p]? = some w) :
    (shRename sf source target).2[p]? =
      some (if front.length = p then UserImage.strcpyUsername target.name w else w) := by
  have hname : source.strAt 1 = source.name := rfl
  have hrename : (shRename sf source target).2 =
      sf.modify front.length (strcpyUsername target.name) := by
    simp only [shRename, hname, hm.findUser_eq]
    rfl
  rw [hrename, List.getElem?_modify, hw]
  rfl

/-- `sh_rename` keeps the account if and only if the name leaves room for its terminator, or
repeats the hash where it runs into it. -/
theorem renameStores_iff {sf : List UserImage} {source target : Path} {u : UserImage}
    (hu : findRecord sf source.name = some u) :
    RenameStores sf source target <->
      target.name.length ≤ 15 ∨ target.name.drop 16 = u.hash := by
  have hfound : findUser sf source.name ≠ none := findUser_ne_none_iff_findRecord.mpr ⟨u, hu⟩
  rcases exists_firstMatch hfound with ⟨front, u', back, hm⟩
  rw [hm.findRecord_eq] at hu
  cases hu
  have hat : sf[front.length]? = some u := by
    rw [hm.split]
    simp
  have hat' := hm.getElem?_shRename target hat
  rw [if_pos rfl] at hat'
  rw [← UserImage.strcpyUsername_keeps_iff]
  constructor
  · rintro ⟨⟨p, w, v, hp, hw, hv, hkeeps⟩, _, _⟩
    rw [hm.findUser_eq] at hp
    cases hp
    rw [hat] at hw
    cases hw
    rw [hat'] at hv
    cases hv
    exact hkeeps
  · intro hkeeps
    have hmem : UserImage.strcpyUsername target.name u ∈ (shRename sf source target).2 :=
      List.mem_of_getElem? hat'
    have hnew := findUser_ne_none_of_mem hmem
    have hname : username (UserImage.strcpyUsername target.name u) = target.name := hkeeps.1
    rw [hname] at hnew
    refine ⟨⟨_, u, _, hm.findUser_eq, hat, hat', hkeeps⟩, ?_, ?_⟩
    · -- the first record with the new name is the renamed one or one that was not touched
      rcases exists_firstMatch hnew with ⟨front', v, back', hm'⟩
      have hlen : (shRename sf source target).2.length = sf.length := by
        rw [hm.shRename_eq, hm.split]
        simp
      have hlt : front'.length < sf.length := by
        rw [← hlen, hm'.split, List.length_append, List.length_cons]
        lia
      obtain ⟨w, hw⟩ : exists w, sf[front'.length]? = some w :=
        ⟨_, List.getElem?_eq_getElem hlt⟩
      refine ⟨front'.length, w, _, hm'.findUser_eq, hw, hm.getElem?_shRename target hw, ?_⟩
      by_cases hp : front.length = front'.length
      · rw [← hp, hat] at hw
        cases hw
        rw [if_pos hp]
        exact hkeeps.2
      · rw [if_neg hp]
        exact ⟨rfl, fun _ => rfl⟩
    · intro again
      rw [sfTreeAddUser_of_found again hnew]

/-- Accepted names are found again if and only if they leave room for their terminator; a
longer target of a rename does no harm where it repeats the hash of the renamed record. -/
theorem accepted_name_stored_iff (sf : List UserImage) (n : CString) :
    (forall env, (sfTreeAddUser env sf n).1 = 0 -> (AddStores env sf n <-> n.length ≤ 15)) ∧
      forall (source target : Path) (u : UserImage), target.name = n ->
        findRecord sf source.name = some u ->
        (shRename sf source target).1 = 0 ∧
          (RenameStores sf source target <-> n.length ≤ 15 ∨ n.drop 16 = u.hash) := by
  refine ⟨fun env h => addStores_iff h, ?_⟩
  intro source target u hn hu
  have hfound : findUser sf source.name ≠ none := findUser_ne_none_iff_findRecord.mpr ⟨u, hu⟩
  rcases exists_firstMatch hfound with ⟨front, u', back, hm⟩
  rw [← hn]
  exact ⟨congrArg Prod.fst (hm.shRename_eq target), renameStores_iff hu⟩

theorem accepted_name_stored_adm :
    AddStores UserImage.calmEnv twoAccounts (CString.lit "adm") ∧
      RenameStores twoAccounts (Path.of (CString.lit "sys") [])
        (Path.of (CString.lit "adm") []) := by
  have h := accepted_name_stored_iff twoAccounts (CString.lit "adm")
  have hshort : (CString.lit "adm").length ≤ 15 := by decide
  rcases Option.isSome_iff_exists.mp
    (by decide : (findRecord twoAccounts (Path.of (CString.lit "sys") []).name).isSome) with
    ⟨u, hu⟩
  constructor
  · exact (h.1 UserImage.calmEnv (by decide)).mpr hshort
  · exact (h.2 _ (Path.of (CString.lit "adm") []) u (by decide) hu).2.mpr (Or.inl hshort)

/-- A name of 16 bytes is accepted by both functions and kept by neither. -/
theorem not_accepted_name_stored :
    (sfTreeAddUser UserImage.calmEnv [] (CString.lit "sixteen-byte-key")).1 = 0 ∧
      ¬ AddStores UserImage.calmEnv [] (CString.lit "sixteen-byte-key") ∧
      (shRename twoAccounts (Path.of (CString.lit "sys") [])
        (Path.of (CString.lit "sixteen-byte-key") [])).1 = 0 ∧
      ¬ RenameStores twoAccounts (Path.of (CString.lit "sys") [])
        (Path.of (CString.lit "sixteen-byte-key") []) := by
  have hlong : ¬ (CString.lit "sixteen-byte-key").length ≤ 15 := by decide
  refine ⟨by decide, ?_, by decide, ?_⟩
  · rw [addStores_iff (by decide)]
    exact hlong
  · rintro ⟨⟨p, u, v, hp, hu, hv, _, hhash, _⟩, _, _⟩
    have hfirst : findUser twoAccounts (Path.of (CString.lit "sys") []).name = some 0 := by decide
    rw [hfirst] at hp
    cases hp
    have hold : (twoAccounts[0]?).map UserImage.hash = some (CString.lit "x") := by decide
    have hnew : ((shRename twoAccounts (Path.of (CString.lit "sys") [])
        (Path.of (CString.lit "sixteen-byte-key") [])).2[0]?).map UserImage.hash =
        some (CString.lit "") := by decide
    rw [hu, Option.map_some, Option.some.injEq] at hold
    rw [hv, Option.map_some, Option.some.injEq, hhash, hold] at hnew
    exact absurd hnew (by decide)

end ShadowFs

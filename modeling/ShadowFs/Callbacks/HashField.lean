import ShadowFs.Callbacks.Specs
import ShadowFs.Persist.Reload
import ShadowFs.Tree.Image

/-!
# Password hashes in `hash[32]`

`update_hash` accepts 32 characters for an array that holds 31 and a terminator,
and `hashword` always produces 32.  The terminator of such a hash is stored into
the low byte of `dsc`, which the next assignment to `dsc` overwrites; from then on
the hash ends where the low byte of `dsc` happens to be NUL.  The theorem states
exactly for which records, hashes and later assignments nothing is lost.
-/

namespace ShadowFs

open CLib

namespace UserImage

/-- The hash of the record as `sh_read` and `sf_deparse` deliver it. -/
structure ShowsHash (u : UserImage) (h : CString) : Prop where
  field : u.hash = h
  read : forall (p : Process UserImage) (path : Path) (stack : Nat -> Byte)
    (buf : List Byte) (size offset : Nat), Reaches p.root path.name ->
    path.name ≠ CString.lit "sh_file" ->
    findRecord p.root (headName path.name) = some u ->
    attrOf (attrText path.name) = some .passwordHash ->
    shRead p stack path buf size offset = (readString h stack buf size offset, p)
  persisted : exists rest, deparseUser u =
    u.username.bytes ++ [colon] ++ h.bytes ++ [colon] ++ rest

theorem showsHash_iff (u : UserImage) (h : CString) : ShowsHash u h <-> u.hash = h := by
  constructor
  · exact fun hshows => hshows.field
  · intro hfield
    subst hfield
    constructor
    · rfl
    · intro p path stack buf size offset hreach hfile hrecord hattr
      rw [shRead_of_reaches hreach hfile hrecord, hattr]
      rfl
    · refine ⟨dayText u ++ [newline], ?_⟩
      rw [deparseUser_eq, lineBody]
      simp only [List.append_assoc, List.cons_append, List.nil_append]
      rfl

/-- All fields but the hash read the same. -/
structure SameOthers (u v : UserImage) : Prop where
  username : v.username = u.username
  day : forall d, v.day d = u.day d
  reserved : v.reserved = u.reserved

def assignDays (updates : List (DayField × Int32)) (u : UserImage) : UserImage :=
  updates.foldl (fun u update => setDay update.1 update.2 u) u

/-- The value of the last assignment to `dsc`, if there is one. -/
def lastDsc (updates : List (DayField × Int32)) : Option Int32 :=
  updates.foldl (fun last update => if update.1 = .dsc then some update.2 else last) none

/-!
## Later assignments
-/

theorem hashArray_assignDays (updates : List (DayField × Int32)) (u : UserImage) :
    (assignDays updates u).hashArray = u.hashArray := by
  induction updates generalizing u with
  | nil => rfl
  | cons update updates ih =>
      show (assignDays updates (setDay update.1 update.2 u)).hashArray = _
      rw [ih, hashArray_setDay]

theorem hash_assignDays (updates : List (DayField × Int32)) {u : UserImage}
    (hu : u.hash.length ≤ hashCapacity) : (assignDays updates u).hash = u.hash := by
  induction updates generalizing u with
  | nil => rfl
  | cons update updates ih =>
      have hkeep : (setDay update.1 update.2 u).hash = u.hash :=
        UserRep.hash_setDay update.1 update.2 u hu
      show (assignDays updates (setDay update.1 update.2 u)).hash = _
      rw [ih (by rw [hkeep]; exact hu), hkeep]

/-- Induction from the end: the last assignment to `dsc` decides. -/
theorem dsc_assignDays (updates : List (DayField × Int32)) (u : UserImage) :
    (assignDays updates u).day .dsc = (lastDsc updates).getD (u.day .dsc) := by
  induction updates using List.reverseRecOn with
  | nil => rfl
  | append_singleton updates update ih =>
      rcases update with ⟨d, v⟩
      have hassign : assignDays (updates ++ [(d, v)]) u =
          setDay d v (assignDays updates u) := by
        rw [assignDays, List.foldl_append]
        rfl
      have hlast : lastDsc (updates ++ [(d, v)]) =
          if d = .dsc then some v else lastDsc updates := by
        rw [lastDsc, List.foldl_append]
        rfl
      rw [hassign, hlast]
      by_cases hd : d = .dsc
      · subst hd
        rw [day_setDay_self]
        rfl
      · have hne : DayField.dsc ≠ d := fun h => hd h.symm
        rw [day_setDay_of_ne hne, ih, if_neg hd]

theorem hash_assignDays_strcpyHash_iff {h : CString} (u : UserImage) (hh : h.length ≤ 32)
    (updates : List (DayField × Int32)) :
    (assignDays updates (strcpyHash h u)).hash = h <->
      h.length ≤ 31 ∨ forall v, lastDsc updates = some v -> v.toInt % 256 = 0 := by
  have hwritten := hash_strcpyHash u hh
  by_cases hfits : h.length ≤ 31
  · have hkeep := hash_assignDays updates (u := strcpyHash h u)
      (by rw [hwritten]; exact hfits)
    rw [hkeep]
    exact ⟨fun _ => Or.inl hfits, fun _ => hwritten⟩
  · have hfull : h.length = 32 := by lia
    have harray := hashArray_strcpyHash u hfull
    have hlow := (hash_eq_iff_of_full harray).mp hwritten
    have harray' : (assignDays updates (strcpyHash h u)).hashArray = h.bytes := by
      rw [hashArray_assignDays, harray]
    rw [hash_eq_iff_of_full harray', dsc_assignDays]
    cases hlast : lastDsc updates with
    | none =>
        refine ⟨fun _ => Or.inr ?_, fun _ => hlow⟩
        intro v hv
        cases hv
    | some w =>
        constructor
        · intro hw
          apply Or.inr
          intro v hv
          cases hv
          exact hw
        · intro hw
          cases hw with
          | inl hshort => exact absurd hshort hfits
          | inr hv => exact hv w rfl

/-!
## The other fields
-/

/-- A name that fills its array runs on into the hash. -/
theorem username_of_filled {u : UserImage} (hu : (0 : Byte) ∉ u.bytes.take 16) :
    u.username.bytes = u.bytes.take 16 ++ u.hash.bytes := by
  have hall := forall_ne_of_not_mem hu
  have hsplit : u.bytes.take 16 ++ u.bytes.drop 16 = u.bytes :=
    List.take_append_drop 16 u.bytes
  show u.bytes.takeWhile (fun b => decide (b ≠ 0)) =
    u.bytes.take 16 ++ (u.bytes.drop 16).takeWhile (fun b => decide (b ≠ 0))
  rw [← List.takeWhile_append_of_pos hall, hsplit]

theorem terminated_iff (u : UserImage) : Terminated u <-> (0 : Byte) ∈ u.bytes.take 16 := by
  constructor
  · intro hu
    by_contra hfilled
    have hlen := congrArg List.length (username_of_filled hfilled)
    have hu' : u.username.bytes.length ≤ 15 := hu
    rw [List.length_append, List.length_take, u.size] at hlen
    lia
  · intro hnul
    by_contra hlong
    have hlong' : 16 ≤ u.username.bytes.length := Nat.not_le.mp hlong
    have hprefix : u.username.bytes <+: u.bytes := List.takeWhile_prefix _
    have htake : u.bytes.take 16 <+: u.username.bytes := by
      apply List.prefix_of_prefix_length_le (List.take_prefix 16 u.bytes) hprefix
      rw [List.length_take]
      lia
    exact u.username.nulFree (htake.subset hnul)

theorem terminated_of_headName {sf front back : List UserImage} {name : CString}
    {u : UserImage} (h : FirstMatch sf (headName name) front u back) : Terminated u := by
  have hname : u.username = headName name := h.found
  have hle := headName_length_le_nine name
  rw [Terminated, hname]
  lia

theorem terminated_strcpyUsername_iff (n : CString) (u : UserImage) :
    Terminated (strcpyUsername n u) <-> n.length ≤ 15 := by
  constructor
  · intro h
    by_contra hlong
    have hlong' : 16 ≤ n.bytes.length := Nat.not_le.mp hlong
    have htake : (strcpyUsername n u).bytes.take 16 = n.bytes.take 16 := by
      show (poke u.bytes 0 (n.bytes ++ [0])).take 16 = _
      rw [poke, List.take_take, u.size, List.take_zero, List.nil_append,
        List.append_assoc, Nat.min_eq_left (by decide),
        List.take_append_of_le_length hlong']
    rw [terminated_iff, htake] at h
    exact n.nulFree (List.mem_of_mem_take h)
  · intro hlen
    exact UserRep.terminated_strcpyUsername n u hlen

theorem username_strcpyHash_iff {h : CString} (u : UserImage) (hh : h.length ≤ 32) :
    (strcpyHash h u).username = u.username <-> Terminated u ∨ u.hash = h := by
  by_cases hu : Terminated u
  · exact ⟨fun _ => Or.inl hu, fun _ => username_strcpyHash h hu⟩
  · have htake : (strcpyHash h u).bytes.take 16 = u.bytes.take 16 :=
      poke_take_of_le _ (by rw [u.size]; decide) (Nat.le_refl 16)
    have hfilled : (0 : Byte) ∉ u.bytes.take 16 := by
      rw [← terminated_iff]
      exact hu
    have hfilled' : (0 : Byte) ∉ (strcpyHash h u).bytes.take 16 := by
      rw [htake]
      exact hfilled
    rw [CString.ext_iff, username_of_filled hfilled, username_of_filled hfilled', htake,
      hash_strcpyHash u hh, List.append_cancel_left_eq, CString.ext_iff]
    constructor
    · exact fun hsame => Or.inr hsame.symm
    · intro hsame
      cases hsame with
      | inl hterm => exact absurd hterm hu
      | inr hhash => exact hhash.symm

theorem sameOthers_strcpyHash_iff {h : CString} (u : UserImage) (hh : h.length ≤ 32) :
    SameOthers u (strcpyHash h u) <->
      (Terminated u ∨ u.hash = h) ∧
        (h.length ≤ 31 ∨ (u.day .dsc).toInt % 256 = 0) := by
  have hdsc : (strcpyHash h u).day .dsc = u.day .dsc <->
      h.length ≤ 31 ∨ (u.day .dsc).toInt % 256 = 0 := by
    by_cases hfits : h.length ≤ 31
    · have hkeep : (strcpyHash h u).day .dsc = u.day .dsc :=
        day_strcpyHash u (by simp only [hashOffset, dayOffset]; lia)
      exact ⟨fun _ => Or.inl hfits, fun _ => hkeep⟩
    · rw [dsc_strcpyHash_of_full u (by lia)]
      constructor
      · exact Or.inr
      · intro hlow
        cases hlow with
        | inl hshort => exact absurd hshort hfits
        | inr hzero => exact hzero
  constructor
  · intro hsame
    exact ⟨(username_strcpyHash_iff u hh).mp hsame.username, hdsc.mp (hsame.day .dsc)⟩
  · rintro ⟨hname, hlow⟩
    constructor
    · exact (username_strcpyHash_iff u hh).mpr hname
    · intro d
      by_cases hd : d = .dsc
      · rw [hd]
        exact hdsc.mpr hlow
      · have hbehind := dayOffset_of_ne_dsc hd
        exact day_strcpyHash u (by simp only [hashOffset]; lia)
    · rfl

/-!
## Updates and writes
-/

/-- What is expected of `update_hash` with a string it accepts: the hash reads back
after any later assignments to day fields, and no other field changes. -/
structure HashSurvives (u : UserImage) (h : CString)
    (updates : List (DayField × Int32)) : Prop where
  shown : ShowsHash (assignDays updates (strcpyHash h u)) h
  others : SameOthers u (strcpyHash h u)

/-- Nothing is lost: the name ends in its array (or the hash is there already), and
the hash leaves room for its terminator or meets only NUL bytes in `dsc`. -/
structure Spared (u : UserImage) (h : CString) (updates : List (DayField × Int32)) :
    Prop where
  name : Terminated u ∨ u.hash = h
  room : h.length ≤ 31 ∨ ((u.day .dsc).toInt % 256 = 0 ∧
    forall v, lastDsc updates = some v -> v.toInt % 256 = 0)

theorem hashSurvives_iff_spared (u : UserImage) {h : CString} (hh : h.length ≤ 32)
    (updates : List (DayField × Int32)) :
    HashSurvives u h updates <-> Spared u h updates := by
  have hshown := (showsHash_iff (assignDays updates (strcpyHash h u)) h).trans
    (hash_assignDays_strcpyHash_iff u hh updates)
  have hothers := sameOthers_strcpyHash_iff u hh
  constructor
  · intro hsurvives
    have hlater := hshown.mp hsurvives.shown
    rcases hothers.mp hsurvives.others with ⟨hname, hnow⟩
    refine ⟨hname, ?_⟩
    by_cases hfits : h.length ≤ 31
    · exact Or.inl hfits
    · exact Or.inr ⟨hnow.resolve_left hfits, hlater.resolve_left hfits⟩
  · intro hspared
    refine ⟨hshown.mpr ?_, hothers.mpr ⟨hspared.name, ?_⟩⟩
    · exact hspared.room.imp_right And.right
    · exact hspared.room.imp_right And.left

theorem showsHash_writeEdit_iff (env : Env UserImage) (buf : CBuffer) (u : UserImage) :
    ShowsHash (writeEdit env (some .passwordHash) buf u) (hashword buf.str) <->
      (shadowTime env.time).toInt % 256 = 0 := by
  have hfull := hashword_length buf.str
  have hlater := hash_assignDays_strcpyHash_iff u (Nat.le_of_eq hfull)
    [(.dsc, shadowTime env.time)]
  have hedit : writeEdit env (some .passwordHash) buf u =
      assignDays [(.dsc, shadowTime env.time)] (strcpyHash (hashword buf.str) u) := rfl
  have hlast : lastDsc [(.dsc, shadowTime env.time)] = some (shadowTime env.time) := rfl
  rw [hedit, showsHash_iff, hlater, hfull, hlast]
  constructor
  · intro h
    exact (h.resolve_left (by decide)) _ rfl
  · intro h
    apply Or.inr
    intro v hv
    cases hv
    exact h

/-- A hash that `update_hash` accepts survives any later day assignments if and only
if the record is spared; and a password written to the file of a user is persisted
as its hash if and only if the low byte of the day is zero. -/
theorem password_hashes_survive_iff (u : UserImage) (h : CString) (hh : h.length ≤ 32)
    (updates : List (DayField × Int32)) (env : Env UserImage) (sf : List UserImage)
    (path : Path) (buf : CBuffer) (size : Nat) :
    (HashSurvives u h updates <-> Spared u h updates) ∧
      (Reaches sf path.name -> attrOf (attrText path.name) = some .passwordHash ->
        exists v, findRecord (shWrite env sf path buf size).2 (headName path.name) = some v ∧
          (ShowsHash v (hashword buf.str) <-> (shadowTime env.time).toInt % 256 = 0)) := by
  refine ⟨hashSurvives_iff_spared u hh updates, ?_⟩
  intro hreach hattr
  rcases hreach.exists_firstMatch with ⟨front, v, back, hm⟩
  have hterm := terminated_of_headName hm
  have hname := username_writeEdit env (some .passwordHash) buf (u := v) hterm
  refine ⟨writeEdit env (some .passwordHash) buf v, ?_, showsHash_writeEdit_iff env buf v⟩
  rw [shWrite_of_reaches hreach, hattr, hm.writeAttr_eq hterm]
  exact (hm.update hname).findRecord_eq

def blank : UserImage :=
  { bytes := List.replicate 72 0, size := by decide, reserved := none }

/-- A day whose low byte is zero. -/
def calmEnv : Env UserImage :=
  { time := 0, block := some blank, buffer := true }

theorem hash_survives_star :
    HashSurvives blank (CString.lit "*") [(.dsc, 15819), (.dw, 7)] ∧
      exists v,
        findRecord (shWrite calmEnv [initUser calmEnv (CString.lit "bin") blank]
            (Path.of (CString.lit "bin/password-hash") [])
            (CBuffer.ofCString (CString.lit "secret") []) 6).2 (CString.lit "bin") = some v ∧
          ShowsHash v (hashword (CBuffer.ofCString (CString.lit "secret") []).str) := by
  have h := password_hashes_survive_iff blank (CString.lit "*") (by decide)
    [(.dsc, 15819), (.dw, 7)] calmEnv [initUser calmEnv (CString.lit "bin") blank]
    (Path.of (CString.lit "bin/password-hash") [])
    (CBuffer.ofCString (CString.lit "secret") []) 6
  have hhead : headName (Path.of (CString.lit "bin/password-hash") []).name =
      CString.lit "bin" := by decide
  constructor
  · apply h.1.mpr
    exact ⟨Or.inl (show blank.username.length ≤ 15 by decide), Or.inl (by decide)⟩
  · rcases h.2 (by decide) (by decide) with ⟨v, hv, hshows⟩
    rw [hhead] at hv
    exact ⟨v, hv, hshows.mpr (by decide)⟩

def fullHash : CString :=
  CString.lit "d41d8cd98f00b204e9800998ecf8427e"

/-- A hash of 32 characters and a day whose low byte is not zero. -/
theorem not_hash_survives_fullHash :
    fullHash.length ≤ 32 ∧ Terminated blank ∧
      ¬ HashSurvives blank fullHash [(.dsc, 15819)] := by
  have hlen : fullHash.length = 32 := by decide
  refine ⟨Nat.le_of_eq hlen, show blank.username.length ≤ 15 by decide, ?_⟩
  rw [hashSurvives_iff_spared blank (Nat.le_of_eq hlen)]
  intro hspared
  rcases hspared.room with hshort | ⟨_, hlast⟩
  · rw [hlen] at hshort
    cases Nat.lt_irrefl 31 hshort
  · exact absurd (hlast 15819 rfl) (by decide)

end UserImage

/-- A mounted file system over byte images, with no backing file yet. -/
def imageProcess (sf : List UserImage) : Process UserImage :=
  { root := sf, filename := CString.lit "shadow.out",
    backingPath := CString.lit "/shadow.out", cwd := CString.lit "",
    disk := fun _ => none }

end ShadowFs

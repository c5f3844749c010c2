import ShadowFs.Callbacks.HashField
import ShadowFs.Callbacks.Lookup

/-!
# Creating a file

`sh_mknod` creates no file.  As its comment says it only edits the `reserved` field: the
name of the file to be created, whatever it is, becomes the text of that field for the user
whose directory it is.  So the created file is there afterwards exactly if its name is an
attribute name, and the one file whose contents change is `reserved`.
-/

namespace ShadowFs

open CLib UserRep

section Lookups

variable {ρ : Type} [UserRep ρ]

theorem reaches_replace_iff {u v : ρ} (hname : username v = username u) (front back : List ρ)
    (name : CString) : Reaches (front ++ v :: back) name <-> Reaches (front ++ u :: back) name := by
  rw [Reaches, Reaches, findUser_replace_of_eq front back hname,
    findUser_replace_of_eq front back hname]

/-- The attribute file looks the same through `sh_getattr` and every `sh_read`. -/
structure SameContents (p p' : Process ρ) (path : Path) : Prop where
  stat : shGetattr p' path = shGetattr p path
  content : forall stack buf size offset,
    (shRead p' stack path buf size offset).1 = (shRead p stack path buf size offset).1

theorem sameContents_of_record {p p' : Process ρ} {path : Path} {u v : ρ}
    (hfile : path.name ≠ CString.lit "sh_file") (hreach : Reaches p.root path.name)
    (hreach' : Reaches p'.root path.name)
    (hu : findRecord p.root (headName path.name) = some u)
    (hv : findRecord p'.root (headName path.name) = some v)
    (hsize : isAttr (attrText path.name) v = isAttr (attrText path.name) u)
    (hread : forall stack buf size offset,
      readAttr v (attrOf (attrText path.name)) stack buf size offset =
        readAttr u (attrOf (attrText path.name)) stack buf size offset) :
    SameContents p p' path where
  stat := by
    rw [shGetattr_file hreach.2.1 hreach.1 hu, shGetattr_file hreach'.2.1 hreach'.1 hv, hsize]
  content := by
    intro stack buf size offset
    rw [shRead_of_reaches hreach hfile hu, shRead_of_reaches hreach' hfile hv, hread]

end Lookups

theorem readAttr_setReserved {attr : Option Attr} (hattr : attr ≠ some .reserved)
    (r : Option CString) (u : UserImage) (stack : Nat -> Byte) (buf : List Byte)
    (size offset : Nat) :
    readAttr { u with reserved := r } attr stack buf size offset =
      readAttr u attr stack buf size offset := by
  cases attr with
  | none => rfl
  | some a =>
      cases a with
      | reserved => exact absurd rfl hattr
      | _ => rfl

theorem isAttr_setReserved {file : CString} (hattr : attrOf file ≠ some .reserved)
    (r : Option CString) (u : UserImage) :
    isAttr file { u with reserved := r } = isAttr file u := by
  unfold isAttr
  cases ha : attrOf file with
  | none => rfl
  | some a =>
      cases a with
      | reserved => exact absurd ha hattr
      | _ => rfl

/-- The name `x` becomes the `reserved` text of `u`, in whose directory the file was to be
created, and every attribute file but that one is as it was. -/
structure StoresReserved (p p' : Process UserImage) (path : Path) (u : UserImage)
    (x : CString) : Prop where
  file : path.name = fileOf u.username x
  owner : findRecord p.root u.username = some u
  fits : x.length ≤ 49
  stored : findRecord p'.root u.username = some { u with reserved := some x }
  reported : ReportsRegular p' path <-> attrOf x ≠ none
  unchanged : forall q : Path, q.name ≠ CString.lit "sh_file" -> ReportsRegular p q ->
    q.name ≠ fileOf u.username (Attr.fileName .reserved) -> SameContents p p' q

theorem FirstMatch.sameContents_reserved {p : Process UserImage} {front back : List UserImage}
    {u : UserImage} (hm : FirstMatch p.root u.username front u back)
    (hshort : forall v, v ∈ p.root -> (username v).length ≤ 8) (r : Option CString)
    {path : Path} (hfile : path.name ≠ CString.lit "sh_file") (hregular : ReportsRegular p path)
    (hother : path.name ≠ fileOf u.username (Attr.fileName .reserved)) :
    SameContents p { p with root := front ++ { u with reserved := r } :: back } path := by
  have hreach := ((reportsRegular_iff hfile).mp hregular).1
  have hname : username ({ u with reserved := r } : UserImage) = username u := rfl
  have hreach' : Reaches (front ++ { u with reserved := r } :: back) path.name := by
    rw [reaches_replace_iff hname, ← hm.split]
    exact hreach
  rcases hreach.eq_fileOf hshort with ⟨w, hw, _, hgrammar⟩
  by_cases hhead : headName path.name = u.username
  · -- the files of the same user: all but the excluded one show other fields
    have hnew : FirstMatch (front ++ { u with reserved := r } :: back) (headName path.name)
        front { u with reserved := r } back := by
      rw [hhead]
      exact hm.update rfl
    rw [hhead, hm.findRecord_eq] at hw
    cases hw
    have hattr : attrOf (attrText path.name) ≠ some .reserved := by
      intro h
      rw [attrOf_eq_some_iff.mp h] at hgrammar
      exact hother hgrammar
    have hold : findRecord p.root (headName path.name) = some u := by
      rw [hhead, hm.findRecord_eq]
    exact sameContents_of_record hfile hreach hreach' hold hnew.findRecord_eq
      (isAttr_setReserved hattr r u) (readAttr_setReserved hattr r u)
  · have hsame : findRecord (front ++ { u with reserved := r } :: back) (headName path.name) =
        findRecord p.root (headName path.name) := by
      rw [hm.split]
      exact findRecord_replace_of_ne front back (Ne.symm hhead) (Ne.symm hhead)
    rw [← hsame] at hw
    exact sameContents_of_record hfile hreach hreach' (hsame ▸ hw) hw rfl (fun _ _ _ _ => rfl)

/-- What a successful `sh_mknod` does, for user names of up to eight bytes. -/
theorem storesReserved_of_shMknod {p : Process UserImage}
    (hp : forall u, u ∈ p.root -> ValidName (username u))
    (hshort : forall u, u ∈ p.root -> (username u).length ≤ 8) {env : Env UserImage}
    {path : Path} {sf' : List UserImage} (h : shMknod env p.root path = .ok (0, sf')) :
    exists u x, StoresReserved p { p with root := sf' } path u x := by
  by_cases hreach : Reaches p.root path.name
  · rcases hreach.eq_fileOf hshort with ⟨u, hu, hmem, hgrammar⟩
    have hhead : headName path.name = u.username := by
      rw [hgrammar]
      exact headName_fileOf _ (hp u hmem).noSlash (Nat.le_succ_of_le (hshort u hmem))
    rcases hreach.exists_firstMatch with ⟨front, u', back, hm⟩
    rw [hm.findRecord_eq] at hu
    cases hu
    rcases shMknod_ok_of_reaches hreach hm h with ⟨hbuffer, heq⟩
    cases heq
    rw [hhead] at hm
    have hnew : FirstMatch (front ++ { u with reserved := some (attrText path.name) } :: back)
        u.username front { u with reserved := some (attrText path.name) } back :=
      hm.update rfl
    have hfile : path.name ≠ CString.lit "sh_file" := by
      rw [hgrammar]
      exact fileOf_ne_shFile _ _
    refine ⟨u, attrText path.name, hgrammar, hm.findRecord_eq, Nat.le_of_lt_succ hbuffer.2,
      hnew.findRecord_eq, ?_, ?_⟩
    · rw [reportsRegular_iff hfile]
      have hreach' : Reaches
          (front ++ { u with reserved := some (attrText path.name) } :: back) path.name := by
        have hname : username ({ u with reserved := some (attrText path.name) } : UserImage) =
          username u := rfl
        rw [reaches_replace_iff hname, ← hm.split]
        exact hreach
      exact ⟨fun hregular => hregular.2, fun hattr => ⟨hreach', hattr⟩⟩
    · intro q hq hregular hother
      exact hm.sameContents_reserved hshort _ hq hregular hother
  · rcases shMknod_of_not_reaches hreach env with ⟨code, hneg, hcode⟩
    rw [hcode] at h
    cases h
    exact absurd hneg (by decide)

def notedUser : UserImage :=
  { initUser UserImage.calmEnv (CString.lit "bin") UserImage.blank with
    reserved := some (CString.lit "note") }

theorem notedUser_valid :
    forall u, u ∈ (imageProcess [notedUser]).root ->
      ValidName (username u) ∧ (username u).length ≤ 8 := by
  intro u hu
  rw [List.mem_singleton.mp hu]
  decide

theorem storesReserved_notedUser :
    exists sf', shMknod UserImage.calmEnv [notedUser]
        (Path.of (CString.lit "bin/password-hash") []) = .ok (0, sf') ∧
      exists u x, StoresReserved (imageProcess [notedUser])
        { imageProcess [notedUser] with root := sf' }
        (Path.of (CString.lit "bin/password-hash") []) u x := by
  have hcreated : exists sf', shMknod UserImage.calmEnv (imageProcess [notedUser]).root
      (Path.of (CString.lit "bin/password-hash") []) = .ok (0, sf') := ⟨_, rfl⟩
  rcases hcreated with ⟨sf', hsf'⟩
  exact ⟨sf', hsf', storesReserved_of_shMknod (fun u hu => (notedUser_valid u hu).1)
    (fun u hu => (notedUser_valid u hu).2) hsf'⟩

/-- The file is not there after its creation, and the text of another one is gone. -/
theorem not_created_foo :
    (forall u, u ∈ (imageProcess [notedUser]).root ->
        ValidName (username u) ∧ (username u).length ≤ 8) ∧
      exists sf', shMknod UserImage.calmEnv [notedUser]
          (Path.of (CString.lit "bin/foo") []) = .ok (0, sf') ∧
        ¬ ReportsRegular { imageProcess [notedUser] with root := sf' }
          (Path.of (CString.lit "bin/foo") []) ∧
        ReportsRegular (imageProcess [notedUser]) (Path.of (CString.lit "bin/reserved") []) ∧
        ¬ SameContents (imageProcess [notedUser]) { imageProcess [notedUser] with root := sf' }
          (Path.of (CString.lit "bin/reserved") []) := by
  refine ⟨notedUser_valid, _, rfl, ?_, ⟨by decide, by decide⟩, ?_⟩
  · intro h
    exact absurd h.1 (by decide)
  · intro h
    exact absurd h.stat (by decide)

end ShadowFs

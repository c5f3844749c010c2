import ShadowFs.Callbacks.Specs

/-!
# Names of files

The eight attribute names, the text of the path `/u/a`, and `sh_getattr` in
terms of the path's name.  For user names of at most nine bytes the copy made
by `user_from_path` recovers the two parts of such a path; and a copy of at
most eight bytes that stops inside the path must have stopped at a slash.
-/

namespace ShadowFs

open CLib UserRep

/-!
## Attribute names
-/

def Attr.fileName : Attr -> CString
  | .passwordHash => CString.lit "password-hash"
  | .daysSinceChanged => CString.lit "days_since_changed"
  | .daysUntilCanChange => CString.lit "days_until_can_change"
  | .daysUntilMustChange => CString.lit "days_until_must_change"
  | .daysBeforeWarning => CString.lit "days_before_warning"
  | .daysUntilExpiration => CString.lit "days_until_expiration"
  | .daysSinceAccountDeactivated => CString.lit "days_since_account_deactivated"
  | .reserved => CString.lit "reserved"

theorem attrOf_fileName (a : Attr) : attrOf a.fileName = some a := by
  cases a <;> decide

theorem attrOf_eq_some_iff {s : CString} {a : Attr} :
    attrOf s = some a <-> s = a.fileName := by
  constructor
  · intro h
    unfold attrOf at h
    repeat' split at h
    all_goals first
      | cases h
        assumption
      | cases h
  · intro h
    rw [h, attrOf_fileName]

theorem attrOf_eq_none_iff {s : CString} :
    attrOf s = none <-> forall a : Attr, s ≠ a.fileName := by
  constructor
  · intro h a hs
    rw [hs, attrOf_fileName] at h
    cases h
  · intro h
    cases hattr : attrOf s with
    | none => rfl
    | some a => exact absurd (attrOf_eq_some_iff.mp hattr) (h a)

theorem slash_not_mem_fileName (a : Attr) : slash ∉ a.fileName.bytes := by
  cases a <;> decide

/-!
## The path of an attribute file
-/

/-- The text of `/u/a` behind its leading slash. -/
def fileOf (user file : CString) : CString :=
  user ++ CString.lit "/" ++ file

@[simp] theorem fileOf_bytes (user file : CString) :
    (fileOf user file).bytes = user.bytes ++ slash :: file.bytes := by
  have hslash : (CString.lit "/").bytes = [slash] := by decide
  simp [fileOf, hslash]

theorem slash_mem_fileOf (user file : CString) :
    slash ∈ (fileOf user file).bytes := by
  simp

theorem headName_fileOf {user : CString} (file : CString)
    (hslash : slash ∉ user.bytes) (hlen : user.length ≤ 9) :
    headName (fileOf user file) = user := by
  have hlen' : user.bytes.length ≤ 9 := hlen
  have hall := forall_ne_of_not_mem hslash
  ext1
  show ((fileOf user file).bytes.take 9).takeWhile (fun b => b ≠ slash) = user.bytes
  rw [fileOf_bytes, List.take_append, List.take_of_length_le hlen',
    List.takeWhile_append_of_pos hall]
  cases hrest : 9 - user.bytes.length with
  | zero => simp
  | succ n => simp

theorem attrText_fileOf {user : CString} (file : CString)
    (hslash : slash ∉ user.bytes) (hlen : user.length ≤ 9) :
    attrText (fileOf user file) = file := by
  ext1
  show (fileOf user file).bytes.drop ((headName (fileOf user file)).length + 1) = _
  rw [headName_fileOf file hslash hlen, fileOf_bytes, CString.length]
  have hcons : user.bytes ++ slash :: file.bytes =
      (user.bytes ++ [slash]) ++ file.bytes := by
    simp
  rw [hcons]
  exact List.drop_left' (by simp)

/-- A copy of at most eight bytes that is not the whole name ended at a slash. -/
theorem eq_fileOf_of_headName {name : CString}
    (hshort : (headName name).length ≤ 8)
    (hlt : (headName name).length < name.length) :
    name = fileOf (headName name) (attrText name) := by
  have hlt' : (headName name).bytes.length < name.bytes.length := hlt
  have hshort' : (headName name).bytes.length ≤ 8 := hshort
  have hwindow : (headName name).bytes.length < (name.bytes.take 9).length := by
    rw [List.length_take]
    lia
  have hdrop := List.takeWhile_append_dropWhile
    (p := fun b : Byte => decide (b ≠ slash)) (l := name.bytes.take 9)
  have hhead : (name.bytes.take 9).takeWhile (fun b => decide (b ≠ slash)) =
      (headName name).bytes := rfl
  cases hrest : (name.bytes.take 9).dropWhile (fun b => decide (b ≠ slash)) with
  | nil =>
      rw [hrest, hhead, List.append_nil] at hdrop
      rw [hdrop] at hwindow
      exact absurd hwindow (Nat.lt_irrefl _)
  | cons b rest =>
      have hb : b = slash := by
        have hfirst := List.head_dropWhile_not (fun b : Byte => decide (b ≠ slash))
          (l := name.bytes.take 9) (by rw [hrest]; simp)
        simp only [hrest, List.head_cons] at hfirst
        simpa using hfirst
      rw [hrest, hhead, hb] at hdrop
      have hname : name.bytes =
          (headName name).bytes ++ slash :: (rest ++ name.bytes.drop 9) := by
        calc name.bytes = name.bytes.take 9 ++ name.bytes.drop 9 :=
              (List.take_append_drop 9 _).symm
          _ = _ := by rw [← hdrop]; simp
      have htext : (attrText name).bytes = rest ++ name.bytes.drop 9 := by
        show name.bytes.drop ((headName name).bytes.length + 1) = _
        have hcons : name.bytes =
            ((headName name).bytes ++ [slash]) ++ (rest ++ name.bytes.drop 9) := by
          rw [List.append_assoc]
          exact hname
        have hdropped : ((headName name).bytes ++ [slash] ++
            (rest ++ name.bytes.drop 9)).drop ((headName name).bytes.length + 1) =
              rest ++ name.bytes.drop 9 :=
          List.drop_left' (by simp)
        rw [← hcons] at hdropped
        exact hdropped
      ext1
      rw [fileOf_bytes, htext]
      exact hname

/-!
## `sh_getattr` by name
-/

section Getattr

variable {ρ : Type} [UserRep ρ]

theorem isAttr_neg_iff (s : CString) (u : ρ) : ¬ isAttr s u > -1 <-> attrOf s = none := by
  unfold isAttr
  cases hattr : attrOf s with
  | none => simp
  | some a =>
      cases a with
      | reserved =>
          cases reserved u with
          | none => simp
          | some r =>
              simp only [reduceCtorEq, iff_false, not_not]
              lia
      | _ =>
          simp only [reduceCtorEq, iff_false, not_not]
          lia

theorem shGetattr_root {p : Process ρ} {path : Path} (h : path.name.bytes = []) :
    shGetattr p path = (0, { mode := S_IFDIR ||| 0o755, nlink := 2, size := 0 }) := by
  simp only [shGetattr, if_pos (path.str_eq_root_iff.mpr h)]

theorem shGetattr_user {p : Process ρ} {path : Path} (h : path.name.bytes ≠ [])
    (huser : findUser p.root path.name ≠ none) :
    shGetattr p path = (0, { mode := S_IFDIR ||| 0o755, nlink := 1, size := 0 }) := by
  have hroot := path.str_ne_root h
  have hname : path.strAt 1 = path.name := rfl
  simp only [shGetattr, hname, if_neg hroot, if_pos huser]

theorem shGetattr_file {p : Process ρ} {path : Path} {u : ρ}
    (h : path.name.bytes ≠ []) (hnone : findUser p.root path.name = none)
    (hu : findRecord p.root (headName path.name) = some u) :
    shGetattr p path =
      if attrOf (attrText path.name) = none then (-ENOENT, Stat.zero)
      else
        (0, { mode := S_IFREG ||| 0o666, nlink := 1,
              size := (isAttr (attrText path.name) u).toNat }) := by
  have hroot := path.str_ne_root h
  have hname : path.strAt 1 = path.name := rfl
  have hhead : findUser p.root (headName path.name) ≠ none :=
    findUser_ne_none_iff_findRecord.mpr ⟨u, hu⟩
  have hneg := isAttr_neg_iff (attrText path.name) u
  simp only [shGetattr, hname, if_neg hroot, hnone, path.unameOf_eq, hu,
    strAt_attrIndex_of_reach hnone hhead]
  by_cases hattr : attrOf (attrText path.name) = none
  · simp [hneg.mpr hattr, hattr]
  · have hpos : isAttr (attrText path.name) u > -1 := by
      by_contra hnot
      exact hattr (hneg.mp hnot)
    simp [hpos, hattr]

theorem shGetattr_other {p : Process ρ} {path : Path}
    (h : path.name.bytes ≠ []) (hnone : findUser p.root path.name = none)
    (hhead : findUser p.root (headName path.name) = none) :
    shGetattr p path =
      if path.name = CString.lit "sh_file" then p.lstat p.backingPath
      else (-ENOENT, Stat.zero) := by
  have hroot := path.str_ne_root h
  have hname : path.strAt 1 = path.name := rfl
  simp only [shGetattr, hname, if_neg hroot, hnone, path.unameOf_eq,
    findRecord_of_none hhead]
  simp

end Getattr

end ShadowFs

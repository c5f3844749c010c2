import ShadowFs.Callbacks.Operations

/-!
# What each callback does to the user list

One lemma for each callback, in terms of the path's name alone.  A path reaches
an attribute file when no user carries the whole name and some user carries the
name in front; only then is the rest of the path compared with the attribute
names, and only then is it known to lie inside the path.  The three operations
on attribute files replace the first record with that name by an edited one.
-/

namespace ShadowFs

open CLib UserRep

section Reach

variable {ρ : Type} [UserRep ρ]

/-- The lookups at the start of the attribute operations succeed. -/
def Reaches (sf : List ρ) (name : CString) : Prop :=
  findUser sf name = none ∧ name.bytes ≠ [] ∧ findUser sf (headName name) ≠ none

instance (sf : List ρ) (name : CString) : Decidable (Reaches sf name) :=
  inferInstanceAs (Decidable (_ ∧ _ ∧ _))

theorem headName_lt_of_reach {sf : List ρ} {name : CString}
    (hnone : findUser sf name = none) (hhead : findUser sf (headName name) ≠ none) :
    (headName name).length < name.length := by
  rcases headName_eq_self_or_lt name with heq | hlt
  · rw [heq] at hhead
    exact absurd hnone hhead
  · exact hlt

theorem strAt_attrIndex_of_reach {sf : List ρ} {path : Path}
    (hnone : findUser sf path.name = none)
    (hhead : findUser sf (headName path.name) ≠ none) :
    path.strAt (attrIndex path.toCBuffer) = attrText path.name :=
  path.strAt_attrIndex (headName_lt_of_reach hnone hhead)

theorem entry_iff (sf : List ρ) (path : Path) :
    (findUser sf (path.strAt 1) ≠ none ∨ path.str = CString.lit "/") <->
      ¬ (findUser sf path.name = none ∧ path.name.bytes ≠ []) := by
  rw [path.str_eq_root_iff]
  show (findUser sf path.name ≠ none ∨ _) <-> _
  tauto

theorem Reaches.not_entry {sf : List ρ} {path : Path} (h : Reaches sf path.name) :
    ¬ (findUser sf (path.strAt 1) ≠ none ∨ path.str = CString.lit "/") := by
  rw [entry_iff, not_not]
  exact ⟨h.1, h.2.1⟩

theorem findUser_headName_of_not_reaches {sf : List ρ} {path : Path}
    (h : ¬ Reaches sf path.name)
    (hentry : ¬ (findUser sf (path.strAt 1) ≠ none ∨ path.str = CString.lit "/")) :
    findUser sf (headName path.name) = none := by
  rw [entry_iff, not_not] at hentry
  by_contra hne
  exact h ⟨hentry.1, hentry.2, hne⟩

end Reach

/-!
## Edits of one record
-/

section Edits

variable {ρ : Type} [UserRep ρ]

def writeEdit (env : Env ρ) (attr : Option Attr) (buf : CBuffer) (u : ρ) : ρ :=
  match attr with
  | some .passwordHash =>
      setDay .dsc (shadowTime env.time) (strcpyHash (hashword buf.str) u)
  | some .daysSinceChanged => setDay .dsc (atoi buf.str.bytes) u
  | some .daysUntilCanChange => setDay .dcc (atoi buf.str.bytes) u
  | some .daysUntilMustChange => setDay .dmc (atoi buf.str.bytes) u
  | some .daysBeforeWarning => setDay .dw (atoi buf.str.bytes) u
  | some .daysUntilExpiration => setDay .de (atoi buf.str.bytes) u
  | some .daysSinceAccountDeactivated => setDay .dd (atoi buf.str.bytes) u
  | some .reserved => setReserved (some buf.str) u
  | none => u

def unlinkEdit (env : Env ρ) (attr : Option Attr) (u : ρ) : ρ :=
  match attr with
  | some .passwordHash => strcpyHash (CString.lit "!") u
  | some .daysSinceChanged => setDay .dsc (shadowTime env.time) u
  | some .daysUntilCanChange => setDay .dcc 0 u
  | some .daysUntilMustChange => setDay .dmc 99999 u
  | some .daysBeforeWarning => setDay .dw 7 u
  | some .daysUntilExpiration => setDay .de 0 u
  | some .daysSinceAccountDeactivated => setDay .dd 0 u
  | some .reserved => setReserved none u
  | none => u

theorem terminated_writeEdit (env : Env ρ) (attr : Option Attr) (buf : CBuffer)
    {u : ρ} (hu : terminated u) : terminated (writeEdit env attr buf u) := by
  rcases attr with _ | attr
  · exact hu
  · cases attr <;>
      first
        | exact terminated_setDay _ _ _ (terminated_strcpyHash _ _ hu)
        | exact terminated_setDay _ _ _ hu
        | exact terminated_setReserved _ _ hu

theorem username_writeEdit (env : Env ρ) (attr : Option Attr) (buf : CBuffer)
    {u : ρ} (hu : terminated u) :
    username (writeEdit env attr buf u) = username u := by
  rcases attr with _ | attr
  · rfl
  · cases attr with
    | passwordHash =>
        have hhash := terminated_strcpyHash (hashword buf.str) u hu
        exact (username_setDay _ _ _ hhash).trans (username_strcpyHash _ u hu)
    | reserved => exact username_setReserved _ u hu
    | _ => exact username_setDay _ _ u hu

theorem terminated_unlinkEdit (env : Env ρ) (attr : Option Attr) {u : ρ}
    (hu : terminated u) : terminated (unlinkEdit env attr u) := by
  rcases attr with _ | attr
  · exact hu
  · cases attr <;>
      first
        | exact terminated_strcpyHash _ _ hu
        | exact terminated_setDay _ _ _ hu
        | exact terminated_setReserved _ _ hu

theorem username_unlinkEdit (env : Env ρ) (attr : Option Attr) {u : ρ}
    (hu : terminated u) : username (unlinkEdit env attr u) = username u := by
  rcases attr with _ | attr
  · rfl
  · cases attr with
    | passwordHash => exact username_strcpyHash _ u hu
    | reserved => exact username_setReserved _ u hu
    | _ => exact username_setDay _ _ u hu

theorem reserved_writeEdit_ne_none (env : Env ρ) (attr : Option Attr) (buf : CBuffer)
    {u : ρ} (hu : reserved u ≠ none) : reserved (writeEdit env attr buf u) ≠ none := by
  rcases attr with _ | attr
  · exact hu
  · cases attr with
    | passwordHash =>
        have hlen := Nat.le_of_eq (hashword_length buf.str)
        simp only [writeEdit]
        rw [reserved_setDay, reserved_strcpyHash _ u hlen]
        exact hu
    | reserved =>
        simp only [writeEdit]
        exact reserved_setReserved_some_ne_none _ u
    | _ =>
        simp only [writeEdit]
        rw [reserved_setDay]
        exact hu

theorem reserved_unlinkEdit (env : Env ρ) {attr : Option Attr} (u : ρ)
    (hattr : attr ≠ some .reserved) : reserved (unlinkEdit env attr u) = reserved u := by
  rcases attr with _ | attr
  · rfl
  · cases attr with
    | passwordHash => exact reserved_strcpyHash _ u (by decide)
    | reserved => exact absurd rfl hattr
    | _ => exact reserved_setDay _ _ u

/-- The second lookup of a password write finds the record of the first. -/
theorem FirstMatch.writeAttr_eq {sf front back : List ρ} {uname : CString} {u : ρ}
    (h : FirstMatch sf uname front u back) (hu : terminated u)
    (env : Env ρ) (attr : Option Attr) (buf : CBuffer) :
    writeAttr env sf uname attr buf = front ++ writeEdit env attr buf u :: back := by
  rcases attr with _ | attr
  · exact h.split
  · cases attr with
    | passwordHash =>
        have hlen : (hashword buf.str).length ≤ 32 := by rw [hashword_length]
        have hstep := h.update (username_strcpyHash (hashword buf.str) u hu)
        simp only [writeAttr, writeEdit, updateDaysSinceChanged,
          updateHash_eq_updateField _ _ hlen, h.updateField_eq, hstep.updateField_eq]
    | _ => exact congrArg Prod.snd (h.updateField_eq _)

theorem FirstMatch.unlinkAttr_eq {sf front back : List ρ} {uname : CString} {u : ρ}
    (h : FirstMatch sf uname front u back) (env : Env ρ) (attr : Option Attr) :
    unlinkAttr env sf uname attr = front ++ unlinkEdit env attr u :: back := by
  rcases attr with _ | attr
  · exact h.split
  · cases attr with
    | passwordHash =>
        have hlen : (CString.lit "!").length ≤ 32 := by decide
        simp only [unlinkAttr, unlinkEdit, updateHash_eq_updateField _ _ hlen,
          h.updateField_eq]
    | _ => exact congrArg Prod.snd (h.updateField_eq _)

end Edits

/-!
## Sizes and copies

libfuse receives a request into one buffer of 0x21000 bytes, so the size of a
read or write is far below the range of `int`.
-/

theorem toInt_of_lt {size : Nat} (h : size < 2 ^ 31) : toInt size = (size : Int) :=
  Int32.toInt_ofNat_of_lt h

theorem toInt_nonneg {size : Nat} (h : size < 2 ^ 31) : 0 ≤ toInt size := by
  rw [toInt_of_lt h]
  exact Int.natCast_nonneg size

theorem copyOut_localArray {text : List Byte} {offset n : Nat}
    (h : offset + n ≤ text.length) (stack : Nat -> Byte) (buf : List Byte) :
    copyOut (localArray text stack) offset n buf =
      (text.drop offset).take n ++ buf.drop n := by
  have htext : (List.range n).map (fun k => localArray text stack (offset + k)) =
      (text.drop offset).take n := by
    apply List.ext_getElem
    · simp
      lia
    · intro k hk _
      have hk' : offset + k < text.length := by
        simp only [List.length_map, List.length_range] at hk
        lia
      simp [localArray, hk']
  rw [copyOut, htext]

/-!
## The operations on attribute files
-/

section Specs

variable {ρ : Type} [UserRep ρ]

theorem Reaches.exists_firstMatch {sf : List ρ} {name : CString}
    (h : Reaches sf name) :
    exists front u back, FirstMatch sf (headName name) front u back :=
  ShadowFs.exists_firstMatch h.2.2

theorem shWrite_of_not_reaches {sf : List ρ} {path : Path}
    (h : ¬ Reaches sf path.name) (env : Env ρ) (buf : CBuffer) (size : Nat) :
    shWrite env sf path buf size = (-ENOENT, sf) := by
  rw [shWrite]
  split
  · rfl
  · rename_i hentry
    have hhead := findUser_headName_of_not_reaches h hentry
    simp only [path.unameOf_eq, hhead]

theorem shWrite_of_reaches {sf : List ρ} {path : Path}
    (h : Reaches sf path.name) (env : Env ρ) (buf : CBuffer) (size : Nat) :
    shWrite env sf path buf size =
      (toInt size,
        writeAttr env sf (headName path.name) (attrOf (attrText path.name)) buf) := by
  rcases h.exists_firstMatch with ⟨front, u, back, hm⟩
  rw [shWrite, if_neg h.not_entry]
  simp only [path.unameOf_eq, hm.findUser_eq, strAt_attrIndex_of_reach h.1 h.2.2]

theorem shUnlink_of_not_reaches {sf : List ρ} {path : Path}
    (h : ¬ Reaches sf path.name) (env : Env ρ) :
    shUnlink env sf path = (-ENOENT, sf) := by
  rw [shUnlink]
  split
  · rfl
  · rename_i hentry
    have hhead := findUser_headName_of_not_reaches h hentry
    simp only [path.unameOf_eq, hhead]

theorem shUnlink_of_reaches {sf : List ρ} {path : Path}
    (h : Reaches sf path.name) (env : Env ρ) :
    shUnlink env sf path =
      (0, unlinkAttr env sf (headName path.name) (attrOf (attrText path.name))) := by
  rcases h.exists_firstMatch with ⟨front, u, back, hm⟩
  rw [shUnlink, if_neg h.not_entry]
  simp only [path.unameOf_eq, hm.findUser_eq, strAt_attrIndex_of_reach h.1 h.2.2]

theorem shMknod_of_not_reaches {sf : List ρ} {path : Path}
    (h : ¬ Reaches sf path.name) (env : Env ρ) :
    exists code : Int, code < 0 ∧ shMknod env sf path = .ok (code, sf) := by
  rw [shMknod]
  split
  · exact ⟨-ENOENT, by decide, rfl⟩
  · rename_i hentry
    have hhead := findUser_headName_of_not_reaches h hentry
    exact ⟨-EACCES, by decide, by simp only [path.unameOf_eq, hhead]⟩

/-- `sh_mknod` gets its buffer, and the file name fits it with its terminator. -/
def GetsBuffer (env : Env ρ) (name : CString) : Prop :=
  env.buffer = true ∧ (attrText name).length < 50

instance (env : Env ρ) (name : CString) : Decidable (GetsBuffer env name) :=
  inferInstanceAs (Decidable (_ ∧ _))

theorem shMknod_of_reaches {sf front back : List ρ} {path : Path} {u : ρ}
    (h : Reaches sf path.name)
    (hm : FirstMatch sf (headName path.name) front u back) (env : Env ρ) :
    shMknod env sf path =
      if env.buffer then
        if (attrText path.name).length ≥ 50 then .error .bufferOverflow
        else .ok (0, front ++ setReserved (some (attrText path.name)) u :: back)
      else .error .nullPointer := by
  have hmodify := modify_append_cons front back u (setReserved (some (attrText path.name)))
  rw [← hm.split] at hmodify
  rw [shMknod, if_neg h.not_entry]
  simp only [path.unameOf_eq, hm.findUser_eq, strAt_attrIndex_of_reach h.1 h.2.2, hmodify]

theorem shMknod_of_getsBuffer {sf front back : List ρ} {path : Path} {u : ρ}
    (h : Reaches sf path.name)
    (hm : FirstMatch sf (headName path.name) front u back) {env : Env ρ}
    (hbuffer : GetsBuffer env path.name) :
    shMknod env sf path =
      .ok (0, front ++ setReserved (some (attrText path.name)) u :: back) := by
  rw [shMknod_of_reaches h hm, if_pos hbuffer.1, if_neg (Nat.not_le_of_lt hbuffer.2)]

theorem shMknod_ok_of_reaches {sf front back : List ρ} {path : Path} {u : ρ}
    (h : Reaches sf path.name)
    (hm : FirstMatch sf (headName path.name) front u back) {env : Env ρ} {res : Int × List ρ}
    (hres : shMknod env sf path = .ok res) :
    GetsBuffer env path.name ∧
      res = (0, front ++ setReserved (some (attrText path.name)) u :: back) := by
  rw [shMknod_of_reaches h hm] at hres
  split at hres
  · rename_i hbuffer
    split at hres
    · cases hres
    · rename_i hfits
      cases hres
      exact ⟨⟨hbuffer, Nat.lt_of_not_le hfits⟩, rfl⟩
  · cases hres

theorem shRead_of_reaches {p : Process ρ} {path : Path} {u : ρ}
    (h : Reaches p.root path.name) (hfile : path.name ≠ CString.lit "sh_file")
    (hu : findRecord p.root (headName path.name) = some u) (stack : Nat -> Byte)
    (buf : List Byte) (size offset : Nat) :
    shRead p stack path buf size offset =
      (readAttr u (attrOf (attrText path.name)) stack buf size offset, p) := by
  have hfile' : ¬ path.strAt 1 = CString.lit "sh_file" := hfile
  rw [shRead, if_neg hfile', if_neg h.not_entry]
  simp only [path.unameOf_eq, hu, strAt_attrIndex_of_reach h.1 h.2.2]

theorem shRead_of_not_reaches {p : Process ρ} {path : Path}
    (h : ¬ Reaches p.root path.name) (hfile : path.name ≠ CString.lit "sh_file")
    (stack : Nat -> Byte) (buf : List Byte) (size offset : Nat) :
    shRead p stack path buf size offset = ((-ENOENT, buf), p) := by
  have hfile' : ¬ path.strAt 1 = CString.lit "sh_file" := hfile
  rw [shRead, if_neg hfile']
  split
  · rfl
  · rename_i hentry
    have hhead := findUser_headName_of_not_reaches h hentry
    simp only [path.unameOf_eq, findRecord_of_none hhead]

theorem shRead_process (p : Process ρ) (stack : Nat -> Byte) (path : Path)
    (buf : List Byte) (size offset : Nat) :
    (shRead p stack path buf size offset).2 =
      if path.name = CString.lit "sh_file" then p.flush else p := by
  have hname : path.strAt 1 = path.name := rfl
  unfold shRead
  rw [hname]
  split
  · dsimp only
    split <;> rfl
  · split
    · rfl
    · split <;> rfl

theorem shRead_root (p : Process ρ) (stack : Nat -> Byte) (path : Path)
    (buf : List Byte) (size offset : Nat) :
    (shRead p stack path buf size offset).2.root = p.root := by
  rw [shRead_process]
  split <;> rfl

/-!
## The operations on users
-/

theorem shMkdir_cases (env : Env ρ) (sf : List ρ) (path : Path) :
    shMkdir env sf path = (-EEXIST, sf) ∨
      (exists u, env.block = some u ∧ findUser sf path.name = none ∧
        path.name.length ≤ 16 ∧
        shMkdir env sf path = (0, sf ++ [initUser env path.name u])) := by
  have hname : path.strAt 1 = path.name := rfl
  rcases sfTreeAddUser_cases env sf path.name with hfail | hnew
  · rcases hfail with ⟨code, hneg, hadd⟩
    apply Or.inl
    simp only [shMkdir, hname, hadd, if_pos hneg]
  · rcases hnew with ⟨u, hblock, hnone, hlen, hadd⟩
    apply Or.inr
    refine ⟨u, hblock, hnone, hlen, ?_⟩
    simp [shMkdir, hname, hadd]

/-- The checks `sf_tree_add_user` makes before it stores a name. -/
def Accepts (env : Env ρ) (sf : List ρ) (name : CString) : Prop :=
  findUser sf name = none ∧ env.block ≠ none ∧ name.length ≤ 16

instance (env : Env ρ) (sf : List ρ) (name : CString) : Decidable (Accepts env sf name) :=
  inferInstanceAs (Decidable (_ ∧ _ ∧ _))

theorem shMkdir_of_accepts {env : Env ρ} {sf : List ρ} {path : Path}
    (h : Accepts env sf path.name) :
    exists u, env.block = some u ∧
      shMkdir env sf path = (0, sf ++ [initUser env path.name u]) := by
  rcases Option.ne_none_iff_exists'.mp h.2.1 with ⟨u, hblock⟩
  have hname : path.strAt 1 = path.name := rfl
  have hadd := sfTreeAddUser_of_new h.1 hblock h.2.2
  exact ⟨u, hblock, by simp [shMkdir, hname, hadd]⟩

theorem shMkdir_of_not_accepts {env : Env ρ} {sf : List ρ} {path : Path}
    (h : ¬ Accepts env sf path.name) : shMkdir env sf path = (-EEXIST, sf) := by
  rcases shMkdir_cases env sf path with hfail | ⟨u, hblock, hnone, hlen, _⟩
  · exact hfail
  · exact absurd ⟨hnone, by rw [hblock]; simp, hlen⟩ h

theorem shRmdir_of_none {sf : List ρ} {path : Path}
    (h : findUser sf path.name = none) : shRmdir sf path = .ok (-ENOENT, sf) := by
  have hname : path.strAt 1 = path.name := rfl
  simp only [shRmdir, hname, h]

theorem FirstMatch.shRmdir_eq {sf front back : List ρ} {path : Path} {u : ρ}
    (h : FirstMatch sf path.name front u back) :
    shRmdir sf path = .ok (0, front ++ back) := by
  have hname : path.strAt 1 = path.name := rfl
  simp only [shRmdir, hname, h.findUser_eq, h.sfTreeDeleteUser_eq]

theorem shRename_of_none {sf : List ρ} {source : Path}
    (h : findUser sf source.name = none) (target : Path) :
    shRename sf source target = (-EACCES, sf) := by
  have hname : source.strAt 1 = source.name := rfl
  simp only [shRename, hname, h]

theorem FirstMatch.shRename_eq {sf front back : List ρ} {source : Path} {u : ρ}
    (h : FirstMatch sf source.name front u back) (target : Path) :
    shRename sf source target =
      (0, front ++ strcpyUsername target.name u :: back) := by
  have hname : source.strAt 1 = source.name := rfl
  have hname' : target.strAt 1 = target.name := rfl
  have hmodify := modify_append_cons front back u (strcpyUsername target.name)
  rw [← h.split] at hmodify
  simp only [shRename, hname, hname', h.findUser_eq, hmodify]

end Specs

end ShadowFs

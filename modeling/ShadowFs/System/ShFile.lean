import ShadowFs.Callbacks.HashField
import ShadowFs.Callbacks.Slices
import ShadowFs.Persist.Reload
import ShadowFs.System.Requests

/-!
# `sh_file`

`/sh_file` shows the backing file.  `sh_read` calls `sf_deparse` before it opens
the file, so a read always delivers the text of the users in memory.
`sh_getattr` passes on what `lstat` finds on disk, which is the text of the last
read, and a user called `sh_file` hides the file from it altogether.  The two
callbacks agree throughout a run if and only if they do at its start and no request
changes the length of the text.
-/

namespace ShadowFs

open CLib UserRep

/-!
## The length of the text
-/

section Text

variable {ρ : Type} [UserRep ρ]

/-- The length of a line: nine separators and the fields, where the numbers from
`dmc` on are left blank for zero. -/
def lineLength (u : ρ) : Nat :=
  (username u).length + (hash u).length +
    (intText (day .dsc u).toInt).length + (intText (day .dcc u).toInt).length +
    (blankField (day .dmc u)).length + (blankField (day .dw u)).length +
    (blankField (day .de u)).length + (blankField (day .dd u)).length +
    (reservedText u).length + 9

theorem length_deparseUser (u : ρ) : (deparseUser u).length = lineLength u := by
  rw [deparseUser_eq]
  simp only [lineBody, dayText, blankIfZero_eq, lineLength, CString.length,
    List.length_append, List.length_cons, List.flatMap_cons, List.flatMap_nil,
    List.length_nil]
  lia

theorem lineLength_pos (u : ρ) : 0 < lineLength u :=
  Nat.succ_pos _

theorem length_sfDeparse_split (front back : List ρ) (u : ρ) :
    (sfDeparse (front ++ u :: back)).length =
      (sfDeparse (front ++ back)).length + lineLength u := by
  simp only [sfDeparse, List.flatMap_append, List.flatMap_cons, List.length_append,
    length_deparseUser]
  lia

/-- Another list of users has a text of the same length and leaves the name
`sh_file` free. -/
def Steady (sf sf' : List ρ) : Prop :=
  findUser sf' (CString.lit "sh_file") = none ∧
    (sfDeparse sf').length = (sfDeparse sf).length

theorem not_steady_append (sf : List ρ) (u : ρ) : ¬ Steady sf (sf ++ [u]) := by
  intro h
  have hlen := h.2
  rw [length_sfDeparse_split, List.append_nil] at hlen
  have hpos := lineLength_pos u
  lia

theorem not_steady_remove (front back : List ρ) (u : ρ) :
    ¬ Steady (front ++ u :: back) (front ++ back) := by
  intro h
  have hlen := h.2
  rw [length_sfDeparse_split] at hlen
  have hpos := lineLength_pos u
  lia

theorem steady_replace_iff {front back : List ρ} {u : ρ} (v : ρ)
    (hfree : findUser (front ++ u :: back) (CString.lit "sh_file") = none) :
    Steady (front ++ u :: back) (front ++ v :: back) <->
      username v ≠ CString.lit "sh_file" ∧ lineLength v = lineLength u := by
  rw [findUser_eq_none_iff] at hfree
  rw [Steady, findUser_eq_none_iff, length_sfDeparse_split, length_sfDeparse_split,
    Nat.add_left_cancel_iff]
  constructor
  · intro h
    exact ⟨h.1 v (by simp), h.2⟩
  · intro h
    exact ⟨forall_mem_replace hfree h.1, h.2⟩

end Text

/-!
## One state
-/

section States

variable {ρ : Type} [UserRep ρ]

/-- The size reported for `/sh_file` is the length of the text, and a read delivers
a slice of it. -/
def Coherent (p : Process ρ) : Prop :=
  forall path : Path, path.name = CString.lit "sh_file" ->
    (shGetattr p path).1 = 0 ∧
      (shGetattr p path).2.size = (sfDeparse p.root).length ∧
      forall stack buf size offset, size < 2 ^ 31 ->
        (shRead p stack path buf size offset).1 =
          sliceReply (sfDeparse p.root) buf (sfDeparse p.root).length size offset

/-- `filename` and `backing_path` name one file, and it is there. -/
def SameFile (p : Process ρ) : Prop :=
  p.resolve p.filename = p.resolve p.backingPath ∧
    p.disk (p.resolve p.backingPath) ≠ none

/-- No user is called `sh_file`, and the file is as long as the text. -/
def Current (p : Process ρ) : Prop :=
  findUser p.root (CString.lit "sh_file") = none ∧
    (p.disk (p.resolve p.backingPath)).map List.length = some (sfDeparse p.root).length

theorem disk_flush {p : Process ρ} (h : p.resolve p.filename = p.resolve p.backingPath) :
    p.flush.disk (p.flush.resolve p.flush.backingPath) = some (sfDeparse p.root) := by
  show (if p.resolve p.backingPath = p.resolve p.filename then _ else _) = _
  rw [if_pos h.symm]

/-- The reply of `pread` for a file with the given content. -/
def preadReply (content : Option (List Byte)) (buf : List Byte) (size offset : Nat) :
    Int × List Byte :=
  match content with
  | none => (-1, buf)
  | some content =>
      (toInt ((content.drop offset).take size).length,
        (content.drop offset).take size ++ buf.drop ((content.drop offset).take size).length)

theorem shRead_eq_pread (p : Process ρ) {path : Path}
    (hpath : path.name = CString.lit "sh_file") (stack : Nat -> Byte) (buf : List Byte)
    (size offset : Nat) :
    (shRead p stack path buf size offset).1 =
      preadReply (p.flush.disk (p.resolve p.backingPath)) buf size offset := by
  have hname : path.strAt 1 = CString.lit "sh_file" := hpath
  have hresolve : p.flush.resolve p.flush.backingPath = p.resolve p.backingPath := rfl
  rw [shRead, if_pos hname]
  simp only [hresolve]
  cases p.flush.disk (p.resolve p.backingPath) with
  | none => rfl
  | some content => rfl

theorem shRead_shFile {p : Process ρ} (h : SameFile p) {path : Path}
    (hpath : path.name = CString.lit "sh_file") (stack : Nat -> Byte) (buf : List Byte)
    {size : Nat} (offset : Nat) (hsize : size < 2 ^ 31) :
    (shRead p stack path buf size offset).1 =
      sliceReply (sfDeparse p.root) buf (sfDeparse p.root).length size offset := by
  have hlen : (((sfDeparse p.root).drop offset).take size).length =
      min size ((sfDeparse p.root).length - offset) := by
    rw [List.length_take, List.length_drop]
  have htake : ((sfDeparse p.root).drop offset).take size =
      ((sfDeparse p.root).drop offset).take
        (min size ((sfDeparse p.root).length - offset)) := by
    rw [← List.length_drop, List.take_eq_take_min]
  have hsmall : min size ((sfDeparse p.root).length - offset) < 2 ^ 31 :=
    Nat.lt_of_le_of_lt (Nat.min_le_left _ _) hsize
  have hdisk : p.flush.disk (p.resolve p.backingPath) = some (sfDeparse p.root) :=
    disk_flush h.1
  rw [shRead_eq_pread p hpath, hdisk]
  simp only [preadReply, hlen, toInt_of_lt hsmall, sliceReply]
  rw [htake]

theorem shGetattr_shFile {p : Process ρ} {path : Path}
    (hpath : path.name = CString.lit "sh_file")
    (hfree : findUser p.root (CString.lit "sh_file") = none) :
    shGetattr p path = p.lstat p.backingPath := by
  have hhead : headName (CString.lit "sh_file") = CString.lit "sh_file" := by decide
  have hne : path.name.bytes ≠ [] := by
    rw [hpath]
    decide
  rw [← hpath] at hfree
  rw [shGetattr_other hne hfree (by rw [hpath, hhead, ← hpath]; exact hfree), if_pos hpath]

theorem shGetattr_shFile_of_user {p : Process ρ} {path : Path}
    (hpath : path.name = CString.lit "sh_file")
    (huser : findUser p.root (CString.lit "sh_file") ≠ none) :
    (shGetattr p path).2.size = 0 := by
  have hne : path.name.bytes ≠ [] := by
    rw [hpath]
    decide
  rw [← hpath] at huser
  rw [shGetattr_user hne huser]

theorem coherent_iff_current {p : Process ρ} (h : SameFile p) :
    Coherent p <-> Current p := by
  rcases Option.ne_none_iff_exists'.mp h.2 with ⟨content, hdisk⟩
  have hlstat : (p.lstat p.backingPath).1 = 0 ∧
      (p.lstat p.backingPath).2.size = content.length := by
    simp only [Process.lstat, hdisk, and_self]
  have hmap : (p.disk (p.resolve p.backingPath)).map List.length =
      some (sfDeparse p.root).length <-> content.length = (sfDeparse p.root).length := by
    rw [hdisk, Option.map_some, Option.some_inj]
  constructor
  · intro hcoherent
    have hattr := (hcoherent (Path.of (CString.lit "sh_file") []) (by simp)).2.1
    rcases findUser_cases p.root (CString.lit "sh_file") with hfree | ⟨front, u, back, hm⟩
    · rw [shGetattr_shFile (by simp) hfree, hlstat.2] at hattr
      exact ⟨hfree, hmap.mpr hattr⟩
    · -- The user's own line makes the text longer than the size of a directory.
      rw [shGetattr_shFile_of_user (by simp) hm.ne_none, hm.split,
        length_sfDeparse_split] at hattr
      have hpos := lineLength_pos u
      lia
  · intro hcurrent path hpath
    rw [shGetattr_shFile hpath hcurrent.1]
    refine ⟨hlstat.1, hlstat.2.trans (hmap.mp hcurrent.2), ?_⟩
    intro stack buf size offset hsize
    exact shRead_shFile h hpath stack buf offset hsize

end States

/-!
## The file on disk
-/

section Disk

variable {ρ : Type} [UserRep ρ]

theorem sameFile_flush {p : Process ρ}
    (h : p.resolve p.filename = p.resolve p.backingPath) : SameFile p.flush := by
  refine ⟨h, ?_⟩
  rw [disk_flush h]
  exact Option.some_ne_none _

theorem SameFile.step {call : Env ρ × Request} {p p' : Process ρ} (h : SameFile p)
    (hstep : serveStep call p = .ok p') : SameFile p' := by
  rcases serveStep_process hstep with ⟨_, hflush⟩ | ⟨_, hroot⟩
  · rw [hflush]
    exact sameFile_flush h.1
  · rw [hroot]
    exact h

theorem current_flush {p : Process ρ}
    (h : p.resolve p.filename = p.resolve p.backingPath)
    (hfree : findUser p.root (CString.lit "sh_file") = none) : Current p.flush := by
  refine ⟨hfree, ?_⟩
  rw [disk_flush h, Option.map_some]
  rfl

/-- As long as the file is not written, the text must keep its length. -/
theorem Current.with_root_iff {p : Process ρ} (h : Current p) (sf : List ρ) :
    Current { p with root := sf } <-> Steady p.root sf := by
  have hlen : ({ p with root := sf } : Process ρ).resolve p.backingPath =
      p.resolve p.backingPath := rfl
  rw [Current, Steady]
  simp only [hlen, h.2, Option.some_inj]
  rw [eq_comm (a := (sfDeparse p.root).length)]

end Disk

/-!
## One request
-/

/-- An assignment to the record a path leads to keeps the length of its line. -/
def KeepsLine (sf : List UserImage) (name : CString) (assign : UserImage -> UserImage) :
    Prop :=
  Reaches sf name -> forall u, findRecord sf (headName name) = some u ->
    lineLength (assign u) = lineLength u

/-- The request changes neither the length of the text nor who owns the name
`sh_file`: no user comes or goes, and a record that is renamed or edited keeps the
length of its line. -/
def KeepsText (call : Env UserImage × Request) (p : Process UserImage) : Prop :=
  match call.2 with
  | .mkdir path => ¬ Accepts call.1 p.root path.name
  | .rmdir path => findUser p.root path.name = none
  | .rename source target =>
      forall u, findRecord p.root source.name = some u ->
        target.name ≠ CString.lit "sh_file" ∧
          lineLength (strcpyUsername target.name u) = lineLength u
  | .write path buf _ _ =>
      KeepsLine p.root path.name (writeEdit call.1 (attrOf (attrText path.name)) buf)
  | .unlink path =>
      KeepsLine p.root path.name (unlinkEdit call.1 (attrOf (attrText path.name)))
  | .mknod path =>
      GetsBuffer call.1 path.name ->
        KeepsLine p.root path.name (setReserved (some (attrText path.name)))
  | _ => True

theorem keepsLine_iff_steady {sf front back : List UserImage} {name : CString}
    {u : UserImage} {assign : UserImage -> UserImage} (hreach : Reaches sf name)
    (hm : FirstMatch sf (headName name) front u back)
    (hfree : findUser sf (CString.lit "sh_file") = none)
    (hname : username (assign u) = username u) :
    KeepsLine sf name assign <-> Steady sf (front ++ assign u :: back) := by
  have hother : username (assign u) ≠ CString.lit "sh_file" := by
    rw [hname]
    exact findUser_eq_none_iff.mp hfree u hm.mem
  have hline : KeepsLine sf name assign <-> lineLength (assign u) = lineLength u := by
    constructor
    · intro h
      exact h hreach u hm.findRecord_eq
    · intro h _ v hv
      rw [hm.findRecord_eq, Option.some_inj] at hv
      rw [← hv]
      exact h
  rw [hm.split] at hfree
  rw [hline]
  conv_rhs => rw [hm.split, steady_replace_iff (assign u) hfree]
  exact ⟨fun h => ⟨hother, h⟩, fun h => h.2⟩

theorem keepsLine_of_not_reaches {sf : List UserImage} {name : CString}
    (h : ¬ Reaches sf name) (assign : UserImage -> UserImage) : KeepsLine sf name assign :=
  fun hreach => absurd hreach h

/-- A stored name reads as `sh_file` if and only if it is. -/
theorem username_strcpyUsername_eq_shFile_iff (name : CString) (u : UserImage) :
    username (UserRep.strcpyUsername name u) = CString.lit "sh_file" <->
      name = CString.lit "sh_file" := by
  by_cases hlen : name.length ≤ 15
  · rw [UserRep.username_strcpyUsername name u hlen]
  · have hlong : ¬ UserImage.Terminated (UserRep.strcpyUsername name u) := by
      intro hterm
      exact hlen ((UserImage.terminated_strcpyUsername_iff name u).mp hterm)
    apply iff_of_false
    · intro heq
      apply hlong
      show (username (UserRep.strcpyUsername name u)).length ≤ 15
      rw [heq]
      decide
    · intro heq
      apply hlen
      rw [heq]
      decide

section Steps

variable {env : Env UserImage} {p p' : Process UserImage}

theorem keepsText_mkdir_iff {path : Path}
    (hfree : findUser p.root (CString.lit "sh_file") = none) :
    KeepsText (env, .mkdir path) p <-> Steady p.root (shMkdir env p.root path).2 := by
  by_cases haccepts : Accepts env p.root path.name
  · rcases shMkdir_of_accepts haccepts with ⟨u, _, hmkdir⟩
    rw [hmkdir]
    exact iff_of_false (fun h => h haccepts) (not_steady_append _ _)
  · rw [shMkdir_of_not_accepts haccepts]
    exact iff_of_true haccepts ⟨hfree, rfl⟩

theorem keepsText_rename_iff {source target : Path}
    (hfree : findUser p.root (CString.lit "sh_file") = none) :
    KeepsText (env, .rename source target) p <->
      Steady p.root (shRename p.root source target).2 := by
  rcases findUser_cases p.root source.name with hnone | ⟨front, u, back, hm⟩
  · rw [shRename_of_none hnone]
    apply iff_of_true _ ⟨hfree, rfl⟩
    intro u hu
    rw [findRecord_of_none hnone] at hu
    cases hu
  · have hsplit := hfree
    rw [hm.split] at hsplit
    have hsteady : Steady p.root (shRename p.root source target).2 <->
        target.name ≠ CString.lit "sh_file" ∧
          lineLength (UserRep.strcpyUsername target.name u) = lineLength u := by
      rw [hm.shRename_eq]
      conv_lhs => rw [hm.split, steady_replace_iff _ hsplit]
      rw [ne_eq, username_strcpyUsername_eq_shFile_iff]
    rw [hsteady]
    constructor
    · intro h
      exact h u hm.findRecord_eq
    · intro h v hv
      rw [hm.findRecord_eq, Option.some_inj] at hv
      rw [← hv]
      exact h

theorem keepsText_write_iff {path : Path} {buf : CBuffer} {size offset : Nat}
    (hfree : findUser p.root (CString.lit "sh_file") = none) :
    KeepsText (env, .write path buf size offset) p <->
      Steady p.root (shWrite env p.root path buf size).2 := by
  by_cases hreach : Reaches p.root path.name
  · rcases hreach.exists_firstMatch with ⟨front, u, back, hm⟩
    have hterm := UserImage.terminated_of_headName hm
    rw [shWrite_of_reaches hreach, hm.writeAttr_eq hterm]
    exact keepsLine_iff_steady hreach hm hfree (username_writeEdit env _ buf hterm)
  · rw [shWrite_of_not_reaches hreach]
    exact iff_of_true (keepsLine_of_not_reaches hreach _) ⟨hfree, rfl⟩

theorem keepsText_unlink_iff {path : Path}
    (hfree : findUser p.root (CString.lit "sh_file") = none) :
    KeepsText (env, .unlink path) p <-> Steady p.root (shUnlink env p.root path).2 := by
  by_cases hreach : Reaches p.root path.name
  · rcases hreach.exists_firstMatch with ⟨front, u, back, hm⟩
    have hterm := UserImage.terminated_of_headName hm
    rw [shUnlink_of_reaches hreach, hm.unlinkAttr_eq]
    exact keepsLine_iff_steady hreach hm hfree (username_unlinkEdit env _ hterm)
  · rw [shUnlink_of_not_reaches hreach]
    exact iff_of_true (keepsLine_of_not_reaches hreach _) ⟨hfree, rfl⟩

theorem keepsText_rmdir_iff {path : Path} {res : Int × List UserImage}
    (hfree : findUser p.root (CString.lit "sh_file") = none)
    (hres : shRmdir p.root path = .ok res) :
    KeepsText (env, .rmdir path) p <-> Steady p.root res.2 := by
  rcases findUser_cases p.root path.name with hnone | ⟨front, u, back, hm⟩
  · rw [shRmdir_of_none hnone] at hres
    cases hres
    exact iff_of_true hnone ⟨hfree, rfl⟩
  · rw [hm.shRmdir_eq] at hres
    cases hres
    rw [hm.split]
    apply iff_of_false _ (not_steady_remove front back u)
    intro hnone
    exact hm.ne_none hnone

theorem keepsText_mknod_iff {path : Path} {res : Int × List UserImage}
    (hfree : findUser p.root (CString.lit "sh_file") = none)
    (hres : shMknod env p.root path = .ok res) :
    KeepsText (env, .mknod path) p <-> Steady p.root res.2 := by
  by_cases hreach : Reaches p.root path.name
  · rcases hreach.exists_firstMatch with ⟨front, u, back, hm⟩
    have hterm := UserImage.terminated_of_headName hm
    have hname := username_setReserved (some (attrText path.name)) u hterm
    have hiff := keepsLine_iff_steady hreach hm hfree hname
    rcases shMknod_ok_of_reaches hreach hm hres with ⟨hbuffer, rfl⟩
    exact ⟨fun h => hiff.mp (h hbuffer), fun h _ => hiff.mpr h⟩
  · rcases shMknod_of_not_reaches hreach env with ⟨code, _, hmknod⟩
    rw [hmknod] at hres
    cases hres
    exact iff_of_true (fun _ => keepsLine_of_not_reaches hreach _) ⟨hfree, rfl⟩

theorem keepsText_iff_current {call : Env UserImage × Request} (hsame : SameFile p)
    (h : Current p) (hstep : serveStep call p = .ok p') :
    KeepsText call p <-> Current p' := by
  rcases call with ⟨env, req⟩
  cases req with
  | read path stack buf size offset =>
      cases hstep
      apply iff_of_true trivial
      rw [shRead_process]
      split
      · exact current_flush hsame.1 h.1
      · exact h
  | write path buf size offset =>
      cases hstep
      rw [h.with_root_iff]
      exact keepsText_write_iff h.1
  | mkdir path =>
      cases hstep
      rw [h.with_root_iff]
      exact keepsText_mkdir_iff h.1
  | rename source target =>
      cases hstep
      rw [h.with_root_iff]
      exact keepsText_rename_iff h.1
  | unlink path =>
      cases hstep
      rw [h.with_root_iff]
      exact keepsText_unlink_iff h.1
  | rmdir path =>
      rcases serveStep_rmdir_ok hstep with ⟨res, hres, hnext⟩
      rw [hnext, h.with_root_iff]
      exact keepsText_rmdir_iff h.1 hres
  | mknod path =>
      rcases serveStep_mknod_ok hstep with ⟨res, hres, hnext⟩
      rw [hnext, h.with_root_iff]
      exact keepsText_mknod_iff h.1 hres
  | _ =>
      cases hstep
      exact iff_of_true trivial h

theorem keepsText_of_fault {call : Env UserImage × Request} {fault : Fault}
    (hstep : serveStep call p = .error fault) : KeepsText call p := by
  rcases call with ⟨env, req⟩
  cases req with
  | rmdir path =>
      rcases findUser_cases p.root path.name with hnone | ⟨front, u, back, hm⟩
      · exact hnone
      · rw [serveStep, serve, hm.shRmdir_eq] at hstep
        cases hstep
  | mknod path =>
      intro hbuffer
      by_cases hreach : Reaches p.root path.name
      · rcases hreach.exists_firstMatch with ⟨front, u, back, hm⟩
        rw [serveStep, serve, shMknod_of_getsBuffer hreach hm hbuffer] at hstep
        cases hstep
      · exact keepsLine_of_not_reaches hreach _
  | read path stack buf size offset => exact trivial
  | _ => cases hstep

end Steps

/-!
## Widths
-/

def fieldWidth (d : DayField) (v : Int32) : Nat :=
  match d with
  | .dsc | .dcc => (intText v.toInt).length
  | _ => (blankField v).length

/-- The number is as wide as the one it replaces, and the hash ends before the field. -/
def DayKeeps (d : DayField) (v : Int32) (u : UserImage) : Prop :=
  fieldWidth d v = fieldWidth d (u.day d) ∧
    UserImage.hashOffset + u.hash.length < UserImage.dayOffset d

/-- A password replaces another one on a day of the same width with a zero low byte. -/
def PasswordKeeps (stamp : Int32) (u : UserImage) : Prop :=
  u.hash.length = 32 ∧ stamp.toInt % 256 = 0 ∧
    fieldWidth .dsc stamp = fieldWidth .dsc (u.day .dsc)

/-- A `reserved` text in the buffer of the requests changes with the next request. -/
def WriteKeeps (env : Env UserImage) (attr : Option Attr) (buf : CBuffer) (u : UserImage) :
    Prop :=
  match attr with
  | none => True
  | some .passwordHash => PasswordKeeps (shadowTime env.time) u
  | some .daysSinceChanged => DayKeeps .dsc (atoi buf.str.bytes) u
  | some .daysUntilCanChange => DayKeeps .dcc (atoi buf.str.bytes) u
  | some .daysUntilMustChange => DayKeeps .dmc (atoi buf.str.bytes) u
  | some .daysBeforeWarning => DayKeeps .dw (atoi buf.str.bytes) u
  | some .daysUntilExpiration => DayKeeps .de (atoi buf.str.bytes) u
  | some .daysSinceAccountDeactivated => DayKeeps .dd (atoi buf.str.bytes) u
  | some .reserved => False

def UnlinkKeeps (env : Env UserImage) (attr : Option Attr) (u : UserImage) : Prop :=
  match attr with
  | none => True
  | some .passwordHash => u.hash.length = 1
  | some .daysSinceChanged => DayKeeps .dsc (shadowTime env.time) u
  | some .daysUntilCanChange => DayKeeps .dcc 0 u
  | some .daysUntilMustChange => DayKeeps .dmc 99999 u
  | some .daysBeforeWarning => DayKeeps .dw 7 u
  | some .daysUntilExpiration => DayKeeps .de 0 u
  | some .daysSinceAccountDeactivated => DayKeeps .dd 0 u
  | some .reserved => reservedText u = []

/-- No user comes or goes, and what replaces a name, a number or a text is as wide as it. -/
def KeepsWidths (call : Env UserImage × Request) (p : Process UserImage) : Prop :=
  match call.2 with
  | .mkdir path => ¬ Accepts call.1 p.root path.name
  | .rmdir path => findUser p.root path.name = none
  | .rename source target =>
      findUser p.root source.name ≠ none ->
        target.name ≠ CString.lit "sh_file" ∧ target.name.length = source.name.length ∧
          target.name.length ≤ usernameCapacity
  | .write path buf _ _ =>
      Reaches p.root path.name -> forall u, findRecord p.root (headName path.name) = some u ->
        WriteKeeps call.1 (attrOf (attrText path.name)) buf u
  | .unlink path =>
      Reaches p.root path.name -> forall u, findRecord p.root (headName path.name) = some u ->
        UnlinkKeeps call.1 (attrOf (attrText path.name)) u
  | .mknod path =>
      Reaches p.root path.name -> forall u, findRecord p.root (headName path.name) = some u ->
        (attrText path.name).length = (reservedText u).length
  | _ => True

section Widths

variable {u v : UserImage}

theorem lineLength_congr (hname : (username v).length = (username u).length)
    (hhash : (UserRep.hash v).length = (UserRep.hash u).length)
    (hdays : forall d, fieldWidth d (day d v) = fieldWidth d (day d u))
    (hreserved : (reservedText v).length = (reservedText u).length) :
    lineLength v = lineLength u := by
  have hsum : forall w : UserImage, lineLength w =
      (username w).length + (UserRep.hash w).length + fieldWidth .dsc (day .dsc w) +
        fieldWidth .dcc (day .dcc w) + fieldWidth .dmc (day .dmc w) +
        fieldWidth .dw (day .dw w) + fieldWidth .de (day .de w) + fieldWidth .dd (day .dd w) +
        (reservedText w).length + 9 := fun _ => rfl
  rw [hsum, hsum, hname, hhash, hdays, hdays, hdays, hdays, hdays, hdays, hreserved]

theorem lineLength_setDay (hu : UserImage.Terminated u) {d : DayField} {t : Int32}
    (h : DayKeeps d t u) : lineLength (UserRep.setDay d t u) = lineLength u := by
  refine lineLength_congr ?_ ?_ ?_ rfl
  · rw [username_setDay d t u hu]
  · exact congrArg CString.length (UserImage.hash_setDay_of_lt t h.2)
  · intro e
    by_cases he : e = d
    · subst he
      rw [day_setDay_self]
      exact h.1
    · rw [day_setDay_of_ne e d t u he]

theorem lineLength_password (hu : UserImage.Terminated u) {env : Env UserImage} (buf : CBuffer)
    (h : PasswordKeeps (shadowTime env.time) u) :
    lineLength (writeEdit env (some .passwordHash) buf u) = lineLength u := by
  have hshown := ((UserImage.showsHash_writeEdit_iff env buf u).mpr h.2.1).field
  refine lineLength_congr ?_ ?_ ?_ rfl
  · rw [username_writeEdit env _ buf hu]
  · exact (congrArg CString.length hshown).trans ((hashword_length buf.str).trans h.1.symm)
  · intro e
    by_cases he : e = .dsc
    · subst he
      exact (congrArg (fieldWidth .dsc) (day_setDay_self .dsc _ _)).trans h.2.2
    · have hbehind := UserImage.dayOffset_of_ne_dsc he
      have hlen := hashword_length buf.str
      have hstamp : day e (writeEdit env (some .passwordHash) buf u) =
          day e (UserRep.strcpyHash (hashword buf.str) u) := day_setDay_of_ne e .dsc _ _ he
      have hday : day e (UserRep.strcpyHash (hashword buf.str) u) = day e u :=
        UserImage.day_strcpyHash u (by rw [hlen, UserImage.hashOffset]; lia)
      rw [hstamp, hday]

theorem lineLength_writeEdit (hu : UserImage.Terminated u) {env : Env UserImage}
    {attr : Option Attr} {buf : CBuffer} (h : WriteKeeps env attr buf u) :
    lineLength (writeEdit env attr buf u) = lineLength u := by
  cases attr with
  | none => rfl
  | some attr =>
      cases attr with
      | passwordHash => exact lineLength_password hu buf h
      | reserved => exact h.elim
      | _ => exact lineLength_setDay hu h

theorem lineLength_unlinkEdit (hu : UserImage.Terminated u) {env : Env UserImage}
    {attr : Option Attr} (h : UnlinkKeeps env attr u) :
    lineLength (unlinkEdit env attr u) = lineLength u := by
  cases attr with
  | none => rfl
  | some attr =>
      cases attr with
      | passwordHash =>
          have hhash : UserImage.hash (UserImage.strcpyHash (CString.lit "!") u) =
              CString.lit "!" := UserImage.hash_strcpyHash u (by decide)
          refine lineLength_congr ?_ ?_ ?_ rfl
          · rw [username_unlinkEdit env _ hu]
          · exact (congrArg CString.length hhash).trans h.symm
          · intro e
            have hlow := UserImage.le_dayOffset e
            have hday : day e (UserRep.strcpyHash (CString.lit "!") u) = day e u :=
              UserImage.day_strcpyHash u (Nat.le_trans (by decide) hlow)
            exact congrArg (fieldWidth e) hday
      | reserved =>
          refine lineLength_congr rfl rfl (fun _ => rfl) ?_
          have hempty : reservedText u = [] := h
          rw [hempty]
          rfl
      | _ => exact lineLength_setDay hu h

end Widths

theorem lineLength_strcpyUsername {name : CString} (u : UserImage)
    (hlen : name.length ≤ 15) :
    lineLength (strcpyUsername name u) + u.username.length = lineLength u + name.length := by
  have hname : username (strcpyUsername name u) = name :=
    UserImage.username_strcpyUsername u hlen
  have hhash : UserRep.hash (strcpyUsername name u) = UserRep.hash u :=
    UserImage.hash_strcpyUsername u hlen
  have hday : forall d, day d (strcpyUsername name u) = day d u :=
    fun d => UserImage.day_strcpyUsername d u hlen
  have hold : username u = u.username := rfl
  have hreserved : reservedText (strcpyUsername name u) = reservedText u := rfl
  simp only [lineLength, hname, hhash, hday, hreserved, hold]
  lia

/-- Equal widths are enough for a text of the same length. -/
theorem KeepsWidths.keepsText {call : Env UserImage × Request} {p : Process UserImage}
    (h : KeepsWidths call p) : KeepsText call p := by
  have hterm : forall {name : CString} {u : UserImage}, Reaches p.root name ->
      findRecord p.root (headName name) = some u -> UserImage.Terminated u := by
    intro name u hreach hu
    rcases hreach.exists_firstMatch with ⟨front, v, back, hm⟩
    rw [hm.findRecord_eq] at hu
    cases hu
    exact UserImage.terminated_of_headName hm
  rcases call with ⟨env, req⟩
  cases req with
  | mkdir path => exact h
  | rmdir path => exact h
  | write path buf size offset =>
      exact fun hreach u hu => lineLength_writeEdit (hterm hreach hu) (h hreach u hu)
  | unlink path =>
      exact fun hreach u hu => lineLength_unlinkEdit (hterm hreach hu) (h hreach u hu)
  | mknod path =>
      intro _ hreach u hu
      exact lineLength_congr rfl rfl (fun _ => rfl) (h hreach u hu)
  | rename source target =>
      intro u hu
      rcases findUser_cases p.root source.name with hnone | ⟨front, v, back, hm⟩
      · rw [findRecord_of_none hnone] at hu
        cases hu
      · rw [hm.findRecord_eq] at hu
        cases hu
        rcases h hm.ne_none with ⟨hfile, hsame, hfits⟩
        have hlen := lineLength_strcpyUsername u hfits
        have hname : u.username = source.name := hm.found
        rw [hname, ← hsame] at hlen
        exact ⟨hfile, Nat.add_right_cancel hlen⟩
  | _ => exact trivial

/-!
## Runs
-/

/-- `sh_getattr` and `sh_read` agree on `/sh_file` in every state of a run if and only
if the file is as long as the text at the start and every request keeps the length of
the text. -/
theorem coherent_always_iff (start : Process UserImage) (hsame : SameFile start)
    (calls : List (Env UserImage × Request)) :
    Library.Always serveStep Coherent calls start <->
      Current start ∧ Library.Guarded serveStep KeepsText calls start := by
  have hstep : forall call p p', True -> SameFile p -> Coherent p ->
      serveStep call p = .ok p' -> (KeepsText call p <-> Coherent p') := by
    intro call p p' _ hp hcoherent hnext
    rw [coherent_iff_current (hp.step hnext)]
    exact keepsText_iff_current hp ((coherent_iff_current hp).mp hcoherent) hnext
  have hruns : Coherent start ->
      (Library.Always serveStep Coherent calls start <->
        Library.Guarded serveStep KeepsText calls start) := by
    intro hstart
    apply Library.always_iff_guarded (Q := fun _ => True) (J := SameFile)
    · intro call p p' _ hp hnext
      exact hp.step hnext
    · exact hstep
    · intro call p fault hfault
      exact keepsText_of_fault hfault
    · intro _ _
      trivial
    · exact hsame
    · exact hstart
  constructor
  · intro halways
    have hstart := Library.Always.start halways
    exact ⟨(coherent_iff_current hsame).mp hstart, (hruns hstart).mp halways⟩
  · intro h
    have hstart := (coherent_iff_current hsame).mpr h.1
    exact (hruns hstart).mpr h.2

/-- `sh_getattr` and `sh_read` agree on `/sh_file` in every state of a run if the file is as
long as the text at the start and no request changes the widths of the fields. -/
theorem coherent_of_keepsWidths (start : Process UserImage) (hsame : SameFile start)
    (hstart : Current start) (calls : List (Env UserImage × Request))
    (hcalls : Library.Guarded serveStep KeepsWidths calls start) :
    Library.Always serveStep Coherent calls start := by
  have hkeeps : Library.Guarded serveStep KeepsText calls start :=
    hcalls.imp (fun _ _ h => h.keepsText)
  exact (coherent_always_iff start hsame calls).mpr ⟨hstart, hkeeps⟩

/-- The file system right after `sf_deparse` has written its users. -/
def flushedProcess (sf : List UserImage) : Process UserImage :=
  (imageProcess sf).flush

theorem resolve_imageProcess (sf : List UserImage) :
    (imageProcess sf).resolve (imageProcess sf).filename =
      (imageProcess sf).resolve (imageProcess sf).backingPath := by
  show (CString.lit "" ++ CString.lit "/" ++ CString.lit "shadow.out") =
    CString.lit "/shadow.out"
  decide

def binRecord : UserImage :=
  initUser UserImage.calmEnv (CString.lit "bin") UserImage.blank

theorem username_binRecord : username binRecord = CString.lit "bin" :=
  username_initUser UserImage.calmEnv UserImage.blank (by decide)

theorem findUser_binRecord : findUser [binRecord] (CString.lit "sh_file") = none := by
  rw [findUser_eq_none_iff]
  intro u hu
  rw [List.mem_singleton.mp hu, username_binRecord]
  decide

/-- Reading the file and renaming `bin` to `sys` keeps the text as long as it was. -/
theorem coherent_rename :
    Library.Always serveStep Coherent
      [(UserImage.calmEnv, .read (Path.of (CString.lit "sh_file") []) (fun _ => 0) [] 0 0),
        (UserImage.calmEnv,
          .rename (Path.of (CString.lit "bin") []) (Path.of (CString.lit "sys") []))]
      (flushedProcess [binRecord]) := by
  have hsame : SameFile (flushedProcess [binRecord]) :=
    sameFile_flush (resolve_imageProcess _)
  refine coherent_of_keepsWidths (flushedProcess [binRecord]) hsame
    (current_flush (resolve_imageProcess _) findUser_binRecord) _ ⟨trivial, ?_⟩
  intro p _
  refine ⟨?_, fun _ _ => trivial⟩
  exact fun _ => ⟨by decide, by decide, by decide⟩

/-- A new user is in the text at once, and in the file only after a read. -/
theorem not_coherent_mkdir :
    Coherent (flushedProcess []) ∧
      exists p, serveAll [(UserImage.calmEnv, .mkdir (Path.of (CString.lit "sys") []))]
          (flushedProcess []) = .ok p ∧ ¬ Coherent p := by
  have hsame : SameFile (flushedProcess []) := sameFile_flush (resolve_imageProcess _)
  have hcurrent : Current (flushedProcess []) := current_flush (resolve_imageProcess _) rfl
  have hstep : serveStep (UserImage.calmEnv, .mkdir (Path.of (CString.lit "sys") []))
      (flushedProcess []) =
        .ok { flushedProcess [] with
          root := [initUser UserImage.calmEnv (CString.lit "sys") UserImage.blank] } := rfl
  refine ⟨(coherent_iff_current hsame).mpr hcurrent, _, hstep, ?_⟩
  rw [coherent_iff_current (hsame.step hstep), ← keepsText_iff_current hsame hcurrent hstep]
  intro hkeeps
  exact hkeeps ⟨rfl, Option.some_ne_none _, by decide⟩

end ShadowFs

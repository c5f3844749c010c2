import ShadowFs.Callbacks.Lookup
import ShadowFs.System.Frame

/-!
# Reading back a written day

A number written to one of the six day files of a user is what `sh_read` delivers
and `sh_getattr` measures, after any further requests that leave the file and its
user alone.  The invariant of such a run is `Keeps`: the first record with the
user's name holds the number, and no user carries the whole name `u/a`, which
would hide the file.
-/

namespace ShadowFs

open CLib

/-!
## The day files
-/

def DayField.file : DayField -> Attr
  | .dsc => .daysSinceChanged
  | .dcc => .daysUntilCanChange
  | .dmc => .daysUntilMustChange
  | .dw => .daysBeforeWarning
  | .de => .daysUntilExpiration
  | .dd => .daysSinceAccountDeactivated

def dayPath (user : CString) (d : DayField) : CString :=
  fileOf user d.file.fileName

theorem Attr.eq_file_of_field {a : Attr} {d : DayField} (h : a.field = .day d) :
    a = d.file := by
  cases a <;> cases h <;> rfl

theorem writeEdit_file (env : Env User) (d : DayField) (buf : CBuffer) (u : User) :
    writeEdit env (some d.file) buf u = User.setDay d (atoi buf.str.bytes) u := by
  cases d <;> rfl

theorem isAttr_file (d : DayField) (u : User) :
    isAttr d.file.fileName u = (dayLine (u.day d)).length := by
  rw [isAttr, attrOf_fileName]
  cases d <;> rfl

def numberLine (v : Int) : List Byte :=
  intText v ++ [newline]

/-- The buffer holds a decimal number, possibly followed by other text. -/
def HoldsInt (buf : CBuffer) (v : Int) : Prop :=
  exists text rest, buf.str.bytes = text ++ rest ∧ IsDecimal text v ∧ NoLeadingDigit rest

theorem HoldsInt.atoi_eq {buf : CBuffer} {v : Int} (h : HoldsInt buf v)
    (hv : v.natAbs < 10 ^ 7) : (atoi buf.str.bytes).toInt = v := by
  rcases h with ⟨text, rest, hbytes, htext, hrest⟩
  rw [hbytes]
  exact htext.atoi_append (by lia) (by lia) hrest

/-!
## Reading and measuring a day file
-/

/-- Paths that lead through the user name `user` to the file of `d`. -/
structure Leads (sf : List User) (user : CString) (d : DayField) (u : User) : Prop where
  noSlash : slash ∉ user.bytes
  short : user.length ≤ 8
  record : findRecord sf user = some u
  free : findUser sf (dayPath user d) = none

section Files

variable {sf : List User} {user : CString} {d : DayField} {u : User}

theorem Leads.headName_eq (h : Leads sf user d u) : headName (dayPath user d) = user :=
  headName_fileOf _ h.noSlash (Nat.le_succ_of_le h.short)

theorem Leads.attrText_eq (h : Leads sf user d u) :
    attrText (dayPath user d) = d.file.fileName :=
  attrText_fileOf _ h.noSlash (Nat.le_succ_of_le h.short)

theorem Leads.findUser_ne_none (h : Leads sf user d u) : findUser sf user ≠ none :=
  findUser_ne_none_iff_findRecord.mpr ⟨u, h.record⟩

theorem dayPath_ne_nil (user : CString) (d : DayField) : (dayPath user d).bytes ≠ [] :=
  List.ne_nil_of_mem (slash_mem_fileOf user d.file.fileName)

theorem Leads.shGetattr_eq {p : Process User} (h : Leads p.root user d u) {path : Path}
    (hpath : path.name = dayPath user d) :
    shGetattr p path =
      (0, { mode := S_IFREG ||| 0o666, nlink := 1, size := (dayLine (u.day d)).length }) := by
  have hne : path.name.bytes ≠ [] := by
    rw [hpath]
    exact dayPath_ne_nil user d
  have hfree : findUser p.root path.name = none := by
    rw [hpath]
    exact h.free
  have hrecord : findRecord p.root (headName path.name) = some u := by
    rw [hpath, h.headName_eq]
    exact h.record
  rw [shGetattr_file hne hfree hrecord, hpath, h.attrText_eq, attrOf_fileName, isAttr_file]
  rfl

theorem readAttr_file (d : DayField) (u : User) (stack : Nat -> Byte) (buf : List Byte)
    (size offset : Nat) :
    readAttr u (some d.file) stack buf size offset =
      readDay (u.day d) stack buf offset := by
  cases d <;> rfl

theorem Leads.shRead_eq {p : Process User} (h : Leads p.root user d u) {path : Path}
    (hpath : path.name = dayPath user d) (stack : Nat -> Byte) (buf : List Byte)
    (size offset : Nat) :
    shRead p stack path buf size offset = (readDay (u.day d) stack buf offset, p) := by
  have hreach : Reaches p.root path.name := by
    rw [hpath]
    refine ⟨h.free, dayPath_ne_nil user d, ?_⟩
    rw [h.headName_eq]
    exact h.findUser_ne_none
  have hfile : path.name ≠ CString.lit "sh_file" := by
    rw [hpath]
    exact fileOf_ne_shFile _ _
  have hrecord : findRecord p.root (headName path.name) = some u := by
    rw [hpath, h.headName_eq]
    exact h.record
  rw [shRead_of_reaches hreach hfile hrecord, hpath, h.attrText_eq, attrOf_fileName,
    readAttr_file]

end Files

/-!
## Requests that leave the file alone
-/

/-- The request writes or unlinks the file (or stamps it, for a new password),
removes or renames its user, or gives a user the name `u` or `u/a`. -/
def Disturbs (user : CString) (d : DayField) (p : Process User)
    (call : Env User × Request) : Prop :=
  match call.2 with
  | .write path .. =>
      path.name = dayPath user d ∨
        (d = .dsc ∧ path.name = fileOf user (Attr.fileName .passwordHash))
  | .unlink path => path.name = dayPath user d
  | .rmdir path => path.name = user
  | .rename source target =>
      source.name = user ∨
        ((shRename p.root source target).1 = 0 ∧
          (target.name = user ∨ target.name = dayPath user d))
  | .mkdir path =>
      (shMkdir call.1 p.root path).1 = 0 ∧
        (path.name = user ∨ path.name = dayPath user d)
  | _ => False

/-- The file of `d` under `user` is there and holds `v`. -/
def Keeps (user : CString) (d : DayField) (v : Int32) (p : Process User) : Prop :=
  exists u, Leads p.root user d u ∧ u.day d = v

theorem findUser_replace {front back : List User} {u v : User} {name : CString}
    (h : findUser (front ++ u :: back) name = none) (hv : v.username ≠ name) :
    findUser (front ++ v :: back) name = none := by
  rw [findUser_eq_none_iff] at h ⊢
  exact forall_mem_replace h hv

theorem AttrEdit.day_eq {env : Env User} {name user : CString} {req : Request}
    {result : Int} {assign : User -> User} (h : AttrEdit env name req result assign)
    {d : DayField} {p : Process User} (hallowed : ¬ Disturbs user d p (env, req))
    (hname : name = fileOf user (attrText name)) (u : User) :
    (assign u).day d = u.day d := by
  cases h with
  | write hpath =>
      rename_i path buf size offset
      subst hpath
      apply (writeEdit_sameExcept env _ buf u).day d
      rintro ⟨a, ha, hfield | ⟨hpassword, hday⟩⟩
      · have htext := attrOf_eq_some_iff.mp ha
        rw [htext, Attr.eq_file_of_field hfield.symm] at hname
        exact hallowed (Or.inl hname)
      · have htext := attrOf_eq_some_iff.mp ha
        rw [htext, hpassword] at hname
        cases hday
        exact hallowed (Or.inr ⟨rfl, hname⟩)
  | unlink hpath =>
      subst hpath
      apply (unlinkEdit_sameExcept env _ u).day d
      rintro ⟨a, ha, hfield⟩
      have htext := attrOf_eq_some_iff.mp ha
      rw [htext, Attr.eq_file_of_field hfield.symm] at hname
      exact hallowed hname
  | mknod _ => exact User.day_with_reserved d _ u

/-- After an edit through such a path the file is still there, with the same number. -/
theorem Leads.edit {env : Env User} {user name : CString} {d : DayField} {req : Request}
    {result : Int} {assign : User -> User} {p : Process User} {front back : List User}
    {r u : User} (hleads : Leads p.root user d r)
    (hedit : AttrEdit env name req result assign)
    (hallowed : ¬ Disturbs user d p (env, req)) (hreach : Reaches p.root name)
    (hm : FirstMatch p.root (headName name) front u back) :
    exists w, Leads (front ++ assign u :: back) user d w ∧ w.day d = r.day d := by
  have husername := hedit.username_eq (User.rep_terminated u)
  have hfree := hleads.free
  rw [hm.split] at hfree
  have hother : u.username ≠ dayPath user d :=
    findUser_eq_none_iff.mp hfree u (by simp)
  have hfree' : findUser (front ++ assign u :: back) (dayPath user d) = none := by
    apply findUser_replace hfree
    exact fun hname => hother (husername.symm.trans hname)
  by_cases hhead : headName name = user
  · -- The edited record is the one that holds the number.
    have hr : u = r := by
      have hrecord := hm.findRecord_eq
      rw [hhead, hleads.record] at hrecord
      exact (Option.some.inj hrecord).symm
    subst hr
    have hname : name = fileOf user (attrText name) := by
      have hlt := headName_lt_of_reach hreach.1 hreach.2.2
      have heq := eq_fileOf_of_headName (by rw [hhead]; exact hleads.short) hlt
      rw [hhead] at heq
      exact heq
    rw [hhead] at hm
    refine ⟨assign u, ⟨hleads.noSlash, hleads.short, ?_, hfree'⟩, ?_⟩
    · exact (hm.update husername).findRecord_eq
    · exact hedit.day_eq hallowed hname u
  · have hu : u.username ≠ user := fun hname => hhead (hm.found.symm.trans hname)
    refine ⟨r, ⟨hleads.noSlash, hleads.short, ?_, hfree'⟩, rfl⟩
    rw [findRecord_replace_of_ne front back hu, ← hm.split]
    · exact hleads.record
    · exact fun hname => hu (husername.symm.trans hname)

/-- One step: a request that is not excluded keeps the file and its number. -/
theorem Keeps.step {user : CString} {d : DayField} {v : Int32} {env : Env User}
    {p p' : Process User} {req : Request} {reply : Reply} (h : Keeps user d v p)
    (hallowed : ¬ Disturbs user d p (env, req))
    (hserve : serve env p req = .ok (reply, p')) : Keeps user d v p' := by
  rcases h with ⟨r, hleads, hday⟩
  have heffect := serve_effect (fun u _ => User.rep_terminated u) hserve
  have hkeep : forall sf' : List User, findRecord sf' user = some r ->
      findUser sf' (dayPath user d) = none -> p'.root = sf' -> Keeps user d v p' := by
    intro sf' hrecord hfree hroot
    refine ⟨r, ⟨hleads.noSlash, hleads.short, ?_, ?_⟩, hday⟩
    · rw [hroot]
      exact hrecord
    · rw [hroot]
      exact hfree
  generalize hresult : reply.result = result at heffect
  generalize hroot : p'.root = sf' at heffect
  cases heffect with
  | query _ => exact hkeep _ hleads.record hleads.free hroot
  | refused _ => exact hkeep _ hleads.record hleads.free hroot
  | append hblock hnone hlen =>
      rename_i path block
      refine hkeep _ (findRecord_append_of_some hleads.record _) ?_ hroot
      have hmkdir : (shMkdir env p.root path).1 = 0 := by
        cases hserve
        exact hresult
      have hfile : path.name ≠ dayPath user d := fun hname =>
        hallowed ⟨hmkdir, Or.inr hname⟩
      rw [findUser_eq_none_iff]
      exact forall_mem_append_singleton (findUser_eq_none_iff.mp hleads.free) hfile
  | remove hm =>
      rename_i path front back u
      have hne : u.username ≠ user := by
        intro hname
        exact hallowed (hm.found.symm.trans hname)
      have hsplit := hm.split
      refine hkeep _ ?_ ?_ hroot
      · rw [findRecord_remove_of_ne front back hne, ← hsplit]
        exact hleads.record
      · have hfree := hleads.free
        rw [findUser_eq_none_iff, hsplit] at hfree
        rw [findUser_eq_none_iff]
        exact forall_mem_remove hfree
  | rename hm =>
      rename_i source target front back u
      have hne : u.username ≠ user := by
        intro hname
        exact hallowed (Or.inl (hm.found.symm.trans hname))
      have hrename : (shRename p.root source target).1 = 0 := by
        rw [hm.shRename_eq]
      have htarget : target.name ≠ user := fun hname =>
        hallowed (Or.inr ⟨hrename, Or.inl hname⟩)
      have hfile : target.name ≠ dayPath user d := fun hname =>
        hallowed (Or.inr ⟨hrename, Or.inr hname⟩)
      refine hkeep _ ?_ ?_ hroot
      · rw [findRecord_replace_of_ne front back hne htarget, ← hm.split]
        exact hleads.record
      · have hfree := hleads.free
        rw [hm.split] at hfree
        exact findUser_replace hfree hfile
  | edit hedit hreach hm =>
      rcases hleads.edit hedit hallowed hreach hm with ⟨w, hw, hsame⟩
      rw [← hroot] at hw
      exact ⟨w, hw, hsame.trans hday⟩

theorem Keeps.run {user : CString} {d : DayField} {v : Int32} {p p' : Process User}
    {calls : List (Env User × Request)} (h : Keeps user d v p)
    (hallowed : Library.Guarded serveStep
      (fun call q => ¬ Disturbs user d q call) calls p)
    (hrun : serveAll calls p = .ok p') : Keeps user d v p' := by
  refine Library.run_invariant (I := Keeps user d v) ?_ calls p p' hallowed h hrun
  intro call q q' hcall hq hstep
  rcases serveStep_ok hstep with ⟨reply, hserve⟩
  exact hq.step hcall hserve

/-!
## The write
-/

theorem keeps_of_write {user : CString} (hslash : slash ∉ user.bytes)
    (hlen : user.length ≤ 8) {d : DayField} {env : Env User} {p p' : Process User}
    {path : Path} (hpath : path.name = dayPath user d) {buf : CBuffer}
    {size offset : Nat} {reply : Reply}
    (h : serve env p (.write path buf size offset) = .ok (reply, p'))
    (hok : 0 ≤ reply.result) : Keeps user d (atoi buf.str.bytes) p' := by
  have hreach : Reaches p.root path.name := by
    by_contra hnot
    rw [serve, shWrite_of_not_reaches hnot] at h
    cases h
    exact absurd hok (show ¬ 0 ≤ -ENOENT by decide)
  have hlen' : user.length ≤ 9 := Nat.le_succ_of_le hlen
  have hhead : headName path.name = user := by
    rw [hpath]
    exact headName_fileOf _ hslash hlen'
  have htext : attrText path.name = d.file.fileName := by
    rw [hpath]
    exact attrText_fileOf _ hslash hlen'
  rcases hreach.exists_firstMatch with ⟨front, u, back, hm⟩
  rw [hhead] at hm
  have hroot : p'.root = front ++ User.setDay d (atoi buf.str.bytes) u :: back := by
    rw [serve, shWrite_of_reaches hreach, hhead, htext, attrOf_fileName,
      hm.writeAttr_eq (User.rep_terminated u), writeEdit_file] at h
    cases h
    rfl
  have husername : (User.setDay d (atoi buf.str.bytes) u).username = u.username :=
    User.username_setDay _ _ _
  have hfree := hreach.1
  rw [hpath, hm.split] at hfree
  refine ⟨User.setDay d (atoi buf.str.bytes) u, ⟨hslash, hlen, ?_, ?_⟩,
    User.day_setDay_self _ _ _⟩
  · rw [hroot]
    exact (hm.update husername).findRecord_eq
  · rw [hroot]
    apply findUser_replace hfree
    rw [husername]
    exact findUser_eq_none_iff.mp hfree u (by simp)

/-- A decimal number of at most seven digits that `sh_write` has accepted for a day
file is delivered by `sh_read` and measured by `sh_getattr` in every state reached
without disturbing the file. -/
theorem read_back_written_day (env : Env User) (p p₁ p₂ : Process User)
    (user : CString) (hslash : slash ∉ user.bytes) (hlen : user.length ≤ 8)
    (d : DayField) (v : Int) (hv : v.natAbs < 10 ^ 7)
    (path : Path) (hpath : path.name = dayPath user d)
    (buf : CBuffer) (hbuf : HoldsInt buf v) (size offset : Nat) (reply : Reply)
    (hwrite : serve env p (.write path buf size offset) = .ok (reply, p₁))
    (hok : 0 ≤ reply.result) (calls : List (Env User × Request))
    (hallowed : Library.Guarded serveStep
      (fun call q => ¬ Disturbs user d q call) calls p₁)
    (hrun : serveAll calls p₁ = .ok p₂) (path' : Path)
    (hpath' : path'.name = dayPath user d) :
    (forall (stack : Nat -> Byte) (out : List Byte) (room : Nat), 10 ≤ room ->
      (numberLine v).length ≤ room ∧
        shRead p₂ stack path' out room 0 =
          ((((numberLine v).length : Int),
            numberLine v ++ out.drop (numberLine v).length), p₂)) ∧
      shGetattr p₂ path' =
        (0, { mode := S_IFREG ||| 0o666, nlink := 1, size := (numberLine v).length }) := by
  have hstored := keeps_of_write hslash hlen hpath hwrite hok
  rcases hstored.run hallowed hrun with ⟨u, hleads, hday⟩
  have hline : dayLine (u.day d) = numberLine v := by
    rw [hday, dayLine, hbuf.atoi_eq hv, numberLine]
  have htext : (numberLine v).length ≤ 9 := by
    have hdigits := intText_length_le (by decide) hv
    rw [numberLine, List.length_append]
    exact Nat.succ_le_succ hdigits
  constructor
  · intro stack out room hroom
    refine ⟨by lia, ?_⟩
    have hsize : toInt (numberLine v).length = ((numberLine v).length : Int) :=
      toInt_of_lt (by lia)
    have hcopy := copyOut_localArray (Nat.le_of_eq (Nat.zero_add (numberLine v).length))
      stack out
    rw [List.drop_zero, List.take_length] at hcopy
    rw [hleads.shRead_eq hpath', readDay, hline, hcopy, hsize]
  · rw [hleads.shGetattr_eq hpath', hline]

/-- The requests of the sample run: another user comes and is renamed, and a file
of the same user is written. -/
def quietCalls : List (Env User × Request) :=
  [(plainEnv, .mkdir (Path.of (CString.lit "sys") [])),
    (plainEnv, .rename (Path.of (CString.lit "sys") []) (Path.of (CString.lit "adm") [])),
    (plainEnv, .write (Path.of (CString.lit "bin/days_before_warning") [])
      (CBuffer.ofCString (CString.lit "9") []) 1 0)]

theorem read_back_binUser :
    exists p₁ p₂ : Process User,
      serve plainEnv (plainProcess [binUser])
          (.write (Path.of (CString.lit "bin/days_since_changed") [])
            (CBuffer.ofCString (CString.lit "-42") []) 3 0) =
          .ok ({ result := 3 }, p₁) ∧
        serveAll quietCalls p₁ = .ok p₂ ∧
        (shGetattr p₂ (Path.of (CString.lit "bin/days_since_changed") [])).2.size = 4 := by
  refine ⟨_, _, rfl, rfl, ?_⟩
  have hbuf : HoldsInt (CBuffer.ofCString (CString.lit "-42") []) (-42) := by
    have hall : (ascii "42").all isDigit = true := by decide
    have hdigits : IsDecimal (minus :: ascii "42") (-(digitsValue (ascii "42"))) :=
      IsDecimal.negative (by decide) (List.all_eq_true.mp hall)
    refine ⟨minus :: ascii "42", [], by decide, hdigits, ?_⟩
    intro b hb
    cases hb
  have h := (read_back_written_day plainEnv (plainProcess [binUser]) _ _
    (CString.lit "bin") (by decide) (by decide) .dsc (-42) (by decide)
    (Path.of (CString.lit "bin/days_since_changed") []) (by decide) _ hbuf 3 0 _ rfl
    (by decide) quietCalls ?_ rfl (Path.of (CString.lit "bin/days_since_changed") [])
    (by decide)).2
  · rw [h]
    decide
  · refine ⟨?_, fun q hq => ⟨?_, fun q' hq' => ⟨?_, fun _ _ => trivial⟩⟩⟩
    · rintro ⟨_, hname | hname⟩
      · exact absurd hname (by decide)
      · exact absurd hname (by decide)
    · rintro (hname | ⟨_, hname | hname⟩)
      · exact absurd hname (by decide)
      · exact absurd hname (by decide)
      · exact absurd hname (by decide)
    · rintro (hname | ⟨_, hname⟩)
      · exact absurd hname (by decide)
      · exact absurd hname (by decide)

end ShadowFs

import ShadowFs.Callbacks.HashField
import ShadowFs.Persist.Chunks
import ShadowFs.System.Stamps

/-!
# Texts and the arrays they are printed to

`is_attr` and `sh_read` print a day and a newline into an array of 10 bytes, `sh_read` prints
the hash or the reserved text and a newline into one of 40.  Nothing bounds what is stored:
a day is any `int` that `atoi` returns, a reserved text is a whole write buffer or the rest of
a path, and a hash that fills its own array is read on into the days behind it.

The texts of a record fit as long as its days have at most eight characters, its reserved
text at most 38, and the first zero byte of the days comes early enough to end a full hash.
-/

namespace ShadowFs

open CLib UserRep

/-!
## One record
-/

/-- Every text of the record fits its array, with newline and terminator. -/
structure FitsBuffers (u : UserImage) : Prop where
  days : forall d, (dayLine (u.day d)).length + 1 ≤ 10
  hash : (stringLine u.hash).length + 1 ≤ 40
  reserved : forall r, u.reserved = some r -> (stringLine r).length + 1 ≤ 40

def ShortDay (v : Int32) : Prop :=
  -9999999 ≤ v.toInt ∧ v.toInt ≤ 99999999

instance (v : Int32) : Decidable (ShortDay v) :=
  inferInstanceAs (Decidable (_ ∧ _))

theorem shortDay_iff (v : Int32) : (dayLine v).length + 1 ≤ 10 <-> ShortDay v := by
  have hminus := natText_length_le_iff (n := v.toInt.natAbs) (k := 7) (by decide)
  have hplus := natText_length_le_iff (n := v.toInt.natAbs) (k := 8) (by decide)
  rw [dayLine, List.length_append, List.length_singleton, intText, ShortDay]
  split
  · rw [List.length_cons]
    lia
  · lia

def UserImage.days (u : UserImage) : DayField -> Int32 :=
  fun d => u.day d

/-- The number of bytes in front of the first zero byte of the days. -/
def daysRun (day : DayField -> Int32) : Nat :=
  ((int32Bytes (day .dsc) ++ int32Bytes (day .dcc) ++ int32Bytes (day .dmc) ++
    int32Bytes (day .dw) ++ int32Bytes (day .de) ++ int32Bytes (day .dd)).takeWhile
      (fun b => b ≠ 0)).length

namespace UserImage

theorem drop_days (u : UserImage) :
    u.bytes.drop 48 = int32Bytes (u.day .dsc) ++ int32Bytes (u.day .dcc) ++
      int32Bytes (u.day .dmc) ++ int32Bytes (u.day .dw) ++ int32Bytes (u.day .de) ++
      int32Bytes (u.day .dd) := by
  have hnext : forall off, off + 4 ≤ 72 ->
      u.bytes.drop off = int32Bytes (int32At u.bytes off) ++ u.bytes.drop (off + 4) :=
    fun off hoff => drop_eq_int32Bytes_append (by rw [u.size]; exact hoff)
  have hend : u.bytes.drop 72 = [] := by
    rw [← u.size]
    exact List.drop_length
  rw [hnext 48 (by decide), hnext 52 (by decide), hnext 56 (by decide), hnext 60 (by decide),
    hnext 64 (by decide), hnext 68 (by decide), hend, List.append_nil]
  simp only [List.append_assoc]
  rfl

/-- A hash that fills its array is read on into the days. -/
theorem hash_bytes_of_full {u : UserImage} (h : (0 : Byte) ∉ u.hashArray) :
    u.hash.bytes = u.hashArray ++ (u.bytes.drop 48).takeWhile (fun b => b ≠ 0) := by
  show (u.bytes.drop hashOffset).takeWhile (fun b => decide (b ≠ 0)) = _
  rw [drop_hashOffset, List.takeWhile_append_of_pos (forall_ne_of_not_mem h)]

theorem hash_length_of_full {u : UserImage} (h : (0 : Byte) ∉ u.hashArray) :
    u.hash.length = 32 + daysRun u.days := by
  have hlen : u.hashArray.length = 32 := by
    rw [hashArray, List.length_take, List.length_drop, u.size]
    rfl
  show u.hash.bytes.length = _
  rw [hash_bytes_of_full h, List.length_append, hlen, drop_days]
  rfl

theorem hash_length_of_mem {u : UserImage} (h : (0 : Byte) ∈ u.hashArray) :
    u.hash.length ≤ 31 := by
  by_contra hlong
  have hlong' : 32 ≤ u.hash.bytes.length := Nat.not_le.mp hlong
  have hprefix : u.hash.bytes <+: u.bytes.drop hashOffset := List.takeWhile_prefix _
  have htake : u.hashArray <+: u.hash.bytes := by
    apply List.prefix_of_prefix_length_le (List.take_prefix 32 _) hprefix
    rw [List.length_take]
    lia
  exact u.hash.nulFree (htake.subset h)

theorem hash_length_le_iff (u : UserImage) :
    u.hash.length ≤ 31 <-> (0 : Byte) ∈ u.hashArray := by
  refine ⟨?_, hash_length_of_mem⟩
  intro hle
  by_contra hfull
  rw [hash_length_of_full hfull] at hle
  lia

/-- The text of the hash fits exactly if the hash ends in its array or early in the days. -/
theorem hash_fits_iff (u : UserImage) :
    u.hash.length ≤ 38 <-> u.hash.length ≤ 31 ∨ daysRun u.days ≤ 6 := by
  rw [hash_length_le_iff]
  by_cases h : (0 : Byte) ∈ u.hashArray
  · have hle := hash_length_of_mem h
    exact ⟨fun _ => Or.inl h, fun _ => by lia⟩
  · rw [hash_length_of_full h]
    constructor
    · exact fun hfits => Or.inr (by lia)
    · intro hearly
      have hrun := hearly.resolve_left h
      lia

theorem hashArray_setDays (vs : List Int32) (u : UserImage) :
    UserImage.hashArray (setDays vs u) = u.hashArray := by
  have hkept : forall d v (w : UserImage),
      UserImage.hashArray (UserRep.setDay d v w) = w.hashArray := hashArray_setDay
  simp only [setDays, hkept]

end UserImage

theorem stringLine_fits_iff (str : CString) :
    (stringLine str).length + 1 ≤ 40 <-> str.length ≤ 38 := by
  have hlen : (stringLine str).length = str.length + 1 := by
    rw [stringLine, List.length_append]
    rfl
  lia

theorem fitsBuffers_iff (u : UserImage) :
    FitsBuffers u <->
      (forall d, ShortDay (u.days d)) ∧ (u.hash.length ≤ 31 ∨ daysRun u.days ≤ 6) ∧
        forall r, u.reserved = some r -> r.length ≤ 38 := by
  rw [← UserImage.hash_fits_iff]
  constructor
  · intro h
    exact ⟨fun d => (shortDay_iff _).mp (h.days d), (stringLine_fits_iff _).mp h.hash,
      fun r hr => (stringLine_fits_iff r).mp (h.reserved r hr)⟩
  · rintro ⟨hdays, hhash, hreserved⟩
    exact ⟨fun d => (shortDay_iff _).mpr (hdays d), (stringLine_fits_iff _).mpr hhash,
      fun r hr => (stringLine_fits_iff r).mpr (hreserved r hr)⟩

/-!
## One assignment
-/

/-- A day that fits, and leaves a full hash its end. -/
def DayFits (d : DayField) (v : Int32) (u : UserImage) : Prop :=
  ShortDay v ∧ (u.hash.length ≤ 31 ∨ daysRun (Function.update u.days d v) ≤ 6)

theorem days_setDay (d : DayField) (v : Int32) (u : UserImage) :
    (UserImage.setDay d v u).days = Function.update u.days d v := by
  funext e
  by_cases he : e = d
  · rw [he, Function.update_self]
    exact UserImage.day_setDay_self d v u
  · rw [Function.update_of_ne he]
    exact UserImage.day_setDay_of_ne he v u

theorem forall_update_iff {P : Int32 -> Prop} {day : DayField -> Int32}
    (hday : forall e, P (day e)) (d : DayField) (v : Int32) :
    (forall e, P (Function.update day d v e)) <-> P v := by
  constructor
  · intro h
    have hself := h d
    rw [Function.update_self] at hself
    exact hself
  · intro hv e
    by_cases he : e = d
    · rw [he, Function.update_self]
      exact hv
    · rw [Function.update_of_ne he]
      exact hday e

theorem FitsBuffers.setDay_iff {u : UserImage} (h : FitsBuffers u) (d : DayField)
    (v : Int32) : FitsBuffers (UserImage.setDay d v u) <-> DayFits d v u := by
  rcases (fitsBuffers_iff u).mp h with ⟨hdays, _, hreserved⟩
  have hreserved' : forall r, (UserImage.setDay d v u).reserved = some r -> r.length ≤ 38 :=
    hreserved
  have harray := UserImage.hash_length_le_iff (UserImage.setDay d v u)
  rw [UserImage.hashArray_setDay, ← UserImage.hash_length_le_iff] at harray
  rw [fitsBuffers_iff, days_setDay, forall_update_iff hdays, harray, DayFits]
  exact ⟨fun hfits => ⟨hfits.1, hfits.2.1⟩, fun hfits => ⟨hfits.1, hfits.2, hreserved'⟩⟩

theorem FitsBuffers.setReserved_iff {u : UserImage} (h : FitsBuffers u) (r : CString) :
    FitsBuffers { u with reserved := some r } <-> r.length ≤ 38 := by
  rw [← stringLine_fits_iff]
  constructor
  · exact fun hfits => hfits.reserved r rfl
  · intro hr
    refine ⟨h.days, h.hash, ?_⟩
    intro r' hr'
    cases hr'
    exact hr

theorem shortDay_shadowTime (t : Int) : ShortDay (shadowTime t) := by
  have hbounds := shadowTime_bounds t
  exact ⟨by lia, by lia⟩

/-- A password fills the array of the hash; the stamp behind it is written last. -/
theorem FitsBuffers.password_iff {u : UserImage} (h : FitsBuffers u) {pass : CString}
    (hpass : pass.length = 32) (t : Int) :
    FitsBuffers (UserImage.setDay .dsc (shadowTime t) (UserImage.strcpyHash pass u)) <->
      daysRun (Function.update u.days .dsc (shadowTime t)) ≤ 6 := by
  rcases (fitsBuffers_iff u).mp h with ⟨hdays, _, hreserved⟩
  have hupdated : (UserImage.setDay .dsc (shadowTime t) (UserImage.strcpyHash pass u)).days =
      Function.update u.days .dsc (shadowTime t) := by
    rw [days_setDay]
    funext e
    by_cases he : e = .dsc
    · rw [he, Function.update_self, Function.update_self]
    · have hbehind := UserImage.dayOffset_of_ne_dsc he
      rw [Function.update_of_ne he, Function.update_of_ne he]
      exact UserImage.day_strcpyHash u (by simp only [UserImage.hashOffset, hpass]; lia)
  have hfull : ¬ (UserImage.setDay .dsc (shadowTime t)
      (UserImage.strcpyHash pass u)).hash.length ≤ 31 := by
    rw [UserImage.hash_length_le_iff, UserImage.hashArray_setDay,
      UserImage.hashArray_strcpyHash u hpass]
    exact pass.nulFree
  rw [fitsBuffers_iff, hupdated, forall_update_iff hdays]
  constructor
  · exact fun hfits => hfits.2.1.resolve_left hfull
  · exact fun hrun => ⟨shortDay_shadowTime t, Or.inr hrun, hreserved⟩

def WriteFits (env : Env UserImage) (attr : Option Attr) (buf : CBuffer) (u : UserImage) :
    Prop :=
  match attr with
  | some .passwordHash => daysRun (Function.update u.days .dsc (shadowTime env.time)) ≤ 6
  | some .daysSinceChanged => DayFits .dsc (atoi buf.str.bytes) u
  | some .daysUntilCanChange => DayFits .dcc (atoi buf.str.bytes) u
  | some .daysUntilMustChange => DayFits .dmc (atoi buf.str.bytes) u
  | some .daysBeforeWarning => DayFits .dw (atoi buf.str.bytes) u
  | some .daysUntilExpiration => DayFits .de (atoi buf.str.bytes) u
  | some .daysSinceAccountDeactivated => DayFits .dd (atoi buf.str.bytes) u
  | some .reserved => buf.str.length ≤ 38
  | none => True

theorem FitsBuffers.writeEdit_iff {u : UserImage} (h : FitsBuffers u) (env : Env UserImage)
    (attr : Option Attr) (buf : CBuffer) :
    FitsBuffers (writeEdit env attr buf u) <-> WriteFits env attr buf u := by
  cases attr with
  | none => exact iff_of_true h trivial
  | some attr =>
      cases attr with
      | passwordHash => exact h.password_iff (hashword_length buf.str) env.time
      | reserved => exact h.setReserved_iff buf.str
      | daysSinceChanged => exact h.setDay_iff .dsc _
      | daysUntilCanChange => exact h.setDay_iff .dcc _
      | daysUntilMustChange => exact h.setDay_iff .dmc _
      | daysBeforeWarning => exact h.setDay_iff .dw _
      | daysUntilExpiration => exact h.setDay_iff .de _
      | daysSinceAccountDeactivated => exact h.setDay_iff .dd _

/-!
## One request
-/

/-- In every text of every user there is nothing that `is_attr` or `sh_read` would print
beyond its array. -/
def Formats (p : Process UserImage) : Prop :=
  forall u, u ∈ p.root -> FitsBuffers u

def EditFits (call : Env UserImage × Request) (p : Process UserImage) : Prop :=
  match call.2 with
  | .write path buf _ _ =>
      Reaches p.root path.name -> forall u, findRecord p.root (headName path.name) = some u ->
        WriteFits call.1 (attrOf (attrText path.name)) buf u
  | .mknod path =>
      Reaches p.root path.name -> GetsBuffer call.1 path.name ->
        (attrText path.name).length ≤ 38
  | _ => True

/-- The requests that read the attributes or write them. -/
def Request.IsFileRequest : Request -> Prop
  | .write .. | .mknod _ => True
  | req => req.IsQuery

theorem Formats.replace_iff {p : Process UserImage} (h : Formats p)
    {front back : List UserImage} {u v : UserImage} {name : CString}
    (hm : FirstMatch p.root name front u back) :
    (forall w, w ∈ front ++ v :: back -> FitsBuffers w) <-> FitsBuffers v := by
  rw [Formats, hm.split] at h
  exact ⟨fun hall => hall v (by simp), fun hv => forall_mem_replace h hv⟩

theorem formats_write_iff {env : Env UserImage} {path : Path} {buf : CBuffer}
    {size offset : Nat} {p p' : Process UserImage} (h : Formats p)
    (hstep : serveStep (env, .write path buf size offset) p = .ok p') :
    EditFits (env, .write path buf size offset) p <-> Formats p' := by
  cases hstep
  by_cases hreach : Reaches p.root path.name
  · rcases hreach.exists_firstMatch with ⟨front, u, back, hm⟩
    have hfits := (h u hm.mem).writeEdit_iff env (attrOf (attrText path.name)) buf
    rw [Formats, shWrite_of_reaches hreach,
      hm.writeAttr_eq (UserImage.terminated_of_headName hm)]
    rw [h.replace_iff hm, hfits]
    constructor
    · exact fun hedit => hedit hreach u hm.findRecord_eq
    · intro hedit _ v hv
      rw [hm.findRecord_eq] at hv
      cases hv
      exact hedit
  · rw [Formats, shWrite_of_not_reaches hreach]
    exact iff_of_true (fun hreach' => absurd hreach' hreach) h

theorem formats_mknod_iff {env : Env UserImage} {path : Path} {p p' : Process UserImage}
    (h : Formats p) (hstep : serveStep (env, .mknod path) p = .ok p') :
    EditFits (env, .mknod path) p <-> Formats p' := by
  rcases serveStep_mknod_ok hstep with ⟨res, hmknod, rfl⟩
  by_cases hreach : Reaches p.root path.name
  · rcases hreach.exists_firstMatch with ⟨front, u, back, hm⟩
    rcases shMknod_ok_of_reaches hreach hm hmknod with ⟨hbuffer, rfl⟩
    rw [Formats, h.replace_iff hm]
    have hfits := (h u hm.mem).setReserved_iff (attrText path.name)
    exact ⟨fun hedit => hfits.mpr (hedit hreach hbuffer), fun hv _ _ => hfits.mp hv⟩
  · rcases shMknod_of_not_reaches hreach env with ⟨code, _, hcode⟩
    rw [hcode] at hmknod
    cases hmknod
    exact iff_of_true (fun hreach' => absurd hreach' hreach) h

theorem formats_step_iff {call : Env UserImage × Request} {p p' : Process UserImage}
    (hreq : call.2.IsFileRequest) (h : Formats p) (hstep : serveStep call p = .ok p') :
    EditFits call p <-> Formats p' := by
  rcases call with ⟨env, req⟩
  cases req with
  | write path buf size offset => exact formats_write_iff h hstep
  | mknod path => exact formats_mknod_iff h hstep
  | read path stack buf size offset =>
      cases hstep
      rw [Formats, shRead_root]
      exact iff_of_true trivial h
  | mkdir path => cases hreq
  | rmdir path => cases hreq
  | rename source target => cases hreq
  | unlink path => cases hreq
  | _ =>
      cases hstep
      exact iff_of_true trivial h

/-!
## The loaded file
-/

/-- The days of a line fit, and its hash ends in its array or early in the days. -/
def FittingLine (line : List Byte) : Prop :=
  (forall d, ShortDay ((lineUser line).day d)) ∧
    ((lineUser line).hash.length ≤ 31 ∨ daysRun (fun d => (lineUser line).day d) ≤ 6)

def LoadedFits (sf : List UserImage) : Prop :=
  forall u, u ∈ sf -> FitsBuffers u ∧ UserImage.Terminated u

theorem fitsBuffers_initUser (env : Env UserImage) (name : CString) (u : UserImage) :
    FitsBuffers (initUser env name u) := by
  have hhash : (initUser env name u).hash = CString.lit "*" := hash_initUser env u
  rw [fitsBuffers_iff]
  refine ⟨?_, Or.inl (by rw [hhash]; decide), ?_⟩
  · intro d
    have hday : (initUser env name u).days d = newDays env d := day_initUser env name u d
    rw [hday]
    cases d with
    | dsc => exact shortDay_shadowTime env.time
    | dmc => exact (by decide : ShortDay 99999)
    | dw => exact (by decide : ShortDay 7)
    | _ => exact (by decide : ShortDay 0)
  · intro r hr
    have hnone : reserved (initUser env name u) = none := reserved_setReserved_none _
    rw [show reserved (initUser env name u) = some r from hr] at hnone
    cases hnone

theorem fitsBuffers_line {line rest : List Byte} {user pass : CString} {u : UserImage}
    (hline : FittingLine line)
    (htokens : lineTokens line = user.bytes :: pass.bytes :: tokens colon rest)
    (hpass : pass.length ≤ 32) (hu : FitsBuffers u) :
    FitsBuffers (setDays (intsFrom 6 rest) (strcpyHash pass u)) := by
  have hints : forall i, i < 6 ->
      (intsFrom 6 rest).getD i 0 = tokenInt (lineTokens line) (i + 2) :=
    fun i hi => intsFrom_getD_eq_tokenInt htokens hi
  have hdays : UserImage.days (setDays (intsFrom 6 rest) (strcpyHash pass u)) =
      fun d => (lineUser line).day d := by
    funext d
    show day d (setDays (intsFrom 6 rest) (strcpyHash pass u)) = (lineUser line).day d
    simp only [setDays, hints 0 (by decide), hints 1 (by decide), hints 2 (by decide),
      hints 3 (by decide), hints 4 (by decide), hints 5 (by decide)]
    cases d <;> simp [day_setDay_self, day_setDay_of_ne, User.day, lineUser]
  have harray : UserImage.hashArray (setDays (intsFrom 6 rest) (strcpyHash pass u)) =
      UserImage.hashArray (UserImage.strcpyHash pass u) :=
    UserImage.hashArray_setDays _ _
  have hhash : (UserImage.hash (setDays (intsFrom 6 rest) (strcpyHash pass u))).length ≤ 31 <->
      (lineUser line).hash.length ≤ 31 := by
    have hpassword : (lineUser line).hash = pass := by
      simp [lineUser, htokens]
    rw [UserImage.hash_length_le_iff, harray, ← UserImage.hash_length_le_iff,
      UserImage.hash_strcpyHash u hpass, hpassword]
  have hreserved : UserImage.reserved (setDays (intsFrom 6 rest) (strcpyHash pass u)) =
      u.reserved := by
    show reserved (setDays (intsFrom 6 rest) (strcpyHash pass u)) = reserved u
    simp only [setDays, reserved_setDay]
    exact reserved_strcpyHash pass u hpass
  rw [fitsBuffers_iff, hdays, hhash, hreserved]
  exact ⟨hline.1, hline.2, ((fitsBuffers_iff u).mp hu).2.2⟩

theorem loadedFits_addUser {sf : List UserImage} (h : LoadedFits sf) (env : Env UserImage)
    {name : CString} (hname : name.length ≤ usernameCapacity) :
    LoadedFits (sfTreeAddUser env sf name).2 := by
  rcases sfTreeAddUser_cases env sf name with ⟨code, _, hadd⟩ | ⟨block, _, _, _, hadd⟩
  · rw [hadd]
    exact h
  · rw [hadd]
    exact forall_mem_append_singleton h
      ⟨fitsBuffers_initUser env name block, terminated_initUser env block hname⟩

theorem loadedFits_line {env : Env UserImage} {sf : List UserImage} {line : List Byte}
    {outcome : LineOutcome UserImage} (h : LoadedFits sf) (hline : FittingLine line)
    (hparse : parseLine env sf line = .ok outcome) : LoadedFits outcome.list := by
  have hrecord := hasRecord_of_parseLine hparse
  rcases hrecord.tokens_eq with ⟨user, pass, rest, rest', huser, hpass, htokens⟩
  rcases hrecord.lengths htokens with ⟨hnameFits, hhashFits⟩
  have hadded := loadedFits_addUser h env hnameFits
  rcases findUser_cases (sfTreeAddUser env sf user).2 user with hnone | ⟨front, u, back, hm⟩
  · rw [parseLine_of_none huser hnone hparse]
    exact hadded
  · have hu := hadded u hm.mem
    rw [parseLine_string, parseLine_of_tokens huser hpass (strtok_eq_some huser).1 hnameFits
      (strtok_eq_some hpass).1 hhashFits hm hu.2] at hparse
    cases hparse
    rw [LoadedFits, hm.split] at hadded
    exact forall_mem_replace hadded ⟨fitsBuffers_line hline htokens hhashFits hu.1,
      terminated_setDays _ (terminated_strcpyHash pass u hu.2)⟩

theorem loadedFits_initParse {load : LoadEnv UserImage} (hhead : load.head = [])
    {file : List Byte} (hlines : forall line, line ∈ readLines 256 file -> FittingLine line)
    {sf : List UserImage} (hload : initParse load file = .ok sf) : LoadedFits sf := by
  have hstart : LoadedFits (sfTreeInit load) := by
    rw [sfTreeInit, hhead]
    exact fun u hu => absurd hu List.not_mem_nil
  refine parseLines_invariant ?_ hstart hload
  exact fun env sf line outcome hline h => loadedFits_line h (hlines line hline)

/-!
## Runs
-/

/-- A step that ends in a fault stores nothing: `sh_mknod` got no buffer or a small one. -/
theorem editFits_of_fault {call : Env UserImage × Request} {p : Process UserImage}
    {fault : Fault} (hstep : serveStep call p = .error fault) : EditFits call p := by
  rcases call with ⟨env, req⟩
  cases req with
  | write path buf size offset => cases hstep
  | mknod path =>
      intro hreach hbuffer
      rcases hreach.exists_firstMatch with ⟨front, u, back, hm⟩
      rw [serveStep, serve, shMknod_of_getsBuffer hreach hm hbuffer] at hstep
      cases hstep
  | _ => exact trivial

/-- One line, loaded where every allocation succeeds. -/
def binFile : List Byte := ascii "bin:*:15000:0:99999:7:::\n"

def calmLoad : LoadEnv UserImage :=
  { head := [], line := fun _ => UserImage.calmEnv }

def binUsers : List UserImage :=
  [setDays [15000, 0, 99999, 7, 0, 0] (strcpyHash (CString.lit "*")
    (initUser UserImage.calmEnv (CString.lit "bin") UserImage.blank))]

theorem initParse_binFile : initParse calmLoad binFile = .ok (imageProcess binUsers).root := by
  rfl

theorem readLines_binFile : readLines 256 binFile = [binFile] := by
  decide

theorem fittingLine_binFile : forall line, line ∈ readLines 256 binFile -> FittingLine line := by
  have htokens : lineTokens binFile = [ascii "bin", ascii "*", ascii "15000", ascii "0",
    ascii "99999", ascii "7", ascii "\n"] := by decide
  have hhash : (lineUser binFile).hash = CString.lit "*" := by
    rw [lineUser, htokens]
    rfl
  rw [readLines_binFile, List.forall_mem_singleton]
  refine ⟨?_, Or.inl (by rw [hhash]; decide)⟩
  intro d
  cases d <;> decide

def warnCalls (text : CString) : List (Env UserImage × Request) :=
  [(UserImage.calmEnv, .write (Path.of (CString.lit "bin/days_before_warning") [])
    (CBuffer.ofCString text []) text.length 0)]

theorem isFileRequest_warnCalls (text : CString) :
    forall call, call ∈ warnCalls text -> call.2.IsFileRequest := by
  rw [warnCalls, List.forall_mem_singleton]
  exact trivial

theorem not_writesReserved_warnCalls (text : CString) :
    forall call, call ∈ warnCalls text -> ¬ call.2.WritesReserved := by
  rw [warnCalls, List.forall_mem_singleton, Request.WritesReserved]
  decide

end ShadowFs

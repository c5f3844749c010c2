import ShadowFs.Callbacks.HashField
import ShadowFs.System.Uniqueness

/-!
# Names and hashes across a reload

Whether the text that `sf_deparse` writes is read back with the same users and the
same hashes is decided by the strings that requests put into the records.  No
callback checks them: a newline or a colon in a name, a newline in a `reserved`
text, a line that does not fit the buffer of `fgets`, a second user of the same
name and a hash that runs into `dsc` all change what is read back.  So does a write to
`reserved`, whose text is the one of the next request soon after.  A run in which
no request stores such a thing keeps every state readable.

The records are byte images, since the hash of a new password fills its array.
-/

namespace ShadowFs

open CLib UserImage

/-!
## Readable stores
-/

/-- Every record is printed as one line of its own, and the names differ. -/
structure Readable (sf : List UserImage) : Prop where
  printable : forall u, u ∈ sf -> Printable u
  distinct : Distinct sf

/-- Loading the text of the users succeeds and gives the same names in the same
order with the same hashes. -/
def Reloads (sf : List UserImage) : Prop :=
  forall load : LoadEnv UserImage, load.head = [] ->
    (forall k, (load.line k).block ≠ none) ->
    exists sf', initParse load (sfDeparse sf) = .ok sf' ∧
      sf'.map (fun u => (u.username, u.hash)) = sf.map (fun u => (u.username, u.hash))

/-- A full hash that reads as such ends in the low byte of `dsc`. -/
theorem dsc_emod_of_full {u : UserImage} (hu : u.hash.length = 32) :
    (u.day .dsc).toInt % 256 = 0 :=
  (hash_eq_iff_of_full (hashArray_of_full hu)).mp rfl

theorem setDays_eq_assignDays (vs : List Int32) (u : UserImage) :
    setDays vs u =
      assignDays [(.dsc, vs.getD 0 0), (.dcc, vs.getD 1 0), (.dmc, vs.getD 2 0),
        (.dw, vs.getD 3 0), (.de, vs.getD 4 0), (.dd, vs.getD 5 0)] u := rfl

theorem intsFrom_dayText_dsc (u : UserImage) :
    (intsFrom 6 (dayText u ++ [newline])).getD 0 0 = u.day .dsc := by
  have htext : dayText u ++ [newline] = intText (u.day .dsc).toInt ++ colon ::
      ((intText (u.day .dcc).toInt ++ colon ::
        ([u.day .dmc, u.day .dw, u.day .de, u.day .dd].flatMap blankIfZero ++
          reservedText u)) ++ [newline]) :=
    List.append_assoc _ _ _
  rw [htext, intsFrom, nextInt_intText, List.getD_cons_zero]

/-- The reload assigns the hash first and the same `dsc` after it. -/
theorem hash_reload (env : Env UserImage) (block : UserImage) {u : UserImage}
    (hu : u.hash.length ≤ 32) : (reload env block u).hash = u.hash := by
  rw [reload, setDays_eq_assignDays, intsFrom_dayText_dsc]
  apply (hash_assignDays_strcpyHash_iff _ hu _).mpr
  by_cases hfits : u.hash.length ≤ 31
  · exact Or.inl hfits
  · apply Or.inr
    intro v hv
    have hlast : v = u.day .dsc := (Option.some.inj hv).symm
    rw [hlast]
    exact dsc_emod_of_full (by lia)

theorem Readable.reloads {sf : List UserImage} (h : Readable sf) : Reloads sf := by
  intro load hhead halloc
  have hsome : forall k, exists b, (load.line k).block = some b :=
    fun k => Option.ne_none_iff_exists'.mp (halloc k)
  choose block hblock using hsome
  refine ⟨_, initParse_sfDeparse load block hhead hblock sf h.printable h.distinct, ?_⟩
  apply reloadFrom_map
  intro env b u hu
  have hname : (reload env b u).username = u.username :=
    username_reload env b (h.printable u hu).nameFits
  rw [hname, hash_reload env b (h.printable u hu).hashFits]

/-!
## Requests that store nothing harmful
-/

structure PlainName (name : CString) : Prop where
  text : FieldText name
  fits : name.length ≤ usernameCapacity

/-- The line of the record fits the buffer of `fgets`. -/
def LineFits (u : UserImage) : Prop :=
  (lineBody u).length ≤ 254

/-- The value leaves the hash of the record readable. -/
def SparesHash (u : UserImage) (dsc : Int32) : Prop :=
  u.hash.length ≤ 31 ∨ dsc.toInt % 256 = 0

/-- What a write may store: a password on a day with a zero low byte, a `dsc` that
spares the hash, and no `reserved` text, since the next request overwrites it. -/
def WriteHarmless (env : Env UserImage) (attr : Option Attr) (buf : CBuffer)
    (u : UserImage) : Prop :=
  LineFits (writeEdit env attr buf u) ∧
    match attr with
    | some .passwordHash => (shadowTime env.time).toInt % 256 = 0
    | some .daysSinceChanged => SparesHash u (atoi buf.str.bytes)
    | some .reserved => False
    | _ => True

def UnlinkHarmless (env : Env UserImage) (attr : Option Attr) (u : UserImage) : Prop :=
  LineFits (unlinkEdit env attr u) ∧
    match attr with
    | some .daysSinceChanged => SparesHash u (shadowTime env.time)
    | _ => True

/-- The request stores nothing that changes what is read back. -/
def Harmless (call : Env UserImage × Request) (p : Process UserImage) : Prop :=
  match call.2 with
  | .mkdir path => Accepts call.1 p.root path.name -> PlainName path.name
  | .rename source target =>
      forall u, findRecord p.root source.name = some u ->
        PlainName target.name ∧ LineFits (strcpyUsername target.name u) ∧
          (target.name = source.name ∨ findUser p.root target.name = none)
  | .write path buf _ _ =>
      forall u, Reaches p.root path.name ->
        findRecord p.root (headName path.name) = some u ->
        WriteHarmless call.1 (attrOf (attrText path.name)) buf u
  | .unlink path =>
      forall u, Reaches p.root path.name ->
        findRecord p.root (headName path.name) = some u ->
        UnlinkHarmless call.1 (attrOf (attrText path.name)) u
  | .mknod path =>
      forall u, Reaches p.root path.name ->
        findRecord p.root (headName path.name) = some u ->
        newline ∉ (attrText path.name).bytes ∧
          LineFits (UserRep.setReserved (some (attrText path.name)) u)
  | _ => True

/-!
## One record
-/

theorem printable_of_fields {v : UserImage} {name h : CString} (hname : v.username = name)
    (hplain : PlainName name) (hhash : v.hash = h) (htext : FieldText h)
    (hlen : h.length ≤ 32) (hreserved : newline ∉ reservedText v) (hline : LineFits v) :
    Printable v := by
  subst hname
  subst hhash
  exact ⟨hplain.text, hplain.fits, htext, hlen, hreserved, hline⟩

theorem Printable.plainName {u : UserImage} (hu : Printable u) : PlainName u.username :=
  ⟨hu.name, hu.nameFits⟩

/-- The day fields behind `dsc` are out of reach of the hash; `dsc` is not. -/
theorem hash_setDay_of_spares {u : UserImage} (hu : u.hash.length ≤ 32) {d : DayField}
    {v : Int32} (hv : d = .dsc -> SparesHash u v) : (setDay d v u).hash = u.hash := by
  by_cases hfits : u.hash.length ≤ 31
  · exact UserRep.hash_setDay d v u hfits
  · by_cases hd : d = .dsc
    · subst hd
      rw [hash_setDay_dsc_of_full v (by lia)]
      exact (hv rfl).resolve_left hfits
    · have hbehind := dayOffset_of_ne_dsc hd
      apply hash_setDay_of_lt
      simp only [hashOffset]
      lia

theorem Printable.setDay {u : UserImage} (hu : Printable u) {d : DayField} {v : Int32}
    (hv : d = .dsc -> SparesHash u v) (hline : LineFits (setDay d v u)) :
    Printable (setDay d v u) := by
  have hname : (UserImage.setDay d v u).username = u.username :=
    username_setDay d v hu.nameFits
  have hhash := hash_setDay_of_spares hu.hashFits hv
  exact printable_of_fields hname hu.plainName hhash hu.hash hu.hashFits
    hu.reservedFree hline

theorem Printable.setReserved {u : UserImage} (hu : Printable u) {r : Option CString}
    (hr : forall s, r = some s -> newline ∉ s.bytes)
    (hline : LineFits (UserRep.setReserved r u)) :
    Printable (UserRep.setReserved r u) := by
  refine printable_of_fields rfl hu.plainName rfl hu.hash hu.hashFits ?_ hline
  cases r with
  | none => exact List.not_mem_nil
  | some s => exact hr s rfl

theorem fieldText_hashword (s : CString) : FieldText (hashword s) where
  nonempty := by
    intro hnil
    have hlen := hashword_length s
    rw [CString.length, hnil] at hlen
    cases hlen
  colonFree := not_mem_hashword (Or.inr (by decide))
  newlineFree := not_mem_hashword (Or.inl (by decide))

theorem Printable.writeEdit {env : Env UserImage} {attr : Option Attr} {buf : CBuffer}
    {u : UserImage} (hu : Printable u) (h : WriteHarmless env attr buf u) :
    Printable (writeEdit env attr buf u) := by
  rcases h with ⟨hline, hattr⟩
  cases attr with
  | none => exact hu
  | some attr =>
      cases attr with
      | passwordHash =>
          have hname : (ShadowFs.writeEdit env (some .passwordHash) buf u).username =
              u.username := username_writeEdit env _ buf hu.nameFits
          have hhash := ((showsHash_writeEdit_iff env buf u).mpr hattr).field
          have hlen := Nat.le_of_eq (hashword_length buf.str)
          exact printable_of_fields hname hu.plainName hhash (fieldText_hashword _) hlen
            hu.reservedFree hline
      | daysSinceChanged => exact hu.setDay (fun _ => hattr) hline
      | reserved => exact hattr.elim
      | _ =>
          apply hu.setDay ?_ hline
          intro hd
          cases hd

theorem Printable.unlinkEdit {env : Env UserImage} {attr : Option Attr} {u : UserImage}
    (hu : Printable u) (h : UnlinkHarmless env attr u) :
    Printable (unlinkEdit env attr u) := by
  rcases h with ⟨hline, hattr⟩
  cases attr with
  | none => exact hu
  | some attr =>
      cases attr with
      | passwordHash =>
          have hname : (ShadowFs.unlinkEdit env (some .passwordHash) u).username =
              u.username := username_unlinkEdit env _ hu.nameFits
          have hhash : (ShadowFs.unlinkEdit env (some .passwordHash) u).hash =
              CString.lit "!" := hash_strcpyHash u (by decide)
          have htext : FieldText (CString.lit "!") := by decide
          exact printable_of_fields hname hu.plainName hhash htext (by decide)
            hu.reservedFree hline
      | daysSinceChanged => exact hu.setDay (fun _ => hattr) hline
      | reserved =>
          apply hu.setReserved ?_ hline
          intro s hs
          cases hs
      | _ =>
          apply hu.setDay ?_ hline
          intro hd
          cases hd

theorem printable_initUser (env : Env UserImage) (block : UserImage) {name : CString}
    (h : PlainName name) : Printable (initUser env name block) := by
  have hname : (initUser env name block).username = name :=
    username_initUser env block h.fits
  have hstar : (initUser env name block).hash = CString.lit "*" :=
    hash_initUser env block
  have hreserved : reservedText (initUser env name block) = [] := rfl
  have htext : FieldText (CString.lit "*") := by decide
  refine printable_of_fields hname h hstar htext (by decide) ?_ ?_
  · rw [hreserved]
    exact List.not_mem_nil
  · -- A name of 15 bytes and six numbers stay far below the buffer of `fgets`.
    have hline := lineBody_length_le (initUser env name block)
    have hfits : (UserRep.username (initUser env name block)).length ≤ 15 := by
      rw [show UserRep.username (initUser env name block) = name from hname]
      exact h.fits
    have hshort : (UserRep.hash (initUser env name block)).length = 1 := by
      rw [show UserRep.hash (initUser env name block) = CString.lit "*" from hstar]
      decide
    rw [hreserved, hshort, List.length_nil] at hline
    rw [LineFits]
    lia

theorem Printable.rename {u : UserImage} (hu : Printable u) {name : CString}
    (h : PlainName name) (hline : LineFits (strcpyUsername name u)) :
    Printable (strcpyUsername name u) := by
  have hname := username_strcpyUsername u h.fits
  have hhash := hash_strcpyUsername u h.fits
  exact printable_of_fields hname h hhash hu.hash hu.hashFits hu.reservedFree hline

/-!
## Runs
-/

theorem Readable.replace {front back : List UserImage} {u v : UserImage}
    (h : Readable (front ++ u :: back)) (hv : Printable v)
    (hdistinct : Distinct (front ++ v :: back)) : Readable (front ++ v :: back) where
  printable := forall_mem_replace h.printable hv
  distinct := hdistinct

theorem AttrEdit.printable {env : Env UserImage} {name : CString} {req : Request}
    {result : Int} {assign : UserImage -> UserImage}
    (hedit : AttrEdit env name req result assign) {p : Process UserImage}
    (h : Harmless (env, req) p) (hreach : Reaches p.root name) {u : UserImage}
    (hrecord : findRecord p.root (headName name) = some u) (hu : Printable u) :
    Printable (assign u) := by
  cases hedit with
  | write hname =>
      subst hname
      exact hu.writeEdit (h u hreach hrecord)
  | unlink hname =>
      subst hname
      exact hu.unlinkEdit (h u hreach hrecord)
  | mknod hname =>
      subst hname
      rcases h u hreach hrecord with ⟨hfree, hline⟩
      apply hu.setReserved ?_ hline
      intro s hs
      cases hs
      exact hfree

/-- One step: a harmless request keeps the store readable. -/
theorem Readable.step {call : Env UserImage × Request} {p p' : Process UserImage}
    (h : Readable p.root) (hcall : Harmless call p) (hstep : serveStep call p = .ok p') :
    Readable p'.root := by
  rcases call with ⟨env, req⟩
  have hterm : AllTerminated p.root := fun u hu => (h.printable u hu).nameFits
  rcases serveStep_effect hterm hstep with ⟨result, heffect⟩
  generalize p'.root = sf' at heffect
  cases heffect with
  | query _ => exact h
  | refused _ => exact h
  | append hblock hnone hlen =>
      have hplain : PlainName _ :=
        hcall ⟨hnone, hblock ▸ Option.some_ne_none _, hlen⟩
      constructor
      · exact forall_mem_append_singleton h.printable (printable_initUser env _ hplain)
      · rw [distinct_append_iff, username_initUser env _ hplain.fits]
        exact ⟨h.distinct, hnone⟩
  | remove hm =>
      have hdistinct := h.distinct
      rw [hm.split] at h
      rw [hm.split, distinct_cons_iff] at hdistinct
      exact ⟨forall_mem_remove h.printable, hdistinct.1⟩
  | rename hm =>
      have hu := h.printable _ hm.mem
      rcases hcall _ hm.findRecord_eq with ⟨hplain, hline, hfree⟩
      have hdistinct := (hm.distinct_rename_iff h.distinct hplain.fits).mpr hfree
      rw [hm.split] at h
      exact h.replace (hu.rename hplain hline) hdistinct
  | edit hedit hreach hm =>
      have hu := h.printable _ hm.mem
      have hedited := hedit.printable hcall hreach hm.findRecord_eq hu
      have hdistinct := h.distinct
      rw [hm.split] at h hdistinct
      exact h.replace hedited (hdistinct.replace (hedit.username_eq hu.nameFits))

/-- In every run of harmless requests from a readable store, the text of every state
reached is read back with the same names and hashes. -/
theorem reloads_of_harmless (p p' : Process UserImage) (hp : Readable p.root)
    (calls : List (Env UserImage × Request))
    (hcalls : Library.Guarded serveStep Harmless calls p)
    (hrun : serveAll calls p = .ok p') : Reloads p'.root := by
  have hreadable : Readable p'.root := by
    refine Library.run_invariant (I := fun q => Readable q.root) ?_ calls p p' hcalls hp hrun
    intro call q q' hcall hq hstep
    exact hq.step hcall hstep
  exact hreadable.reloads

theorem readable_nil : Readable [] :=
  ⟨fun _ hu => absurd hu List.not_mem_nil, List.nodup_nil⟩

/-- A user is created, gets a `reserved` text and is warned earlier. -/
def plainCalls : List (Env UserImage × Request) :=
  [(calmEnv, .mkdir (Path.of (CString.lit "bin") [])),
    (calmEnv, .mknod (Path.of (CString.lit "bin/x") [])),
    (calmEnv, .write (Path.of (CString.lit "bin/days_before_warning") [])
      (CBuffer.ofCString (CString.lit "14") []) 2 0)]

theorem reloads_plainCalls :
    exists p, serveAll plainCalls (imageProcess []) = .ok p ∧ Reloads p.root := by
  refine ⟨_, rfl, reloads_of_harmless (imageProcess []) _ readable_nil plainCalls ?_ rfl⟩
  refine ⟨fun _ => ⟨by decide, by decide⟩,
    fun q hq => ⟨?_, fun q' hq' => ⟨?_, fun _ _ => trivial⟩⟩⟩
  · cases hq
    intro u _ hu
    cases hu
    refine ⟨by decide, ?_⟩
    rw [LineFits]
    decide
  · cases hq
    cases hq'
    intro u _ hu
    cases hu
    have hattr : attrOf (attrText (Path.of (CString.lit "bin/days_before_warning") []).name) =
        some .daysBeforeWarning := by decide
    rw [hattr]
    refine ⟨?_, trivial⟩
    rw [LineFits]
    decide

def noteCalls (text : CString) : List (Env UserImage × Request) :=
  [(calmEnv, .mkdir (Path.of (CString.lit "bin") [])),
    (calmEnv, .write (Path.of (CString.lit "bin/reserved") [])
      (CBuffer.ofCString text []) text.length 0)]

def noteRecord (text : CString) : UserImage :=
  UserRep.setReserved (some text) (initUser calmEnv (CString.lit "bin") blank)

/-- The second line of the text becomes a user of its own. -/
theorem not_reloads_injected :
    Readable (imageProcess []).root ∧
      serveAll (noteCalls (CString.lit "x\nroot:x:")) (imageProcess []) =
        .ok (imageProcess [noteRecord (CString.lit "x\nroot:x:")]) ∧
      ¬ Reloads [noteRecord (CString.lit "x\nroot:x:")] := by
  refine ⟨readable_nil, rfl, ?_⟩
  intro h
  rcases h { head := [], line := fun _ => calmEnv } rfl (by simp [calmEnv]) with
    ⟨sf', hload, hsame⟩
  have htwo : (initParse { head := [], line := fun _ => calmEnv }
      (sfDeparse [noteRecord (CString.lit "x\nroot:x:")])).toOption.map List.length =
        some 2 := by
    decide +kernel
  rw [hload] at htwo
  have hlength := congrArg List.length hsame
  rw [List.length_map, List.length_map, Option.some.inj htwo] at hlength
  cases hlength

end ShadowFs

import ShadowFs.Persist.Reload

/-!
# Writing and loading a user list

The round trip through the backing file, for records whose strings fit their
arrays.  `sf_deparse` prints a zero in one of the last four day fields as an
empty field, and `init_parse` reads tokens without counting colons, so a
non-zero field behind a zero one is read into an earlier field.  A list comes
back unchanged exactly when this never happens in it.
-/

namespace ShadowFs

open CLib UserRep

/-- A record whose text fields fit their arrays and can be told apart in the
file, and which has no reserved text. -/
structure Storable (u : User) : Prop where
  name : FieldText u.username
  nameFits : u.username.length ≤ 15
  hash : FieldText u.hash
  hashFits : u.hash.length ≤ 31
  reserved : u.reserved = none

/-- No non-zero field comes after a zero one among `dmc`, `dw`, `de`, `dd`. -/
def ZerosLast (u : User) : Prop :=
  (u.dmc = 0 -> u.dw = 0) ∧ (u.dw = 0 -> u.de = 0) ∧ (u.de = 0 -> u.dd = 0)

instance (u : User) : Decidable (ZerosLast u) :=
  inferInstanceAs (Decidable (_ ∧ _ ∧ _))

/-!
## Storable records are printable
-/

theorem reservedText_of_none {u : User} (h : u.reserved = none) :
    reservedText u = [] := by
  simp [reservedText, h]

theorem Storable.printable {u : User} (hu : Storable u) : Printable u := by
  have hres : reservedText u = [] := reservedText_of_none hu.reserved
  refine ⟨hu.name, hu.nameFits, hu.hash, Nat.le_succ_of_le hu.hashFits, ?_, ?_⟩
  · rw [hres]
    simp
  · have hname : (username u).length ≤ 15 := hu.nameFits
    have hhash : (UserRep.hash u).length ≤ 31 := hu.hashFits
    have hline := lineBody_length_le u
    rw [hres, List.length_nil] at hline
    lia

/-!
## What one record becomes
-/

/-- The numbers read behind `dsc` and `dcc`: blank fields vanish, and the text of
`reserved` is read as one more number. -/
def laterDays (u : User) : List Int32 :=
  [u.dmc, u.dw, u.de, u.dd].filter (fun v => v ≠ 0) ++
    atoi (reservedText u ++ [newline]) :: List.replicate 4 0

theorem intsFrom_dayText {u : User} (hfree : colon ∉ reservedText u) :
    intsFrom 6 (dayText u ++ [newline]) =
      u.dsc :: u.dcc :: (laterDays u).take 4 := by
  have hnewline : colon ≠ newline := by decide
  have hcolon : colon ∉ reservedText u ++ [newline] := by
    simp [hfree, hnewline]
  have hblank := intsFrom_blankIfZero 4 [u.dmc, u.dw, u.de, u.dd] (by simp) hcolon
  have htext : dayText u ++ [newline] =
      intText u.dsc.toInt ++ colon :: (intText u.dcc.toInt ++ colon ::
        ([u.dmc, u.dw, u.de, u.dd].flatMap blankIfZero ++
          (reservedText u ++ [newline]))) := by
    simp [dayText, User.day]
  rw [htext, intsFrom, nextInt_intText, intsFrom, nextInt_intText, hblank, laterDays]

theorem setDays_dayText {u : User} (hfree : colon ∉ reservedText u) (r : User) :
    setDays (intsFrom 6 (dayText u ++ [newline])) (strcpyHash u.hash r) =
      { r with hash := u.hash, dsc := u.dsc, dcc := u.dcc,
               dmc := (laterDays u).getD 0 0, dw := (laterDays u).getD 1 0,
               de := (laterDays u).getD 2 0, dd := (laterDays u).getD 3 0 } := by
  rw [intsFrom_dayText hfree]
  simp [setDays, User.setDay, laterDays]

/-- The reloaded record: only the last four day fields can differ. -/
theorem reload_user (env : Env User) (block : User) {u : User}
    (hfree : colon ∉ reservedText u) :
    reload env block u =
      { u with dmc := (laterDays u).getD 0 0, dw := (laterDays u).getD 1 0,
               de := (laterDays u).getD 2 0, dd := (laterDays u).getD 3 0,
               reserved := none } := by
  have hset := setDays_dayText hfree (initUser env u.username block)
  rw [reload, User.rep_hash, User.rep_username, hset]
  simp [initUser, User.setDay]

theorem reload_user_eq_self_iff (env : Env User) (block : User) {u : User}
    (hres : u.reserved = none) : reload env block u = u <-> ZerosLast u := by
  have htext : reservedText u = [] := reservedText_of_none hres
  have hzero : atoi [newline] = 0 := by decide
  rw [reload_user env block (by rw [htext]; simp), laterDays, htext, List.nil_append, hzero]
  cases u with
  | mk name hash dsc dcc dmc dw de dd reserved =>
      simp only at hres
      subst hres
      by_cases h1 : dmc = 0 <;> by_cases h2 : dw = 0 <;> by_cases h3 : de = 0 <;>
        by_cases h4 : dd = 0 <;>
        simp [ZerosLast, h1, h2, h3, h4, eq_comm]

theorem reloadFrom_eq_self_iff (load : LoadEnv User) (block : Nat -> User)
    (k : Nat) {sf : List User} (hres : forall u, u ∈ sf -> u.reserved = none) :
    reloadFrom load block k sf = sf <-> forall u, u ∈ sf -> ZerosLast u := by
  induction sf generalizing k with
  | nil => simp [reloadFrom]
  | cons u sf ih =>
      have hu := reload_user_eq_self_iff (load.line k) (block k) (hres u (by simp))
      have hrest := ih (k + 1) (fun v hv => hres v (by simp [hv]))
      rw [reloadFrom, List.cons.injEq, hu, hrest, List.forall_mem_cons]

/-!
## The round trip
-/

/-- A list of storable records with distinct names is read back as it was if and
only if no record has a non-zero day field behind a blank one. -/
theorem initParse_sfDeparse_eq_self_iff (load : LoadEnv User)
    (hhead : load.head = [])
    (halloc : forall k, (load.line k).block ≠ none)
    (sf : List User) (hsf : forall u, u ∈ sf -> Storable u)
    (hnames : (sf.map User.username).Nodup) :
    initParse load (sfDeparse sf) = .ok sf <->
      forall u, u ∈ sf -> ZerosLast u := by
  have hsome : forall k, exists b, (load.line k).block = some b :=
    fun k => Option.ne_none_iff_exists'.mp (halloc k)
  choose block hblock using hsome
  have hload := initParse_sfDeparse load block hhead hblock sf
    (fun u hu => (hsf u hu).printable) hnames
  rw [hload, Except.ok.injEq]
  exact reloadFrom_eq_self_iff load block 0 (fun u hu => (hsf u hu).reserved)

theorem binUser_storable : Storable binUser :=
  { name := by decide
    nameFits := by decide
    hash := by decide
    hashFits := by decide
    reserved := rfl }

theorem initParse_sfDeparse_binUser :
    initParse plainLoad (sfDeparse [binUser]) = .ok [binUser] := by
  refine (initParse_sfDeparse_eq_self_iff plainLoad rfl ?_ [binUser] ?_ ?_).mpr ?_
  · intro k
    simp [plainLoad, plainEnv]
  · intro u hu
    rw [List.mem_singleton.mp hu]
    exact binUser_storable
  · simp
  · intro u hu
    rw [List.mem_singleton.mp hu]
    decide

/-- With `dmc` zero the warning period is read as the maximum age. -/
theorem initParse_sfDeparse_shifts :
    Storable { binUser with dmc := 0 } ∧
      initParse plainLoad (sfDeparse [{ binUser with dmc := 0 }]) =
        .ok [{ binUser with dmc := 7, dw := 0 }] ∧
      initParse plainLoad (sfDeparse [{ binUser with dmc := 0 }]) ≠
        .ok [{ binUser with dmc := 0 }] := by
  have hread : initParse plainLoad (sfDeparse [{ binUser with dmc := 0 }]) =
      .ok [{ binUser with dmc := 7, dw := 0 }] := by
    rfl
  refine ⟨?_, hread, ?_⟩
  · exact { binUser_storable with }
  · rw [hread]
    intro h
    injection h with hlist
    exact absurd hlist (by decide)

end ShadowFs

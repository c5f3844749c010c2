import ShadowFs.System.Backing
import ShadowFs.System.Injection

/-!
# Accounts over many sessions

The program is started, serves requests and is unmounted, over and over, and the backing
file is all that is left in between.  What it is for is a table of accounts: names with
their hashes, in the order of the file.  Sessions of requests that store nothing harmful
are invisible in that table: any number of them leaves the accounts that the requests of
all of them make of the first ones.
-/

namespace ShadowFs

open CLib UserImage

/-!
## The table of accounts
-/

abbrev Account := CString × CString

def accountTable (sf : List UserImage) : List Account :=
  sf.map (fun u => (u.username, u.hash))

def editAccount (name : CString) (edit : Account -> Account) (table : List Account) :
    List Account :=
  table.map (fun a => if a.1 = name then edit a else a)

/-- The hash of the account that an attribute path leads to.  The name of an account is
not such a path, and neither is that of the root directory. -/
def setHash (name : CString) (h : CString) (table : List Account) : List Account :=
  if (forall a, a ∈ table -> a.1 ≠ name) ∧ name.bytes ≠ [] then
    editAccount (headName name) (fun a => (a.1, h)) table
  else table

/-- What a request means for the accounts. -/
def accountStep (call : Env UserImage × Request) (table : List Account) : List Account :=
  match call.2 with
  | .mkdir path =>
      if call.1.block ≠ none ∧ path.name.length ≤ 16 ∧ forall a, a ∈ table -> a.1 ≠ path.name
      then table ++ [(path.name, CString.lit "*")]
      else table
  | .rmdir path => table.filter (fun a => a.1 ≠ path.name)
  | .rename source target => editAccount source.name (fun a => (target.name, a.2)) table
  | .write path buf _ _ =>
      if attrOf (attrText path.name) = some .passwordHash then
        setHash path.name (hashword buf.str) table
      else table
  | .unlink path =>
      if attrOf (attrText path.name) = some .passwordHash then
        setHash path.name (CString.lit "!") table
      else table
  | _ => table

theorem accounts_split (front back : List UserImage) {u : UserImage} {name h : CString}
    (hname : u.username = name) (hhash : u.hash = h) :
    accountTable (front ++ u :: back) = accountTable front ++ (name, h) :: accountTable back := by
  simp only [accountTable, List.map_append, List.map_cons, hname, hhash]

theorem findUser_eq_none_iff_accounts {sf : List UserImage} {name : CString} :
    findUser sf name = none <-> forall a, a ∈ accountTable sf -> a.1 ≠ name := by
  rw [findUser_eq_none_iff, accountTable, List.forall_mem_map]
  rfl

theorem editAccount_accounts {sf front back : List UserImage} {name : CString}
    {u : UserImage} (hm : FirstMatch sf name front u back) (hdistinct : Distinct sf)
    (edit : Account -> Account) :
    editAccount name edit (accountTable sf) =
      accountTable front ++ edit (u.username, u.hash) :: accountTable back := by
  have hback : forall v, v ∈ back -> v.username ≠ name := by
    intro v hv
    exact hdistinct.uniqueNames.only name front u back hm v (List.mem_append_right _ hv)
  have hsame : forall l : List UserImage, (forall v, v ∈ l -> v.username ≠ name) ->
      editAccount name edit (accountTable l) = accountTable l := by
    intro l hl
    rw [editAccount, accountTable, List.map_map]
    apply List.map_congr_left
    intro v hv
    exact if_neg (hl v hv)
  have hfound : u.username = name := hm.found
  have hsplit : editAccount name edit (accountTable sf) =
      editAccount name edit (accountTable front) ++ edit (u.username, u.hash) ::
        editAccount name edit (accountTable back) := by
    rw [hm.split]
    simp only [editAccount, accountTable, List.map_append, List.map_cons, hfound, if_true]
  rw [hsplit, hsame front hm.first, hsame back hback]

theorem editAccount_of_none {sf : List UserImage} {name : CString}
    (h : findUser sf name = none) (edit : Account -> Account) :
    editAccount name edit (accountTable sf) = accountTable sf := by
  rw [findUser_eq_none_iff_accounts] at h
  rw [editAccount]
  conv_rhs => rw [← List.map_id (accountTable sf)]
  apply List.map_congr_left
  intro a ha
  exact if_neg (h a ha)

theorem filter_accounts {sf front back : List UserImage} {name : CString} {u : UserImage}
    (hm : FirstMatch sf name front u back) (hdistinct : Distinct sf) :
    (accountTable sf).filter (fun a => a.1 ≠ name) = accountTable (front ++ back) := by
  have hothers : forall a, a ∈ accountTable (front ++ back) -> decide (a.1 ≠ name) = true := by
    intro a ha
    rcases List.mem_map.mp ha with ⟨v, hv, rfl⟩
    exact decide_eq_true (hdistinct.uniqueNames.only name front u back hm v hv)
  have hsplit : (accountTable sf).filter (fun a => a.1 ≠ name) =
      (accountTable (front ++ back)).filter (fun a => a.1 ≠ name) := by
    have hfound : u.username = name := hm.found
    rw [hm.split]
    simp [accountTable, hfound]
  rw [hsplit, List.filter_eq_self.mpr hothers]

/-!
## One request
-/

theorem accounts_edit {sf front back : List UserImage} {name h : CString} {u v : UserImage}
    (hm : FirstMatch sf (headName name) front u back) (hdistinct : Distinct sf)
    (hreach : Reaches sf name) (hname : v.username = u.username) (hhash : v.hash = h) :
    accountTable (front ++ v :: back) = setHash name h (accountTable sf) := by
  have hfree := findUser_eq_none_iff_accounts.mp hreach.1
  rw [setHash, if_pos ⟨hfree, hreach.2.1⟩, editAccount_accounts hm hdistinct]
  exact accounts_split front back hname hhash

theorem setHash_of_not_reaches {sf : List UserImage} {name : CString}
    (hreach : ¬ Reaches sf name) (h : CString) :
    setHash name h (accountTable sf) = accountTable sf := by
  rw [setHash]
  split
  · rename_i hfree
    apply editAccount_of_none
    by_contra hfound
    exact hreach ⟨findUser_eq_none_iff_accounts.mpr hfree.1, hfree.2, hfound⟩
  · rfl

theorem accounts_same {sf front back : List UserImage} {name : CString} {u v : UserImage}
    (hm : FirstMatch sf name front u back) (hname : v.username = u.username)
    (hhash : v.hash = u.hash) : accountTable (front ++ v :: back) = accountTable sf := by
  rw [hm.split, accounts_split front back hname hhash, accounts_split front back rfl rfl]

theorem hash_writeEdit_of_ne {env : Env UserImage} {attr : Option Attr} {buf : CBuffer}
    {u : UserImage} (hu : Printable u) (h : WriteHarmless env attr buf u)
    (hattr : attr ≠ some .passwordHash) : (writeEdit env attr buf u).hash = u.hash := by
  cases attr with
  | none => rfl
  | some attr =>
      cases attr with
      | passwordHash => exact absurd rfl hattr
      | daysSinceChanged => exact hash_setDay_of_spares hu.hashFits (fun _ => h.2)
      | reserved => rfl
      | _ => exact hash_setDay_of_spares hu.hashFits (fun hd => by cases hd)

theorem hash_unlinkEdit_of_ne {env : Env UserImage} {attr : Option Attr} {u : UserImage}
    (hu : Printable u) (h : UnlinkHarmless env attr u)
    (hattr : attr ≠ some .passwordHash) : (unlinkEdit env attr u).hash = u.hash := by
  cases attr with
  | none => rfl
  | some attr =>
      cases attr with
      | passwordHash => exact absurd rfl hattr
      | daysSinceChanged => exact hash_setDay_of_spares hu.hashFits (fun _ => h.2)
      | reserved => rfl
      | _ => exact hash_setDay_of_spares hu.hashFits (fun hd => by cases hd)

theorem accounts_mkdir {sf : List UserImage} (env : Env UserImage) (path : Path)
    (hplain : Accepts env sf path.name -> PlainName path.name) :
    accountTable (shMkdir env sf path).2 = accountStep (env, .mkdir path) (accountTable sf) := by
  rw [accountStep]
  dsimp only
  split
  · rename_i hnew
    have hnone := findUser_eq_none_iff_accounts.mpr hnew.2.2
    rcases Option.ne_none_iff_exists'.mp hnew.1 with ⟨u, hblock⟩
    have hadd := sfTreeAddUser_of_new hnone hblock hnew.2.1
    have hmkdir : shMkdir env sf path = (0, sf ++ [initUser env path.name u]) := by
      rw [shMkdir, show path.strAt 1 = path.name from rfl, hadd]
      rfl
    have hname : (initUser env path.name u).username = path.name :=
      username_initUser env u (hplain ⟨hnone, hnew.1, hnew.2.1⟩).fits
    have hhash : (initUser env path.name u).hash = CString.lit "*" := hash_initUser env u
    rw [hmkdir]
    exact accounts_split sf [] hname hhash
  · rename_i hold
    rcases shMkdir_cases env sf path with hfail | ⟨u, hblock, hnone, hlen, _⟩
    · rw [hfail]
    · refine absurd ⟨?_, hlen, findUser_eq_none_iff_accounts.mp hnone⟩ hold
      rw [hblock]
      exact Option.some_ne_none u

/-- The step: a harmless request does to the accounts what it means for them. -/
theorem accounts_step {call : Env UserImage × Request} {p p' : Process UserImage}
    (h : Readable p.root) (hcall : Harmless call p) (hstep : serveStep call p = .ok p') :
    accountTable p'.root = accountStep call (accountTable p.root) := by
  rcases call with ⟨env, req⟩
  cases req with
  | mkdir path =>
      cases hstep
      exact accounts_mkdir env path hcall
  | rmdir path =>
      rcases serveStep_rmdir_ok hstep with ⟨res, hres, rfl⟩
      rcases findUser_cases p.root path.name with hnone | ⟨front, u, back, hm⟩
      · rw [shRmdir_of_none hnone] at hres
        cases hres
        exact (List.filter_eq_self.mpr (fun a ha =>
          decide_eq_true (findUser_eq_none_iff_accounts.mp hnone a ha))).symm
      · rw [hm.shRmdir_eq] at hres
        cases hres
        exact (filter_accounts hm h.distinct).symm
  | rename source target =>
      cases hstep
      rcases findUser_cases p.root source.name with hnone | ⟨front, u, back, hm⟩
      · rw [shRename_of_none hnone]
        exact (editAccount_of_none hnone _).symm
      · rcases hcall u hm.findRecord_eq with ⟨hplain, _, _⟩
        have hedit := editAccount_accounts hm h.distinct (fun a => (target.name, a.2))
        rw [hm.shRename_eq]
        refine Eq.trans ?_ hedit.symm
        exact accounts_split front back (username_strcpyUsername u hplain.fits)
          (hash_strcpyUsername u hplain.fits)
  | write path buf size offset =>
      cases hstep
      rw [accountStep]
      by_cases hreach : Reaches p.root path.name
      · rcases hreach.exists_firstMatch with ⟨front, u, back, hm⟩
        have hu := h.printable u hm.mem
        have hharmless := hcall u hreach hm.findRecord_eq
        have hname : (writeEdit env (attrOf (attrText path.name)) buf u).username =
            u.username := username_writeEdit env _ buf hu.nameFits
        rw [shWrite_of_reaches hreach, hm.writeAttr_eq hu.nameFits]
        dsimp only
        split
        · rename_i hattr
          rw [hattr] at hname hharmless ⊢
          have hhash := ((showsHash_writeEdit_iff env buf u).mpr hharmless.2).field
          exact accounts_edit hm h.distinct hreach hname hhash
        · rename_i hattr
          exact accounts_same hm hname (hash_writeEdit_of_ne hu hharmless hattr)
      · rw [shWrite_of_not_reaches hreach]
        dsimp only
        split
        · exact (setHash_of_not_reaches hreach _).symm
        · rfl
  | unlink path =>
      cases hstep
      rw [accountStep]
      by_cases hreach : Reaches p.root path.name
      · rcases hreach.exists_firstMatch with ⟨front, u, back, hm⟩
        have hu := h.printable u hm.mem
        have hharmless := hcall u hreach hm.findRecord_eq
        have hname : (unlinkEdit env (attrOf (attrText path.name)) u).username =
            u.username := username_unlinkEdit env _ hu.nameFits
        rw [shUnlink_of_reaches hreach, hm.unlinkAttr_eq]
        dsimp only
        split
        · rename_i hattr
          rw [hattr] at hname ⊢
          exact accounts_edit hm h.distinct hreach hname (hash_strcpyHash u (by decide))
        · rename_i hattr
          exact accounts_same hm hname (hash_unlinkEdit_of_ne hu hharmless hattr)
      · rw [shUnlink_of_not_reaches hreach]
        dsimp only
        split
        · exact (setHash_of_not_reaches hreach _).symm
        · rfl
  | mknod path =>
      rcases serveStep_mknod_ok hstep with ⟨res, hres, rfl⟩
      by_cases hreach : Reaches p.root path.name
      · rcases hreach.exists_firstMatch with ⟨front, u, back, hm⟩
        rw [(shMknod_ok_of_reaches hreach hm hres).2]
        exact accounts_same hm rfl rfl
      · rcases shMknod_of_not_reaches hreach env with ⟨code, _, hmknod⟩
        rw [hmknod] at hres
        cases hres
        rfl
  | read path stack buf size offset =>
      cases hstep
      rw [shRead_root]
      rfl
  | _ =>
      cases hstep
      rfl

/-!
## Reading the file back
-/

theorem Printable.reload {u : UserImage} (hu : Printable u) (env : Env UserImage)
    (block : UserImage) : Printable (ShadowFs.reload env block u) := by
  have hname : (ShadowFs.reload env block u).username = u.username :=
    username_reload env block hu.nameFits
  have hhash := hash_reload env block hu.hashFits
  have hreserved : reservedText (ShadowFs.reload env block u) = [] := rfl
  refine printable_of_fields hname hu.plainName hhash hu.hash hu.hashFits ?_ ?_
  · rw [hreserved]
    exact List.not_mem_nil
  · have hline := lineBody_length_le (ShadowFs.reload env block u)
    have hfits : (UserRep.username (ShadowFs.reload env block u)).length ≤ 15 := by
      rw [show UserRep.username (ShadowFs.reload env block u) = u.username from hname]
      exact hu.nameFits
    have hshort : (UserRep.hash (ShadowFs.reload env block u)).length ≤ 32 := by
      rw [show UserRep.hash (ShadowFs.reload env block u) = u.hash from hhash]
      exact hu.hashFits
    rw [hreserved, List.length_nil] at hline
    rw [LineFits]
    lia

theorem forall_mem_reloadFrom {P : UserImage -> Prop} (load : LoadEnv UserImage)
    (block : Nat -> UserImage) {sf : List UserImage}
    (h : forall env b u, u ∈ sf -> P (ShadowFs.reload env b u)) (k : Nat) :
    forall u, u ∈ reloadFrom load block k sf -> P u := by
  induction sf generalizing k with
  | nil => exact List.forall_mem_nil P
  | cons u sf ih =>
      rw [reloadFrom, List.forall_mem_cons]
      refine ⟨h _ _ u List.mem_cons_self, ih ?_ (k + 1)⟩
      intro env b v hv
      exact h env b v (List.mem_cons_of_mem u hv)

/-- What is read back is readable again, with the same accounts. -/
theorem Readable.initParse {sf : List UserImage} (h : Readable sf) {load : LoadEnv UserImage}
    (hhead : load.head = []) (hblocks : forall k, (load.line k).block ≠ none) :
    exists sf', ShadowFs.initParse load (sfDeparse sf) = .ok sf' ∧ Readable sf' ∧
      accountTable sf' = accountTable sf := by
  have hsome : forall k, exists b, (load.line k).block = some b :=
    fun k => Option.ne_none_iff_exists'.mp (hblocks k)
  choose block hblock using hsome
  have hname : forall env b u, u ∈ sf ->
      UserRep.username (ShadowFs.reload env b u) = UserRep.username u :=
    fun env b u hu => username_reload env b (h.printable u hu).nameFits
  refine ⟨_, initParse_sfDeparse load block hhead hblock sf h.printable h.distinct, ⟨?_, ?_⟩, ?_⟩
  · exact forall_mem_reloadFrom load block (fun env b u hu => (h.printable u hu).reload env b) 0
  · rw [Distinct, reloadFrom_map load block _ sf 0 hname]
    exact h.distinct
  · apply reloadFrom_map
    intro env b u hu
    exact Prod.ext (hname env b u hu) (hash_reload env b (h.printable u hu).hashFits)

/-!
## Sessions
-/

abbrev Disk := CString -> Option (List Byte)

/-- A start of the program and the requests until the unmount. -/
structure Session where
  load : LoadEnv UserImage
  inv : Invocation
  calls : List (Env UserImage × Request)

def Invocation.backing (inv : Invocation) : CString :=
  if IsAbsolute inv.arg then inv.arg else inv.cwd ++ CString.lit "/" ++ inv.arg

/-- The program is started on the given file, with a null pointer at `head` and memory for
the users in it. -/
structure Starts (name : CString) (s : Session) : Prop where
  head : s.load.head = []
  blocks : forall k, (s.load.line k).block ≠ none
  backing : s.inv.backing = name

section Sessions

variable {φ : Type}

/-- A session as a step on the files. -/
def sessionStep (naming : Naming φ) (s : Session) (disk : Disk) : Except Fault Disk :=
  (shfsMain naming s.load s.inv disk s.calls).map (fun p => p.disk)

/-- A session whose argument keeps its meaning and whose requests are harmless. -/
structure Orderly (naming : Naming φ) (name : CString) (s : Session) (disk : Disk) : Prop where
  starts : Starts name s
  stays : s.inv.foreground = true ∨ IsAbsolute s.inv.arg
  buffers : forall env path, (env, Request.mknod path) ∈ s.calls -> GetsBuffer env path.name
  harmless : forall p, mount naming s.load s.inv disk = .ok p ->
    Library.Guarded serveStep Harmless s.calls (fuseDaemonize s.inv.foreground p)

/-- Requests are served unless `sh_mknod` gets no buffer, or too small a one. -/
theorem exists_serveStep {call : Env UserImage × Request} (p : Process UserImage)
    (hbuffer : forall path, call.2 = .mknod path -> GetsBuffer call.1 path.name) :
    exists p', serveStep call p = .ok p' := by
  rcases call with ⟨env, req⟩
  cases req with
  | rmdir path =>
      rcases findUser_cases p.root path.name with hnone | ⟨front, u, back, hm⟩
      · refine ⟨p, ?_⟩
        simp only [serveStep, serve, shRmdir_of_none hnone]
      · refine ⟨{ p with root := front ++ back }, ?_⟩
        simp only [serveStep, serve, hm.shRmdir_eq]
  | mknod path =>
      by_cases hreach : Reaches p.root path.name
      · rcases hreach.exists_firstMatch with ⟨front, u, back, hm⟩
        refine ⟨{ p with
          root := front ++ UserRep.setReserved (some (attrText path.name)) u :: back }, ?_⟩
        simp only [serveStep, serve, shMknod_of_getsBuffer hreach hm (hbuffer path rfl)]
      · rcases shMknod_of_not_reaches hreach env with ⟨code, _, hmknod⟩
        refine ⟨p, ?_⟩
        simp only [serveStep, serve, hmknod]
  | _ => exact ⟨_, rfl⟩

/-- A run of harmless requests: the accounts follow the requests, and no file but the
backing file is written. -/
theorem accounts_run (calls : List (Env UserImage × Request)) (p : Process UserImage)
    (h : Readable p.root) (hcalls : Library.Guarded serveStep Harmless calls p)
    (hbuffers : forall env path, (env, Request.mknod path) ∈ calls ->
      GetsBuffer env path.name) :
    exists p', serveAll calls p = .ok p' ∧ Readable p'.root ∧
      accountTable p'.root = calls.foldl (fun table call => accountStep call table)
        (accountTable p.root) ∧
      p'.resolve p'.filename = p.resolve p.filename ∧
      forall other, other ≠ p.resolve p.filename -> p'.disk other = p.disk other := by
  induction calls generalizing p with
  | nil => exact ⟨p, rfl, h, rfl, rfl, fun _ _ => rfl⟩
  | cons call calls ih =>
      have hbuffer : forall path, call.2 = .mknod path -> GetsBuffer call.1 path.name := by
        intro path hpath
        refine hbuffers call.1 path ?_
        rw [← hpath]
        exact List.mem_cons_self
      rcases exists_serveStep p hbuffer with ⟨p1, hstep⟩
      have hresolve := (resolve_step hstep).1
      rcases ih p1 (h.step hcalls.1 hstep) (hcalls.2 p1 hstep)
        (fun env path hmem => hbuffers env path (List.mem_cons_of_mem call hmem)) with
        ⟨p', hrun, hreadable, haccounts, hname, hdisk⟩
      refine ⟨p', ?_, hreadable, ?_, hname.trans hresolve, ?_⟩
      · rw [serveAll, Library.run, hstep]
        exact hrun
      · rw [haccounts, accounts_step h hcalls.1 hstep, List.foldl_cons]
      · intro other hother
        rw [hdisk other (hresolve ▸ hother)]
        rcases serveStep_process hstep with ⟨_, hnext⟩ | ⟨_, hnext⟩
        · rw [hnext]
          exact disk_flush_of_ne hother
        · rw [hnext]

theorem mount_accounts (naming : Naming φ) {name : CString} {s : Session}
    (hs : Starts name s) {disk : Disk} {sf : List UserImage} (h : Readable sf)
    (hdisk : disk name = some (sfDeparse sf)) :
    exists p, mount naming s.load s.inv disk = .ok p ∧ Readable p.root ∧
      accountTable p.root = accountTable sf ∧ p.filename = s.inv.arg ∧ p.disk = disk ∧
      p.resolve p.filename = name := by
  rcases h.initParse hs.head hs.blocks with ⟨sf', hparse, hreadable, haccounts⟩
  let start : Process UserImage :=
    { root := [], filename := s.inv.arg, backingPath := CString.lit "", cwd := s.inv.cwd,
      disk := disk }
  have hname : start.resolve s.inv.arg = name := hs.backing
  refine ⟨{ start with root := sf', backingPath := naming.realpath (start.resolve s.inv.arg) },
    ?_, hreadable, haccounts, rfl, rfl, hname⟩
  have hcontent : disk (start.resolve s.inv.arg) = some (sfDeparse sf) := by
    rw [hname]
    exact hdisk
  simp only [start] at hcontent
  simp only [mount, start, hcontent, hparse]

theorem resolve_fuseDaemonize {inv : Invocation}
    (hstays : inv.foreground = true ∨ IsAbsolute inv.arg) {p : Process UserImage}
    (hfilename : p.filename = inv.arg) :
    (fuseDaemonize inv.foreground p).resolve (fuseDaemonize inv.foreground p).filename =
      p.resolve p.filename := by
  rw [fuseDaemonize_filename]
  rcases hstays with hforeground | habsolute
  · rw [hforeground]
    rfl
  · rw [← hfilename] at habsolute
    rw [resolve_of_absolute habsolute, resolve_of_absolute habsolute]

/-- One session: it succeeds, the file then holds what the requests made of the accounts,
and no other file is touched. -/
theorem session_accounts {naming : Naming φ} {name : CString} {s : Session} {disk : Disk}
    (hs : Orderly naming name s disk) {sf : List UserImage} (h : Readable sf)
    (hdisk : disk name = some (sfDeparse sf)) :
    exists disk' sf', sessionStep naming s disk = .ok disk' ∧
      disk' name = some (sfDeparse sf') ∧ Readable sf' ∧
      accountTable sf' = s.calls.foldl (fun table call => accountStep call table)
        (accountTable sf) ∧
      forall other, other ≠ name -> disk' other = disk other := by
  rcases mount_accounts naming hs.starts h hdisk with
    ⟨p, hmount, hreadable, haccounts, hfilename, hpdisk, hname⟩
  have hstart : (fuseDaemonize s.inv.foreground p).root = p.root ∧
      (fuseDaemonize s.inv.foreground p).disk = p.disk := by
    cases s.inv.foreground <;> exact ⟨rfl, rfl⟩
  have hresolve := (resolve_fuseDaemonize hs.stays hfilename).trans hname
  rcases accounts_run s.calls (fuseDaemonize s.inv.foreground p) (hstart.1 ▸ hreadable)
    (hs.harmless p hmount) hs.buffers with ⟨p', hrun, hlast, htable, hsame, hothers⟩
  rw [hresolve] at hsame hothers
  refine ⟨p'.flush.disk, p'.root, ?_, ?_, hlast, ?_, ?_⟩
  · rw [sessionStep, shfsMain, hmount]
    dsimp only
    rw [hrun]
    rfl
  · rw [← hsame]
    exact if_pos rfl
  · rw [htable, hstart.1, haccounts]
  · intro other hother
    rw [disk_flush_of_ne (hsame ▸ hother), hothers other hother, hstart.2, hpdisk]

end Sessions

/-- A background session on `/home/shadow.out`. -/
def homeSession (calls : List (Env UserImage × Request)) : Session where
  load := { head := [], line := fun _ => calmEnv }
  inv := homeInvocation (CString.lit "/home/shadow.out") false
  calls := calls

/-- One user is made in a session and replaced in the next. -/
def twoSessions : List Session :=
  [homeSession [(calmEnv, .mkdir (Path.of (CString.lit "bin") []))],
    homeSession [(calmEnv, .mkdir (Path.of (CString.lit "al") [])),
      (calmEnv, .rmdir (Path.of (CString.lit "bin") []))]]

def emptyHome (name : CString) : Option (List Byte) :=
  if name = CString.lit "/home/shadow.out" then some [] else none

theorem starts_homeSession (calls : List (Env UserImage × Request)) :
    Starts (CString.lit "/home/shadow.out") (homeSession calls) where
  head := rfl
  blocks _ := by simp [homeSession, calmEnv]
  backing := rfl

theorem orderly_homeSession {calls : List (Env UserImage × Request)} {disk : Disk}
    (hbuffers : forall env path, (env, Request.mknod path) ∈ calls ->
      GetsBuffer env path.name)
    (hcalls : forall p, Library.Guarded serveStep Harmless calls p) :
    Orderly plainNaming (CString.lit "/home/shadow.out") (homeSession calls) disk where
  starts := starts_homeSession calls
  stays := Or.inr rfl
  buffers := hbuffers
  harmless _ _ := hcalls _

end ShadowFs

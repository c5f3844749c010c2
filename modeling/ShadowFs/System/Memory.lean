import ShadowFs.System.Cells
import ShadowFs.System.Backing

/-!
# The mounted file system in memory

`sh_oper` on the linked structure.  A callback follows pointers: `find_user` walks the
links, the record it returns is dereferenced, `sh_mkdir` stores into a block of `malloc`
and `sh_rmdir` frees one.  `none` stands for a walk that is still going on, for a pointer to
no record and for a string that is longer than the block it is copied to.

A run of requests that stay in their blocks is served as on the list of users: no walk goes
astray, the replies are the same, and the blocks in use are those of the users, apart from
one for each `sh_mkdir` with a name of more than sixteen bytes.  `main` frees the others at
the end.
-/

namespace ShadowFs

open CLib UserRep Library

/-- The process with its user list in memory. -/
structure Mounted (ρ : Type) where
  root : SfRoot ρ
  filename : CString
  backingPath : CString
  cwd : CString
  disk : CString -> Option (List Byte)

/-- A request, its environment and the block that `malloc` returns in it: the address, and
the word at `next`. -/
structure MemCall (ρ : Type) where
  env : Env ρ
  addr : Nat
  link : Option Nat
  req : Request

namespace Mounted

variable {ρ : Type} [UserRep ρ]

/-- The process whose users are given as a list. -/
def process (m : Mounted ρ) (users : List ρ) : Process ρ :=
  { root := users
    filename := m.filename
    backingPath := m.backingPath
    cwd := m.cwd
    disk := m.disk }

/-!
## The callbacks
-/

/-- `sf_deparse(root, filename, 0)`. -/
def flush (rounds : Nat) (m : Mounted ρ) : Option (Mounted ρ) :=
  match m.root.sfDeparse rounds with
  | none => none
  | some text =>
      some { m with
        disk := fun name =>
          if name = (m.process []).resolve m.filename then some text else m.disk name }

def shGetattr (rounds : Nat) (m : Mounted ρ) (path : Path) : Option (Int × Stat) :=
  match m.root.findUser rounds (path.strAt 1),
    m.root.recordOf rounds (unameOf path.toCBuffer) with
  | some user, some user2 =>
      if path.str = CString.lit "/" then
        some (0, { mode := S_IFDIR ||| 0o755, nlink := 2, size := 0 })
      else if user ≠ none then
        some (0, { mode := S_IFDIR ||| 0o755, nlink := 1, size := 0 })
      else
        match user2 with
        | some user2 =>
            let size := isAttr (path.strAt (attrIndex path.toCBuffer)) user2
            if size > -1 then
              some (0, { mode := S_IFREG ||| 0o666, nlink := 1, size := size.toNat })
            else some (-ENOENT, Stat.zero)
        | none =>
            if path.strAt 1 = CString.lit "sh_file" then
              some ((m.process []).lstat m.backingPath)
            else some (-ENOENT, Stat.zero)
  | _, _ => none

def shReaddir (rounds : Nat) (m : Mounted ρ) (path : Path) : Option (Int × List CString) :=
  if path.str = CString.lit "/" then
    match m.root.shReaddir rounds with
    | none => none
    | some names => some (0, names)
  else
    match m.root.recordOf rounds (path.strAt 1) with
    | none => none
    | some none => some (-ENOENT, [])
    | some (some user) =>
        some (0, [CString.lit ".", CString.lit "..", CString.lit "password-hash",
            CString.lit "days_since_changed", CString.lit "days_until_can_change",
            CString.lit "days_until_must_change", CString.lit "days_before_warning",
            CString.lit "days_until_expiration",
            CString.lit "days_since_account_deactivated"] ++
          (if reserved user ≠ none then [CString.lit "reserved"] else []))

def shRead (rounds : Nat) (m : Mounted ρ) (stack : Nat -> Byte) (path : Path)
    (buf : List Byte) (size offset : Nat) : Option ((Int × List Byte) × Mounted ρ) :=
  match m.root.findUser rounds (path.strAt 1) with
  | none => none
  | some user =>
      if path.strAt 1 = CString.lit "sh_file" then
        match m.flush rounds with
        | none => none
        | some m =>
            match m.disk ((m.process []).resolve m.backingPath) with
            | none => some ((-1, buf), m)
            | some content =>
                let data := (content.drop offset).take size
                some ((toInt data.length, data ++ buf.drop data.length), m)
      else if user ≠ none ∨ path.str = CString.lit "/" then some ((-ENOENT, buf), m)
      else
        match m.root.recordOf rounds (unameOf path.toCBuffer) with
        | none => none
        | some none => some ((-ENOENT, buf), m)
        | some (some user) =>
            let attr := attrOf (path.strAt (attrIndex path.toCBuffer))
            some (readAttr user attr stack buf size offset, m)

/-- The calls of `update_*` in `sh_write`. -/
def writeAttr (rounds : Nat) (env : Env ρ) (sf : SfRoot ρ) (uname : CString)
    (attr : Option Attr) (buf : CBuffer) : Option (SfRoot ρ) :=
  let day (d : DayField) (v : Int32) :=
    (sf.updateField rounds uname (setDay d v)).map Prod.snd
  match attr with
  | some .passwordHash =>
      match sf.updateHash rounds uname (hashword buf.str) with
      | none => none
      | some (_, sf) =>
          (sf.updateField rounds uname (setDay .dsc (shadowTime env.time))).map Prod.snd
  | some .daysSinceChanged => day .dsc (atoi buf.str.bytes)
  | some .daysUntilCanChange => day .dcc (atoi buf.str.bytes)
  | some .daysUntilMustChange => day .dmc (atoi buf.str.bytes)
  | some .daysBeforeWarning => day .dw (atoi buf.str.bytes)
  | some .daysUntilExpiration => day .de (atoi buf.str.bytes)
  | some .daysSinceAccountDeactivated => day .dd (atoi buf.str.bytes)
  | some .reserved =>
      (sf.updateField rounds uname (setReserved (some buf.str))).map Prod.snd
  | none => some sf

/-- The calls of `update_*` in `sh_unlink`. -/
def unlinkAttr (rounds : Nat) (env : Env ρ) (sf : SfRoot ρ) (uname : CString)
    (attr : Option Attr) : Option (SfRoot ρ) :=
  let day (d : DayField) (v : Int32) :=
    (sf.updateField rounds uname (setDay d v)).map Prod.snd
  match attr with
  | some .passwordHash => (sf.updateHash rounds uname (CString.lit "!")).map Prod.snd
  | some .daysSinceChanged => day .dsc (shadowTime env.time)
  | some .daysUntilCanChange => day .dcc 0
  | some .daysUntilMustChange => day .dmc 99999
  | some .daysBeforeWarning => day .dw 7
  | some .daysUntilExpiration => day .de 0
  | some .daysSinceAccountDeactivated => day .dd 0
  | some .reserved => (sf.updateField rounds uname (setReserved none)).map Prod.snd
  | none => some sf

/-- The two lookups at the start of the attribute operations: the pointer to the user in
front of the path, if the path is not that of a user itself. -/
inductive Entry where
  | refused
  | noUser
  | user (current : Nat)

def entry (rounds : Nat) (sf : SfRoot ρ) (path : Path) : Option Entry :=
  match sf.findUser rounds (path.strAt 1) with
  | none => none
  | some user =>
      if user ≠ none ∨ path.str = CString.lit "/" then some .refused
      else
        match sf.findUser rounds (unameOf path.toCBuffer) with
        | none => none
        | some none => some .noUser
        | some (some current) => some (.user current)

def shWrite (rounds : Nat) (env : Env ρ) (sf : SfRoot ρ) (path : Path) (buf : CBuffer)
    (size : Nat) : Option (Int × SfRoot ρ) :=
  match entry rounds sf path with
  | none => none
  | some .refused => some (-ENOENT, sf)
  | some .noUser => some (-ENOENT, sf)
  | some (.user _) =>
      (writeAttr rounds env sf (unameOf path.toCBuffer)
        (attrOf (path.strAt (attrIndex path.toCBuffer))) buf).map (fun sf => (toInt size, sf))

def shUnlink (rounds : Nat) (env : Env ρ) (sf : SfRoot ρ) (path : Path) :
    Option (Int × SfRoot ρ) :=
  match entry rounds sf path with
  | none => none
  | some .refused => some (-ENOENT, sf)
  | some .noUser => some (-ENOENT, sf)
  | some (.user _) =>
      (unlinkAttr rounds env sf (unameOf path.toCBuffer)
        (attrOf (path.strAt (attrIndex path.toCBuffer)))).map (fun sf => (0, sf))

/-- The pointer is assigned through; without a buffer `strcpy` gets a null pointer. -/
def shMknod (rounds : Nat) (env : Env ρ) (sf : SfRoot ρ) (path : Path) :
    Option (Int × SfRoot ρ) :=
  match entry rounds sf path with
  | none => none
  | some .refused => some (-ENOENT, sf)
  | some .noUser => some (-EACCES, sf)
  | some (.user current) =>
      if env.buffer then
        let text := path.strAt (attrIndex path.toCBuffer)
        if text.length ≥ 50 then none
        else
          some (0, sf.assign current
            (fun cell => ⟨setReserved (some text) cell.value, cell.next⟩))
      else none

def shMkdir (rounds : Nat) (call : MemCall ρ) (sf : SfRoot ρ) (path : Path) :
    Option (Int × SfRoot ρ) :=
  match sf.addUser rounds call.env call.addr call.link (path.strAt 1) with
  | none => none
  | some (x, sf) => if x < 0 then some (-EEXIST, sf) else some (0, sf)

def shRmdir (rounds : Nat) (sf : SfRoot ρ) (path : Path) : Option (Int × SfRoot ρ) :=
  match sf.findUser rounds (path.strAt 1) with
  | none => none
  | some none => some (-ENOENT, sf)
  | some (some _) => sf.sfTreeDeleteUser rounds (path.strAt 1)

/-- Where the pointers `reserved` and `next` begin in `struct user`. -/
def pointersOffset : Nat := 72

/-- A target that does not end before the pointers of the record overwrites them. -/
def shRename (rounds : Nat) (sf : SfRoot ρ) (source target : Path) :
    Option (Int × SfRoot ρ) :=
  match sf.findUser rounds (source.strAt 1) with
  | none => none
  | some none => some (-EACCES, sf)
  | some (some user) =>
      if (target.strAt 1).length ≥ pointersOffset then none
      else
        some (0, sf.assign user
          (fun cell => ⟨strcpyUsername (target.strAt 1) cell.value, cell.next⟩))

/-- The reply of a callback that changed the structure. -/
def changed (m : Mounted ρ) (res : Int × SfRoot ρ) : Reply × Mounted ρ :=
  ({ result := res.1 }, { m with root := res.2 })

def serve (rounds : Nat) (m : Mounted ρ) (call : MemCall ρ) : Option (Reply × Mounted ρ) :=
  match call.req with
  | .getattr path =>
      (m.shGetattr rounds path).map (fun res => ({ result := res.1, stat := res.2 }, m))
  | .readdir path =>
      (m.shReaddir rounds path).map (fun res => ({ result := res.1, names := res.2 }, m))
  | .openFile path => some ({ result := shOpen path }, m)
  | .read path stack buf size offset =>
      (m.shRead rounds stack path buf size offset).map
        (fun res => ({ result := res.1.1, data := res.1.2 }, res.2))
  | .write path buf size _ => (shWrite rounds call.env m.root path buf size).map m.changed
  | .truncate path size => some ({ result := shTruncate path size }, m)
  | .mkdir path => (shMkdir rounds call m.root path).map m.changed
  | .rmdir path => (shRmdir rounds m.root path).map m.changed
  | .rename source target => (shRename rounds m.root source target).map m.changed
  | .mknod path => (shMknod rounds call.env m.root path).map m.changed
  | .unlink path => (shUnlink rounds call.env m.root path).map m.changed

/-!
## One request
-/

/-- The structure in memory holds the users of the process. -/
structure Follows (m : Mounted ρ) (p : Process ρ) (lost : List Nat) : Prop where
  stores : m.root.Stores p.root lost
  same : p = m.process p.root

section Follows

variable {m : Mounted ρ} {p : Process ρ} {lost : List Nat} {rounds : Nat}

theorem Follows.shGetattr_eq (h : m.Follows p lost) (hrounds : p.root.length < rounds)
    (path : Path) : m.shGetattr rounds path = some (ShadowFs.shGetattr p path) := by
  rcases h.stores.exists_found hrounds (path.strAt 1) with ⟨user, hfind, huser⟩
  have hrecord := h.stores.recordOf_eq hrounds (unameOf path.toCBuffer)
  have hlstat : (m.process []).lstat m.backingPath = p.lstat p.backingPath := by
    rw [h.same]
    rfl
  unfold shGetattr ShadowFs.shGetattr
  simp only [hfind, hrecord, hlstat, ne_eq, huser]
  split
  · rfl
  · split
    · rfl
    · cases findRecord p.root (unameOf path.toCBuffer) with
      | none =>
          dsimp only
          split <;> rfl
      | some user2 =>
          dsimp only
          split <;> rfl

theorem Follows.shReaddir_eq (h : m.Follows p lost) (hrounds : p.root.length < rounds)
    (path : Path) : m.shReaddir rounds path = some (ShadowFs.shReaddir p path) := by
  have hrecord := h.stores.recordOf_eq hrounds (path.strAt 1)
  have hnames : m.root.shReaddir rounds = some ([CString.lit ".", CString.lit "..",
      CString.lit "sh_file"] ++ p.root.map username) := by
    rw [SfRoot.shReaddir, h.stores.traverse_eq hrounds, ← List.map_eq_flatMap]
    rfl
  unfold shReaddir ShadowFs.shReaddir
  simp only [hnames, hrecord]
  split
  · rfl
  · cases findRecord p.root (path.strAt 1) <;> rfl

theorem Follows.flush (h : m.Follows p lost) (hrounds : p.root.length < rounds) :
    exists m', m.flush rounds = some m' ∧ m'.Follows p.flush lost := by
  have htext : m.root.sfDeparse rounds = some (sfDeparse p.root) :=
    h.stores.traverse_eq hrounds deparseUser
  unfold Mounted.flush
  rw [htext]
  refine ⟨_, rfl, h.stores, ?_⟩
  rw [h.same]
  rfl

theorem Follows.shRead (h : m.Follows p lost) (hrounds : p.root.length < rounds)
    (stack : Nat -> Byte) (path : Path) (buf : List Byte) (size offset : Nat) :
    exists m', m.shRead rounds stack path buf size offset =
        some ((ShadowFs.shRead p stack path buf size offset).1, m') ∧
      m'.Follows (ShadowFs.shRead p stack path buf size offset).2 lost := by
  rcases h.stores.exists_found hrounds (path.strAt 1) with ⟨user, hfind, huser⟩
  have hrecord := h.stores.recordOf_eq hrounds (unameOf path.toCBuffer)
  rcases h.flush hrounds with ⟨m', hflush, hnext⟩
  have hdisk : m'.disk ((m'.process []).resolve m'.backingPath) =
      p.flush.disk (p.flush.resolve p.flush.backingPath) := by
    rw [hnext.same]
    rfl
  unfold Mounted.shRead ShadowFs.shRead
  simp only [hfind, hrecord, hflush, hdisk, ne_eq, huser]
  split
  · cases p.flush.disk (p.flush.resolve p.flush.backingPath) with
    | none => exact ⟨m', rfl, hnext⟩
    | some content => exact ⟨m', rfl, hnext⟩
  · split
    · exact ⟨m, rfl, h⟩
    · cases findRecord p.root (unameOf path.toCBuffer) with
      | none => exact ⟨m, rfl, h⟩
      | some user => exact ⟨m, rfl, h⟩

end Follows

section Stores

variable {sf : SfRoot ρ} {users : List ρ} {lost : List Nat} {rounds : Nat}

theorem stores_update (h : sf.Stores users lost) (hrounds : users.length < rounds)
    (name : CString) (f : ρ -> ρ) :
    exists sf', (sf.updateField rounds name f).map Prod.snd = some sf' ∧
      sf'.Stores (updateField users name f).2 lost := by
  rcases h.updateField hrounds name f with ⟨sf', hupdate, hstores⟩
  refine ⟨sf', ?_, hstores⟩
  rw [hupdate]
  rfl

theorem stores_writeAttr (h : sf.Stores users lost) (hrounds : users.length < rounds)
    (env : Env ρ) (uname : CString) (attr : Option Attr) (buf : CBuffer) :
    exists sf', writeAttr rounds env sf uname attr buf = some sf' ∧
      sf'.Stores (ShadowFs.writeAttr env users uname attr buf) lost := by
  rcases attr with _ | attr
  · exact ⟨sf, rfl, h⟩
  · cases attr with
    | passwordHash =>
        have hlen := Nat.le_of_eq (hashword_length buf.str)
        rcases h.updateHash hrounds uname hlen with ⟨sf1, hhash, h1⟩
        have hrounds1 : (updateHash users uname (hashword buf.str)).2.length < rounds := by
          rw [updateHash_eq_updateField users uname hlen, SfRoot.length_updateField]
          exact hrounds
        rcases stores_update h1 hrounds1 uname (setDay .dsc (shadowTime env.time)) with
          ⟨sf2, hday, h2⟩
        refine ⟨sf2, ?_, h2⟩
        simp only [writeAttr, hhash, hday]
    | _ => exact stores_update h hrounds uname _

theorem stores_unlinkAttr (h : sf.Stores users lost) (hrounds : users.length < rounds)
    (env : Env ρ) (uname : CString) (attr : Option Attr) :
    exists sf', unlinkAttr rounds env sf uname attr = some sf' ∧
      sf'.Stores (ShadowFs.unlinkAttr env users uname attr) lost := by
  rcases attr with _ | attr
  · exact ⟨sf, rfl, h⟩
  · cases attr with
    | passwordHash =>
        have hlen : (CString.lit "!").length ≤ 32 := by decide
        rcases h.updateHash hrounds uname hlen with ⟨sf1, hhash, h1⟩
        refine ⟨sf1, ?_, h1⟩
        simp only [unlinkAttr, hhash, Option.map_some]
    | _ => exact stores_update h hrounds uname _

/-- The lookups end as they do on the list. -/
theorem entry_cases (h : sf.Stores users lost) (hrounds : users.length < rounds)
    (path : Path) :
    (entry rounds sf path = some .refused ∧
        (findUser users (path.strAt 1) ≠ none ∨ path.str = CString.lit "/")) ∨
      (¬ (findUser users (path.strAt 1) ≠ none ∨ path.str = CString.lit "/") ∧
        ((entry rounds sf path = some .noUser ∧
            findUser users (unameOf path.toCBuffer) = none) ∨
          exists current i, entry rounds sf path = some (.user current) ∧
            findUser users (unameOf path.toCBuffer) = some i ∧
            sf.findUser rounds (unameOf path.toCBuffer) = some (some current))) := by
  rcases h.exists_found hrounds (path.strAt 1) with ⟨user, hfind, huser⟩
  rcases h.exists_found hrounds (unameOf path.toCBuffer) with ⟨user2, hfind2, huser2⟩
  unfold entry
  simp only [hfind, hfind2, ne_eq, huser]
  by_cases hentry : ¬ findUser users (path.strAt 1) = none ∨ path.str = CString.lit "/"
  · exact Or.inl ⟨by rw [if_pos hentry], hentry⟩
  · refine Or.inr ⟨hentry, ?_⟩
    rw [if_neg hentry]
    cases user2 with
    | none => exact Or.inl ⟨rfl, huser2.mp rfl⟩
    | some current =>
        have hne : findUser users (unameOf path.toCBuffer) ≠ none :=
          fun hnone => Option.some_ne_none current (huser2.mpr hnone)
        rcases Option.ne_none_iff_exists'.mp hne with ⟨i, hi⟩
        exact Or.inr ⟨current, i, rfl, hi, rfl⟩

theorem stores_shWrite (h : sf.Stores users lost) (hrounds : users.length < rounds)
    (env : Env ρ) (path : Path) (buf : CBuffer) (size : Nat) :
    exists sf', shWrite rounds env sf path buf size =
        some ((ShadowFs.shWrite env users path buf size).1, sf') ∧
      sf'.Stores (ShadowFs.shWrite env users path buf size).2 lost := by
  rcases entry_cases h hrounds path with
    ⟨hentry, hrefused⟩ | ⟨hpassed, ⟨hentry, hnone⟩ | ⟨current, i, hentry, hsome, _⟩⟩
  · simp only [shWrite, ShadowFs.shWrite, hentry, if_pos hrefused]
    exact ⟨sf, rfl, h⟩
  · simp only [shWrite, ShadowFs.shWrite, hentry, if_neg hpassed, hnone]
    exact ⟨sf, rfl, h⟩
  · rcases stores_writeAttr h hrounds env (unameOf path.toCBuffer)
      (attrOf (path.strAt (attrIndex path.toCBuffer))) buf with ⟨sf', hwrite, hstores⟩
    simp only [shWrite, ShadowFs.shWrite, hentry, if_neg hpassed, hsome, hwrite]
    exact ⟨sf', rfl, hstores⟩

theorem stores_shUnlink (h : sf.Stores users lost) (hrounds : users.length < rounds)
    (env : Env ρ) (path : Path) :
    exists sf', shUnlink rounds env sf path =
        some ((ShadowFs.shUnlink env users path).1, sf') ∧
      sf'.Stores (ShadowFs.shUnlink env users path).2 lost := by
  rcases entry_cases h hrounds path with
    ⟨hentry, hrefused⟩ | ⟨hpassed, ⟨hentry, hnone⟩ | ⟨current, i, hentry, hsome, _⟩⟩
  · simp only [shUnlink, ShadowFs.shUnlink, hentry, if_pos hrefused]
    exact ⟨sf, rfl, h⟩
  · simp only [shUnlink, ShadowFs.shUnlink, hentry, if_neg hpassed, hnone]
    exact ⟨sf, rfl, h⟩
  · rcases stores_unlinkAttr h hrounds env (unameOf path.toCBuffer)
      (attrOf (path.strAt (attrIndex path.toCBuffer))) with ⟨sf', hunlink, hstores⟩
    simp only [shUnlink, ShadowFs.shUnlink, hentry, if_neg hpassed, hsome, hunlink]
    exact ⟨sf', rfl, hstores⟩

theorem stores_shMknod (h : sf.Stores users lost) (hrounds : users.length < rounds)
    {env : Env ρ} (path : Path) (hbuffer : GetsBuffer env path.name) :
    exists sf' res, shMknod rounds env sf path = some (res.1, sf') ∧
      ShadowFs.shMknod env users path = .ok res ∧ sf'.Stores res.2 lost := by
  rcases entry_cases h hrounds path with
    ⟨hentry, hrefused⟩ | ⟨hpassed, ⟨hentry, hnone⟩ | ⟨current, i, hentry, hsome, hfind⟩⟩
  · simp only [shMknod, ShadowFs.shMknod, hentry, if_pos hrefused]
    exact ⟨sf, _, rfl, rfl, h⟩
  · simp only [shMknod, ShadowFs.shMknod, hentry, if_neg hpassed, hnone]
    exact ⟨sf, _, rfl, rfl, h⟩
  · have hstores := h.assign hrounds hfind
      (setReserved (some (path.strAt (attrIndex path.toCBuffer))))
    simp only [updateField, hsome] at hstores
    have hfits : ¬ (path.strAt (attrIndex path.toCBuffer)).length ≥ 50 := by
      have hhead : findUser users (headName path.name) ≠ none := by
        rw [← path.unameOf_eq, hsome]
        exact Option.some_ne_none i
      have hnone : findUser users path.name = none := by
        by_contra hfound
        exact hpassed (Or.inl hfound)
      rw [strAt_attrIndex_of_reach hnone hhead]
      exact Nat.not_le_of_lt hbuffer.2
    simp only [shMknod, ShadowFs.shMknod, hentry, if_neg hpassed, hsome, hbuffer.1, if_true,
      if_neg hfits]
    exact ⟨_, _, rfl, rfl, hstores⟩

theorem stores_shMkdir (h : sf.Stores users lost) (hrounds : users.length < rounds)
    (call : MemCall ρ) (hfresh : sf.heap call.addr = none) (path : Path) :
    exists sf', shMkdir rounds call sf path =
        some ((ShadowFs.shMkdir call.env users path).1, sf') ∧
      sf'.Stores (ShadowFs.shMkdir call.env users path).2
        (lost ++ SfRoot.lostBlock call.env users path.name call.addr) := by
  rcases h.addUser hrounds call.env hfresh call.link (path.strAt 1) with
    ⟨sf', hadd, hstores⟩
  refine ⟨sf', ?_, ?_⟩
  · simp only [shMkdir, ShadowFs.shMkdir, hadd]
    split <;> rfl
  · simp only [ShadowFs.shMkdir]
    split <;> exact hstores

theorem stores_shRmdir (h : sf.Stores users lost) (hrounds : users.length < rounds)
    (path : Path) :
    exists sf' res, shRmdir rounds sf path = some (res.1, sf') ∧
      ShadowFs.shRmdir users path = .ok res ∧ sf'.Stores res.2 lost := by
  rcases h.exists_found hrounds (path.strAt 1) with ⟨found, hfind, hfound⟩
  rcases findUser_cases users (path.strAt 1) with hnone | ⟨front, u, back, hm⟩
  · refine ⟨sf, (-ENOENT, users), ?_, shRmdir_of_none hnone, h⟩
    simp only [shRmdir, hfind, hfound.mpr hnone]
  · rcases h.sfTreeDeleteUser hrounds hm with ⟨sf', hdelete, hstores⟩
    refine ⟨sf', (0, front ++ back), ?_, hm.shRmdir_eq, hstores⟩
    cases found with
    | none => exact absurd (hfound.mp rfl) hm.ne_none
    | some current => simp only [shRmdir, hfind, hdelete]

theorem stores_shRename (h : sf.Stores users lost) (hrounds : users.length < rounds)
    (source target : Path) (htarget : target.name.length < pointersOffset) :
    exists sf', shRename rounds sf source target =
        some ((ShadowFs.shRename users source target).1, sf') ∧
      sf'.Stores (ShadowFs.shRename users source target).2 lost := by
  rcases h.exists_found hrounds (source.strAt 1) with ⟨found, hfind, hfound⟩
  cases found with
  | none =>
      simp only [shRename, ShadowFs.shRename, hfind, hfound.mp rfl]
      exact ⟨sf, rfl, h⟩
  | some current =>
      have hne : findUser users (source.strAt 1) ≠ none :=
        fun hnone => Option.some_ne_none current (hfound.mpr hnone)
      rcases Option.ne_none_iff_exists'.mp hne with ⟨i, hi⟩
      have hstores := h.assign hrounds hfind (strcpyUsername (target.strAt 1))
      simp only [updateField, hi] at hstores
      have hfits : ¬ (target.strAt 1).length ≥ pointersOffset := Nat.not_le_of_lt htarget
      simp only [shRename, ShadowFs.shRename, hfind, hi, if_neg hfits]
      exact ⟨_, rfl, hstores⟩

end Stores

/-- The request stays in its blocks: `malloc` gives a block for a user outside of those in
use, a file name fits the buffer of `sh_mknod`, a new name ends before the pointers of the
record, and no text is left in the buffer of the request, which `libfuse` uses again and
frees before the last `sf_deparse`. -/
def Contained (call : MemCall ρ) (m : Mounted ρ) : Prop :=
  match call.req with
  | .mkdir _ => m.root.heap call.addr = none
  | .mknod path => GetsBuffer call.env path.name
  | .rename _ target => target.name.length < pointersOffset
  | .write .. => ¬ call.req.WritesReserved
  | _ => True

/-- The block that a request loses. -/
def lostBy (call : MemCall ρ) (p : Process ρ) : List Nat :=
  match call.req with
  | .mkdir path => SfRoot.lostBlock call.env p.root path.name call.addr
  | _ => []

omit [UserRep ρ] in
theorem Follows.changed {m : Mounted ρ} {p : Process ρ} {lost : List Nat}
    (h : m.Follows p lost) {sf : SfRoot ρ} {users : List ρ} {lost' : List Nat}
    (hstores : sf.Stores users lost') :
    Follows { m with root := sf } { p with root := users } lost' := by
  refine ⟨hstores, ?_⟩
  rw [h.same]
  rfl

theorem Follows.serve {m : Mounted ρ} {p : Process ρ} {lost : List Nat} {rounds : Nat}
    (h : m.Follows p lost) (hrounds : p.root.length < rounds) {call : MemCall ρ}
    (hcontained : Contained call m) :
    exists reply m' p', m.serve rounds call = some (reply, m') ∧
      ShadowFs.serve call.env p call.req = .ok (reply, p') ∧
      m'.Follows p' (lost ++ lostBy call p) := by
  rcases call with ⟨env, addr, link, req⟩
  cases req with
  | getattr path =>
      refine ⟨_, m, p, ?_, rfl, by simpa [lostBy] using h⟩
      simp [Mounted.serve, h.shGetattr_eq hrounds]
  | readdir path =>
      refine ⟨_, m, p, ?_, rfl, by simpa [lostBy] using h⟩
      simp [Mounted.serve, h.shReaddir_eq hrounds]
  | openFile path => exact ⟨_, m, p, rfl, rfl, by simpa [lostBy] using h⟩
  | truncate path size => exact ⟨_, m, p, rfl, rfl, by simpa [lostBy] using h⟩
  | read path stack buf size offset =>
      rcases h.shRead hrounds stack path buf size offset with ⟨m', hread, hnext⟩
      refine ⟨_, m', _, ?_, rfl, by simpa [lostBy] using hnext⟩
      simp [Mounted.serve, hread]
  | write path buf size offset =>
      rcases stores_shWrite h.stores hrounds env path buf size with ⟨sf', hwrite, hstores⟩
      refine ⟨_, _, _, ?_, rfl, by simpa [lostBy] using h.changed hstores⟩
      simp [Mounted.serve, hwrite, Mounted.changed]
  | mkdir path =>
      have hfresh : m.root.heap addr = none := hcontained
      rcases stores_shMkdir h.stores hrounds ⟨env, addr, link, .mkdir path⟩ hfresh path with
        ⟨sf', hmkdir, hstores⟩
      refine ⟨_, _, _, ?_, rfl, h.changed hstores⟩
      simp [Mounted.serve, hmkdir, Mounted.changed]
  | rmdir path =>
      rcases stores_shRmdir h.stores hrounds path with ⟨sf', res, hrmdir, hlist, hstores⟩
      refine ⟨{ result := res.1 }, _, _, ?_, ?_, by simpa [lostBy] using h.changed hstores⟩
      · simp [Mounted.serve, hrmdir, Mounted.changed]
      · simp [ShadowFs.serve, hlist]
  | rename source target =>
      rcases stores_shRename h.stores hrounds source target hcontained with
        ⟨sf', hrename, hstores⟩
      refine ⟨_, _, _, ?_, rfl, by simpa [lostBy] using h.changed hstores⟩
      simp [Mounted.serve, hrename, Mounted.changed]
  | mknod path =>
      rcases stores_shMknod h.stores hrounds path hcontained with
        ⟨sf', res, hmknod, hlist, hstores⟩
      refine ⟨{ result := res.1 }, _, _, ?_, ?_, by simpa [lostBy] using h.changed hstores⟩
      · simp [Mounted.serve, hmknod, Mounted.changed]
      · simp [ShadowFs.serve, hlist]
  | unlink path =>
      rcases stores_shUnlink h.stores hrounds env path with ⟨sf', hunlink, hstores⟩
      refine ⟨_, _, _, ?_, rfl, by simpa [lostBy] using h.changed hstores⟩
      simp [Mounted.serve, hunlink, Mounted.changed]

/-!
## Whole runs
-/

theorem length_writeAttr (env : Env ρ) (sf : List ρ) (uname : CString) (attr : Option Attr)
    (buf : CBuffer) : (ShadowFs.writeAttr env sf uname attr buf).length = sf.length := by
  rcases attr with _ | attr
  · rfl
  · cases attr with
    | passwordHash =>
        have hlen := Nat.le_of_eq (hashword_length buf.str)
        simp only [ShadowFs.writeAttr, updateDaysSinceChanged,
          updateHash_eq_updateField _ _ hlen, SfRoot.length_updateField]
    | _ => exact SfRoot.length_updateField _ _ _

theorem length_unlinkAttr (env : Env ρ) (sf : List ρ) (uname : CString)
    (attr : Option Attr) : (ShadowFs.unlinkAttr env sf uname attr).length = sf.length := by
  rcases attr with _ | attr
  · rfl
  · cases attr with
    | passwordHash =>
        have hlen : (CString.lit "!").length ≤ 32 := by decide
        simp only [ShadowFs.unlinkAttr, updateHash_eq_updateField _ _ hlen,
          SfRoot.length_updateField]
    | _ => exact SfRoot.length_updateField _ _ _

theorem length_serve_le {env : Env ρ} {p p' : Process ρ} {req : Request} {reply : Reply}
    (h : ShadowFs.serve env p req = .ok (reply, p')) :
    p'.root.length ≤ p.root.length + 1 := by
  cases req with
  | read path stack buf size offset =>
      cases h
      rw [shRead_root]
      exact Nat.le_succ _
  | write path buf size offset =>
      cases h
      by_cases hreach : Reaches p.root path.name
      · rw [shWrite_of_reaches hreach]
        exact (Nat.le_of_eq (length_writeAttr ..)).trans (Nat.le_succ _)
      · rw [shWrite_of_not_reaches hreach]
        exact Nat.le_succ _
  | mkdir path =>
      cases h
      rcases shMkdir_cases env p.root path with hfail | ⟨u, _, _, _, hadd⟩
      · rw [hfail]
        exact Nat.le_succ _
      · rw [hadd, List.length_append, List.length_singleton]
  | rmdir path =>
      rw [ShadowFs.serve] at h
      rcases findUser_cases p.root path.name with hnone | ⟨front, u, back, hm⟩
      · rw [shRmdir_of_none hnone] at h
        cases h
        exact Nat.le_succ _
      · rw [hm.shRmdir_eq] at h
        cases h
        rw [hm.split, List.length_append, List.length_append, List.length_cons]
        lia
  | rename source target =>
      cases h
      rcases findUser_cases p.root source.name with hnone | ⟨front, u, back, hm⟩
      · rw [shRename_of_none hnone]
        exact Nat.le_succ _
      · rw [hm.shRename_eq, hm.split, List.length_append, List.length_append,
          List.length_cons, List.length_cons]
        exact Nat.le_succ _
  | mknod path =>
      rw [ShadowFs.serve] at h
      by_cases hreach : Reaches p.root path.name
      · rcases hreach.exists_firstMatch with ⟨front, u, back, hm⟩
        cases hmknod : ShadowFs.shMknod env p.root path with
        | error fault =>
            rw [hmknod] at h
            cases h
        | ok res =>
            rw [hmknod] at h
            cases h
            rw [(shMknod_ok_of_reaches hreach hm hmknod).2, hm.split, List.length_append,
              List.length_append, List.length_cons, List.length_cons]
            exact Nat.le_succ _
      · rcases shMknod_of_not_reaches hreach env with ⟨code, _, hmknod⟩
        rw [hmknod] at h
        cases h
        exact Nat.le_succ _
  | unlink path =>
      cases h
      by_cases hreach : Reaches p.root path.name
      · rw [shUnlink_of_reaches hreach]
        exact (Nat.le_of_eq (length_unlinkAttr ..)).trans (Nat.le_succ _)
      · rw [shUnlink_of_not_reaches hreach]
        exact Nat.le_succ _
  | _ =>
      cases h
      exact Nat.le_succ _

/-- A step of a run in memory, which is stuck where the walk of a callback is. -/
def step (rounds : Nat) (call : MemCall ρ) (m : Mounted ρ) : Except Unit (Reply × Mounted ρ) :=
  match m.serve rounds call with
  | none => .error ()
  | some res => .ok res

def next (rounds : Nat) (call : MemCall ρ) (m : Mounted ρ) : Except Unit (Mounted ρ) :=
  (step rounds call m).map Prod.snd

def lostBlocks : List (MemCall ρ) -> Process ρ -> List Nat
  | [], _ => []
  | call :: calls, p =>
      lostBy call p ++
        match serveStep (call.env, call.req) p with
        | .error _ => []
        | .ok p' => lostBlocks calls p'

theorem step_eq_ok {rounds : Nat} {call : MemCall ρ} {m m' : Mounted ρ} {reply : Reply}
    (h : m.serve rounds call = some (reply, m')) :
    step rounds call m = .ok (reply, m') ∧ next rounds call m = .ok m' := by
  have hstep : step rounds call m = .ok (reply, m') := by
    rw [step, h]
  refine ⟨hstep, ?_⟩
  rw [next, hstep]
  rfl

/-- Every run is served in memory, with the replies of the run on the list, and the
structure represents the list throughout. -/
theorem serve_in_memory (rounds : Nat) (calls : List (MemCall ρ)) (m : Mounted ρ)
    (p : Process ρ) (lost : List Nat) (h : m.Follows p lost)
    (hcontained : Guarded (next rounds) Contained calls m)
    (hrounds : p.root.length + calls.length < rounds) :
    Matched (step rounds)
      (fun call reply p p' => ShadowFs.serve call.env p call.req = .ok (reply, p'))
      (fun m p => m.root.Represents p.root ∧ p = m.process p.root) calls m p := by
  induction calls generalizing m p lost with
  | nil => exact Matched.done ⟨h.stores.represents, h.same⟩
  | cons call calls ih =>
      rw [List.length_cons] at hrounds
      have hroom : p.root.length < rounds := by lia
      rcases h.serve hroom hcontained.1 with ⟨reply, m', p', hserve, hlist, hnext⟩
      rcases step_eq_ok hserve with ⟨hstep, hnextStep⟩
      have hgrowth := length_serve_le hlist
      refine Matched.next ⟨h.stores.represents, h.same⟩ hstep hlist ?_
      exact ih m' p' _ hnext (hcontained.2 m' hnextStep) (by lia)

/-- What a run leaves in memory. -/
theorem Follows.run {rounds : Nat} {calls : List (MemCall ρ)} {m : Mounted ρ}
    {p : Process ρ} {lost : List Nat} (h : m.Follows p lost)
    (hcontained : Guarded (next rounds) Contained calls m)
    (hrounds : p.root.length + calls.length < rounds) :
    exists m' p', Library.run (next rounds) calls m = .ok m' ∧
      serveAll (calls.map (fun call => (call.env, call.req))) p = .ok p' ∧
      p'.root.length < rounds ∧ m'.Follows p' (lost ++ lostBlocks calls p) := by
  induction calls generalizing m p lost with
  | nil => exact ⟨m, p, rfl, rfl, hrounds, by simpa [lostBlocks] using h⟩
  | cons call calls ih =>
      rw [List.length_cons] at hrounds
      have hroom : p.root.length < rounds := by lia
      rcases h.serve hroom hcontained.1 with ⟨reply, m1, p1, hserve, hlist, hnext⟩
      rcases step_eq_ok hserve with ⟨_, hnextStep⟩
      have hlistStep : serveStep (call.env, call.req) p = .ok p1 := by
        rw [serveStep, hlist]
      have hgrowth := length_serve_le hlist
      rcases ih hnext (hcontained.2 m1 hnextStep) (by lia) with ⟨m', p', hrun, hall, hlen, hlast⟩
      refine ⟨m', p', ?_, ?_, hlen, ?_⟩
      · rw [Library.run, hnextStep]
        exact hrun
      · rw [List.map_cons, serveAll, Library.run, hlistStep]
        exact hall
      · rw [lostBlocks, hlistStep, ← List.append_assoc]
        exact hlast

/-!
## The whole program
-/

section Main

variable {φ : Type}

/-- `main` up to `fuse_main`. -/
def mount (rounds : Nat) (naming : Naming φ) (malloc : Malloc ρ) (inv : Invocation)
    (disk : CString -> Option (List Byte)) : Option (Mounted ρ) :=
  let p : Process ρ :=
    { root := [], filename := inv.arg, backingPath := CString.lit "", cwd := inv.cwd,
      disk := disk }
  match p.disk (p.resolve p.filename) with
  | none => none
  | some content =>
      match SfRoot.initParse rounds malloc content with
      | some (.ok sf) =>
          some { root := sf, filename := inv.arg, cwd := inv.cwd, disk := disk,
                 backingPath := naming.realpath (p.resolve p.filename) }
      | _ => none

def fuseDaemonize (foreground : Bool) (m : Mounted ρ) : Mounted ρ :=
  if foreground then m else { m with cwd := CString.lit "" }

/-- `sf_deparse(root, filename, 1)`: the structure is destroyed after the file is written. -/
def close (rounds : Nat) (m : Mounted ρ) :
    Option (Heap ρ × (CString -> Option (List Byte))) :=
  match m.flush rounds with
  | none => none
  | some m =>
      match m.root.sfTreeDestroy rounds with
      | none => none
      | some heap => some (heap, m.disk)

/-- The whole program: what it leaves in memory and on the disk. -/
def shfsMain (rounds : Nat) (naming : Naming φ) (malloc : Malloc ρ) (inv : Invocation)
    (disk : CString -> Option (List Byte)) (calls : List (MemCall ρ)) :
    Option (Heap ρ × (CString -> Option (List Byte))) :=
  match mount rounds naming malloc inv disk with
  | none => none
  | some m =>
      match Library.run (next rounds) calls (m.fuseDaemonize inv.foreground) with
      | .error _ => none
      | .ok m => m.close rounds

theorem length_parseLines_le {load : LoadEnv ρ} {lines : List (List Byte)} {k : Nat}
    {users users' : List ρ} (h : parseLines load k lines users = .ok users') :
    users'.length ≤ users.length + lines.length := by
  induction lines generalizing k users with
  | nil =>
      cases h
      exact Nat.le_refl _
  | cons line lines ih =>
      rcases parseLines_cons_ok h with ⟨outcome, hline, hrest⟩
      have hgrowth := SfRoot.length_parseLine_le hline
      have hlater := ih hrest
      rw [List.length_cons]
      lia

omit [UserRep ρ] in
theorem Follows.fuseDaemonize {m : Mounted ρ} {p : Process ρ} {lost : List Nat}
    (h : m.Follows p lost) (foreground : Bool) :
    (m.fuseDaemonize foreground).Follows (ShadowFs.fuseDaemonize foreground p) lost := by
  cases foreground with
  | true => exact h
  | false =>
      refine ⟨h.stores, ?_⟩
      rw [h.same]
      rfl

theorem follows_mount {naming : Naming φ} {load : LoadEnv ρ} {malloc : Malloc ρ}
    (hhead : malloc.head = none) (hheap : malloc.heap = fun _ => none)
    (hnil : load.head = []) (hload : forall k, load.line k = malloc.env k)
    {inv : Invocation} {disk : CString -> Option (List Byte)} {p : Process ρ}
    (hmount : ShadowFs.mount naming load inv disk = .ok p) :
    exists file, disk (p.resolve p.filename) = some file ∧
      p.root.length ≤ (readLines 256 file).length ∧
      forall rounds, (readLines 256 file).length < rounds ->
        exists m, mount rounds naming malloc inv disk = some m ∧ m.Follows p [] := by
  rw [ShadowFs.mount] at hmount
  dsimp only at hmount
  split at hmount
  · cases hmount
  · rename_i content hcontent
    split at hmount
    · cases hmount
    · rename_i sf hparse
      cases hmount
      refine ⟨content, hcontent, ?_, ?_⟩
      · have hlength := length_parseLines_le hparse
        rw [ShadowFs.sfTreeInit, hnil, List.length_nil] at hlength
        lia
      · intro rounds hrounds
        rcases SfRoot.stores_initParse hhead hheap hnil hload hparse hrounds with
          ⟨root, hroot, hstores⟩
        let start : Process ρ :=
          { root := [], filename := inv.arg, backingPath := CString.lit "", cwd := inv.cwd,
            disk := disk }
        refine ⟨{ root := root, filename := inv.arg, cwd := inv.cwd, disk := disk,
                  backingPath := naming.realpath (start.resolve inv.arg) }, ?_, hstores, rfl⟩
        simp only [mount, hcontent, hroot, start]

theorem Follows.close {m : Mounted ρ} {p : Process ρ} {lost : List Nat}
    (h : m.Follows p lost) {rounds : Nat} (hrounds : p.root.length < rounds) :
    exists heap, m.close rounds = some (heap, p.flush.disk) ∧
      forall a, heap a ≠ none <-> a ∈ lost := by
  rcases h.flush hrounds with ⟨m', hflush, hnext⟩
  rcases hnext.stores.sfTreeDestroy hrounds with ⟨heap, hdestroy, hlive⟩
  have hdisk : m'.disk = p.flush.disk := by
    rw [hnext.same]
    rfl
  refine ⟨heap, ?_, hlive⟩
  simp only [Mounted.close, hflush, hdestroy, hdisk]

/-- At the end the file is that of the run on the list, and of the blocks that were
allocated, those of the names of more than sixteen bytes are still in use. -/
theorem main_frees (naming : Naming φ) (load : LoadEnv ρ) (malloc : Malloc ρ)
    (hhead : malloc.head = none) (hheap : malloc.heap = fun _ => none)
    (hnil : load.head = []) (hload : forall k, load.line k = malloc.env k)
    (inv : Invocation) (disk : CString -> Option (List Byte)) (p : Process ρ)
    (hmount : ShadowFs.mount naming load inv disk = .ok p) (file : List Byte)
    (hfile : disk (p.resolve p.filename) = some file) (calls : List (MemCall ρ))
    (rounds : Nat) (hrounds : (readLines 256 file).length + calls.length < rounds)
    (hcontained : forall m, mount rounds naming malloc inv disk = some m ->
      Guarded (next rounds) Contained calls (m.fuseDaemonize inv.foreground)) :
    exists heap p', shfsMain rounds naming malloc inv disk calls = some (heap, p'.disk) ∧
      ShadowFs.shfsMain naming load inv disk
        (calls.map (fun call => (call.env, call.req))) = .ok p' ∧
      forall a, heap a ≠ none <->
        a ∈ lostBlocks calls (ShadowFs.fuseDaemonize inv.foreground p) := by
  rcases follows_mount hhead hheap hnil hload hmount with ⟨content, hcontent, hlength, hstart⟩
  have hsame : content = file := Option.some.inj (hcontent.symm.trans hfile)
  rw [hsame] at hlength hstart
  rcases hstart rounds (by lia) with ⟨m, hm, hfollows⟩
  have hroot : (ShadowFs.fuseDaemonize inv.foreground p).root = p.root := by
    cases inv.foreground <;> rfl
  have hroom : (ShadowFs.fuseDaemonize inv.foreground p).root.length + calls.length <
      rounds := by
    rw [hroot]
    lia
  rcases (hfollows.fuseDaemonize inv.foreground).run (hcontained m hm) hroom with
    ⟨m', p', hrun, hall, hlen, hlast⟩
  rcases hlast.close hlen with ⟨heap, hclose, hlive⟩
  refine ⟨heap, p'.flush, ?_, ?_, hlive⟩
  · simp only [shfsMain, hm, hrun, hclose]
  · simp only [ShadowFs.shfsMain, hmount, hall]

end Main

end Mounted

/-- One record, at address zero. -/
def binMounted : Mounted User where
  root := { head := some 0, heap := fun a => if a = 0 then some ⟨binUser, none⟩ else none }
  filename := CString.lit "/home/shadow.out"
  backingPath := CString.lit "/home/shadow.out"
  cwd := CString.lit "/home"
  disk := homeDisk

def mkdirAt (addr : Nat) (name : CString) : MemCall User :=
  { env := plainEnv, addr := addr, link := some addr, req := .mkdir (Path.of name []) }

def rmdirBin : MemCall User :=
  { env := plainEnv, addr := 0, link := none, req := .rmdir (Path.of (CString.lit "bin") []) }

theorem follows_binMounted : binMounted.Follows (binMounted.process [binUser]) [] := by
  refine ⟨⟨[(0, binUser)], ?_, rfl⟩, rfl⟩
  refine { linked := ⟨⟨rfl, none, rfl, rfl⟩, by decide⟩, live := ?_, apart := by simp }
  intro a
  by_cases ha : a = 0
  · simp [binMounted, ha]
  · simp [binMounted, ha]

/-- The record of `al` is linked behind that of `bin`, which is then freed. -/
theorem serve_in_memory_bin :
    Matched (Mounted.step 4)
      (fun call reply p p' => ShadowFs.serve call.env p call.req = .ok (reply, p'))
      (fun m p => m.root.Represents p.root ∧ p = m.process p.root)
      [mkdirAt 1 (CString.lit "al"), rmdirBin] binMounted (binMounted.process [binUser]) :=
  Mounted.serve_in_memory 4 [mkdirAt 1 (CString.lit "al"), rmdirBin] binMounted
    (binMounted.process [binUser]) [] follows_binMounted
    ⟨rfl, fun _ _ => ⟨trivial, fun _ _ => trivial⟩⟩ (by decide)

/-- A heap without records whose blocks hold the record of `bin`. -/
def emptyMalloc : Malloc User where
  head := none
  heap := fun _ => none
  addr k := k
  block _ := ⟨binUser, none⟩
  time _ := 0
  fresh _ := rfl
  apart _ _ h := h

/-- The block of a name of seventeen bytes is still in use. -/
theorem main_frees_long :
    exists heap p', Mounted.shfsMain 3 plainNaming emptyMalloc
        (homeInvocation (CString.lit "/home/shadow.out") true) homeDisk
        [mkdirAt 7 (CString.lit "seventeenseventee")] = some (heap, p'.disk) ∧
      ShadowFs.shfsMain plainNaming plainLoad
        (homeInvocation (CString.lit "/home/shadow.out") true) homeDisk
        [(plainEnv, .mkdir (Path.of (CString.lit "seventeenseventee") []))] = .ok p' ∧
      forall a, heap a ≠ none <-> a ∈ [7] := by
  have hmount : ShadowFs.mount plainNaming plainLoad
      (homeInvocation (CString.lit "/home/shadow.out") true) homeDisk =
        .ok (homeProcess (CString.lit "/home/shadow.out")) := rfl
  have hfree : forall m, Mounted.mount 3 plainNaming emptyMalloc
      (homeInvocation (CString.lit "/home/shadow.out") true) homeDisk = some m ->
        m.root.heap 7 = none := by
    have hmap : (Mounted.mount 3 plainNaming emptyMalloc
        (homeInvocation (CString.lit "/home/shadow.out") true) homeDisk).map
          (fun m => m.root.heap 7) = some none := rfl
    intro m hm
    rw [hm] at hmap
    exact Option.some.inj hmap
  exact Mounted.main_frees plainNaming plainLoad emptyMalloc rfl rfl rfl (fun _ => rfl)
    (homeInvocation (CString.lit "/home/shadow.out") true) homeDisk
    (homeProcess (CString.lit "/home/shadow.out")) hmount (sfDeparse [binUser]) rfl
    [mkdirAt 7 (CString.lit "seventeenseventee")] 3 (by decide)
    (fun m hm => ⟨hfree m hm, fun _ _ => trivial⟩)

end ShadowFs

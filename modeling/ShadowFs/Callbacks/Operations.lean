import ShadowFs.Callbacks.Path
import ShadowFs.Hash.Md5
import ShadowFs.Persist.Parse

/-!
# The callbacks: `shfs.c`

The operations of `sh_oper`, written over the list of users that `root` holds
and, for the two that touch the backing file, over the whole process state.  An
attribute file `/u/a` is found in two steps that every callback repeats: no user
may be named like the whole path, and the name `user_from_path` extracts must
belong to a user; the rest of the path is compared with the eight attribute
names in turn.
-/

namespace ShadowFs

open CLib UserRep

abbrev ENOENT : Int := 2
abbrev EACCES : Int := 13
abbrev EEXIST : Int := 17

/-!
## Attribute files
-/

inductive Attr where
  | passwordHash
  | daysSinceChanged
  | daysUntilCanChange
  | daysUntilMustChange
  | daysBeforeWarning
  | daysUntilExpiration
  | daysSinceAccountDeactivated
  | reserved
deriving DecidableEq, Repr

/-- The chain of `strcmp` calls that `is_attr`, `sh_read`, `sh_write` and
`sh_unlink` all go through in the same order. -/
def attrOf (str : CString) : Option Attr :=
  if str = CString.lit "password-hash" then some .passwordHash
  else if str = CString.lit "days_since_changed" then some .daysSinceChanged
  else if str = CString.lit "days_until_can_change" then some .daysUntilCanChange
  else if str = CString.lit "days_until_must_change" then some .daysUntilMustChange
  else if str = CString.lit "days_before_warning" then some .daysBeforeWarning
  else if str = CString.lit "days_until_expiration" then some .daysUntilExpiration
  else if str = CString.lit "days_since_account_deactivated" then
    some .daysSinceAccountDeactivated
  else if str = CString.lit "reserved" then some .reserved
  else none

section Attributes

variable {ρ : Type} [UserRep ρ]

/-- `sprintf(s, "%d\n", v)`. -/
def dayLine (v : Int32) : List Byte :=
  intText v.toInt ++ [newline]

/-- `sprintf(s, "%s\n", str)`. -/
def stringLine (str : CString) : List Byte :=
  str.bytes ++ [newline]

def isAttr (str : CString) (user : ρ) : Int :=
  match attrOf str with
  | some .passwordHash => (hash user).length + 1
  | some .daysSinceChanged => (dayLine (day .dsc user)).length
  | some .daysUntilCanChange => (dayLine (day .dcc user)).length
  | some .daysUntilMustChange => (dayLine (day .dmc user)).length
  | some .daysBeforeWarning => (dayLine (day .dw user)).length
  | some .daysUntilExpiration => (dayLine (day .de user)).length
  | some .daysSinceAccountDeactivated => (dayLine (day .dd user)).length
  | some .reserved =>
      match reserved user with
      | some r => r.length + 1
      | none => 0
  | none => -1

end Attributes

/-!
## Process state

The globals of `shfs.c` and the part of the system they refer to: the working
directory and the contents of files by absolute name.
-/

structure Process (ρ : Type) where
  root : List ρ
  filename : CString
  backingPath : CString
  cwd : CString
  disk : CString -> Option (List Byte)

/-- The part of `struct stat` that is filled in. -/
structure Stat where
  mode : Nat
  nlink : Nat
  size : Nat
deriving DecidableEq, Repr

/-- After `memset(stbuf, 0, sizeof(struct stat))`. -/
def Stat.zero : Stat := { mode := 0, nlink := 0, size := 0 }

abbrev S_IFMT : Nat := 0o170000
abbrev S_IFDIR : Nat := 0o040000
abbrev S_IFREG : Nat := 0o100000

/-- `S_ISREG(st_mode)`. -/
def Stat.isRegular (s : Stat) : Prop := s.mode &&& S_IFMT = S_IFREG

instance (s : Stat) : Decidable s.isRegular :=
  inferInstanceAs (Decidable (_ = _))

namespace Process

variable {ρ : Type} [UserRep ρ]

/-- The file a name denotes in the current working directory. -/
def resolve (p : Process ρ) (name : CString) : CString :=
  if name.bytes.head? = some slash then name
  else p.cwd ++ CString.lit "/" ++ name

def lstat (p : Process ρ) (name : CString) : Int × Stat :=
  match p.disk (p.resolve name) with
  | some content => (0, { mode := S_IFREG ||| 0o644, nlink := 1, size := content.length })
  | none => (-1, Stat.zero)

/-- `sf_deparse(root, filename, 0)`. -/
def flush (p : Process ρ) : Process ρ :=
  { p with
    disk := fun name =>
      if name = p.resolve p.filename then some (sfDeparse p.root)
      else p.disk name }

end Process

section Callbacks

variable {ρ : Type} [UserRep ρ]

/-- The conversion of a `size_t` to the `int` a callback returns. -/
def toInt (size : Nat) : Int :=
  (Int32.ofNat size).toInt

def shGetattr (p : Process ρ) (path : Path) : Int × Stat :=
  let user := findUser p.root (path.strAt 1)
  let uname := unameOf path.toCBuffer
  let i := attrIndex path.toCBuffer
  if path.str = CString.lit "/" then
    (0, { mode := S_IFDIR ||| 0o755, nlink := 2, size := 0 })
  else if user ≠ none then
    (0, { mode := S_IFDIR ||| 0o755, nlink := 1, size := 0 })
  else
    match findRecord p.root uname with
    | some user2 =>
        let size := isAttr (path.strAt i) user2
        if size > -1 then
          (0, { mode := S_IFREG ||| 0o666, nlink := 1, size := size.toNat })
        else (-ENOENT, Stat.zero)
    | none =>
        if path.strAt 1 = CString.lit "sh_file" then p.lstat p.backingPath
        else (-ENOENT, Stat.zero)

/-- The result and the names passed to `filler`, in order. -/
def shReaddir (p : Process ρ) (path : Path) : Int × List CString :=
  if path.str = CString.lit "/" then
    (0, [CString.lit ".", CString.lit "..", CString.lit "sh_file"] ++
      p.root.map username)
  else
    match findRecord p.root (path.strAt 1) with
    | none => (-ENOENT, [])
    | some user =>
        (0, [CString.lit ".", CString.lit "..", CString.lit "password-hash",
            CString.lit "days_since_changed", CString.lit "days_until_can_change",
            CString.lit "days_until_must_change", CString.lit "days_before_warning",
            CString.lit "days_until_expiration",
            CString.lit "days_since_account_deactivated"] ++
          (if reserved user ≠ none then [CString.lit "reserved"] else []))

def shOpen (_ : Path) : Int := 0

/-- The memory from a local array on, after `sprintf` has stored `text` in it;
`stack` is what was there before. -/
def localArray (text : List Byte) (stack : Nat -> Byte) (k : Nat) : Byte :=
  if k < text.length then text.getD k 0
  else if k = text.length then 0
  else stack k

/-- `memcpy(buf, s + offset, n)`. -/
def copyOut (s : Nat -> Byte) (offset n : Nat) (buf : List Byte) : List Byte :=
  (List.range n).map (fun k => s (offset + k)) ++ buf.drop n

/-- A day attribute replaces `size` by the length of its text. -/
def readDay (v : Int32) (stack : Nat -> Byte) (buf : List Byte) (offset : Nat) :
    Int × List Byte :=
  let size := (dayLine v).length
  (toInt size, copyOut (localArray (dayLine v) stack) offset size buf)

/-- A string attribute copies `size` bytes whatever the length of its text. -/
def readString (str : CString) (stack : Nat -> Byte) (buf : List Byte)
    (size offset : Nat) : Int × List Byte :=
  (toInt size, copyOut (localArray (stringLine str) stack) offset size buf)

/-- The copy made by `sh_read`, once user and attribute are found.  Nothing is
copied for an unknown attribute or a null `reserved`. -/
def readAttr (user : ρ) (attr : Option Attr) (stack : Nat -> Byte) (buf : List Byte)
    (size offset : Nat) : Int × List Byte :=
  match attr with
  | some .passwordHash => readString (hash user) stack buf size offset
  | some .daysSinceChanged => readDay (day .dsc user) stack buf offset
  | some .daysUntilCanChange => readDay (day .dcc user) stack buf offset
  | some .daysUntilMustChange => readDay (day .dmc user) stack buf offset
  | some .daysBeforeWarning => readDay (day .dw user) stack buf offset
  | some .daysUntilExpiration => readDay (day .de user) stack buf offset
  | some .daysSinceAccountDeactivated => readDay (day .dd user) stack buf offset
  | some .reserved =>
      match reserved user with
      | some r => readString r stack buf size offset
      | none => (toInt size, buf)
  | none => (toInt size, buf)

/-- The result and the contents of `buf` afterwards. -/
def shRead (p : Process ρ) (stack : Nat -> Byte) (path : Path) (buf : List Byte)
    (size offset : Nat) : (Int × List Byte) × Process ρ :=
  if path.strAt 1 = CString.lit "sh_file" then
    let p := p.flush
    match p.disk (p.resolve p.backingPath) with
    | none => ((-1, buf), p)
    | some content =>
        let data := (content.drop offset).take size
        ((toInt data.length, data ++ buf.drop data.length), p)
  else if findUser p.root (path.strAt 1) ≠ none ∨ path.str = CString.lit "/" then
    ((-ENOENT, buf), p)
  else
    match findRecord p.root (unameOf path.toCBuffer) with
    | none => ((-ENOENT, buf), p)
    | some user =>
        let attr := attrOf (path.strAt (attrIndex path.toCBuffer))
        (readAttr user attr stack buf size offset, p)

/-- The assignments of `sh_write`, once user and attribute are found. -/
def writeAttr (env : Env ρ) (sf : List ρ) (uname : CString) (attr : Option Attr)
    (buf : CBuffer) : List ρ :=
  match attr with
  | some .passwordHash =>
      let hashed := hashword buf.str
      let sf := (updateHash sf uname hashed).2
      (updateDaysSinceChanged sf uname (shadowTime env.time)).2
  | some .daysSinceChanged => (updateDaysSinceChanged sf uname (atoi buf.str.bytes)).2
  | some .daysUntilCanChange =>
      (updateDaysUntilCanChange sf uname (atoi buf.str.bytes)).2
  | some .daysUntilMustChange =>
      (updateDaysUntilMustChange sf uname (atoi buf.str.bytes)).2
  | some .daysBeforeWarning => (updateDaysBeforeWarning sf uname (atoi buf.str.bytes)).2
  | some .daysUntilExpiration =>
      (updateDaysUntilExpiration sf uname (atoi buf.str.bytes)).2
  | some .daysSinceAccountDeactivated =>
      (updateDaysSinceDeactivation sf uname (atoi buf.str.bytes)).2
  | some .reserved => (updateReserved sf uname (some buf.str)).2
  | none => sf

def shWrite (env : Env ρ) (sf : List ρ) (path : Path) (buf : CBuffer) (size : Nat) :
    Int × List ρ :=
  if findUser sf (path.strAt 1) ≠ none ∨ path.str = CString.lit "/" then (-ENOENT, sf)
  else
    let uname := unameOf path.toCBuffer
    match findUser sf uname with
    | none => (-ENOENT, sf)
    | some _ =>
        (toInt size,
          writeAttr env sf uname (attrOf (path.strAt (attrIndex path.toCBuffer))) buf)

def shTruncate (_ : Path) (_ : Nat) : Int := 0

def shMkdir (env : Env ρ) (sf : List ρ) (path : Path) : Int × List ρ :=
  let x := sfTreeAddUser env sf (path.strAt 1)
  if x.1 < 0 then (-EEXIST, x.2) else (0, x.2)

def shRmdir (sf : List ρ) (path : Path) : Except Fault (Int × List ρ) :=
  match findUser sf (path.strAt 1) with
  | none => .ok (-ENOENT, sf)
  | some _ => sfTreeDeleteUser sf (path.strAt 1)

def shRename (sf : List ρ) (source target : Path) : Int × List ρ :=
  match findUser sf (source.strAt 1) with
  | none => (-EACCES, sf)
  | some user => (0, sf.modify user (strcpyUsername (target.strAt 1)))

/-- The assignments of `sh_unlink`: every attribute gets its default back. -/
def unlinkAttr (env : Env ρ) (sf : List ρ) (uname : CString) (attr : Option Attr) :
    List ρ :=
  match attr with
  | some .passwordHash => (updateHash sf uname (CString.lit "!")).2
  | some .daysSinceChanged =>
      (updateDaysSinceChanged sf uname (shadowTime env.time)).2
  | some .daysUntilCanChange => (updateDaysUntilCanChange sf uname 0).2
  | some .daysUntilMustChange => (updateDaysUntilMustChange sf uname 99999).2
  | some .daysBeforeWarning => (updateDaysBeforeWarning sf uname 7).2
  | some .daysUntilExpiration => (updateDaysUntilExpiration sf uname 0).2
  | some .daysSinceAccountDeactivated => (updateDaysSinceDeactivation sf uname 0).2
  | some .reserved => (updateReserved sf uname none).2
  | none => sf

def shUnlink (env : Env ρ) (sf : List ρ) (path : Path) : Int × List ρ :=
  if findUser sf (path.strAt 1) ≠ none ∨ path.str = CString.lit "/" then (-ENOENT, sf)
  else
    let uname := unameOf path.toCBuffer
    match findUser sf uname with
    | none => (-ENOENT, sf)
    | some _ =>
        (0, unlinkAttr env sf uname (attrOf (path.strAt (attrIndex path.toCBuffer))))

/-- Any file name under a user becomes the text of its `reserved` field, in a buffer of 50
bytes. -/
def shMknod (env : Env ρ) (sf : List ρ) (path : Path) : Except Fault (Int × List ρ) :=
  if findUser sf (path.strAt 1) ≠ none ∨ path.str = CString.lit "/" then
    .ok (-ENOENT, sf)
  else
    match findUser sf (unameOf path.toCBuffer) with
    | none => .ok (-EACCES, sf)
    | some user =>
        let file := path.strAt (attrIndex path.toCBuffer)
        if env.buffer then
          if file.length ≥ 50 then .error .bufferOverflow
          else .ok (0, sf.modify user (setReserved (some file)))
        else .error .nullPointer

end Callbacks

/-- A mounted file system with the given users and no backing file yet. -/
def plainProcess (sf : List User) : Process User :=
  { root := sf, filename := CString.lit "shadow.out",
    backingPath := CString.lit "/shadow.out", cwd := CString.lit "",
    disk := fun _ => none }

end ShadowFs

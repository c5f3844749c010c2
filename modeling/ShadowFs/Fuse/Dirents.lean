import ShadowFs.Library.Frames
import ShadowFs.Fuse.Buffers
import ShadowFs.Callbacks.Operations

/-!
# Directory listings through the library

`sh_readdir` hands its names to `fill_dir`, which writes them as directory entries into the
buffer of the open directory; `fuse_lib_readdir` answers each request of the kernel with a
piece of that buffer.  A piece may end inside an entry, and the kernel goes on at the offset
stored in the last complete one.

However the requests are cut, and whatever happens to the users between them, the kernel
gets each name once, in the order of `sh_readdir` at the first request.
-/

namespace ShadowFs.Libfuse

open CLib

/-!
## Directory entries
-/

/-- The fields of `struct fuse_dirent`, in the range of their types. -/
structure Dirent where
  ino : Nat
  off : Nat
  type : Nat
  name : List Byte
  inoLt : ino < 256 ^ 8
  offLt : off < 256 ^ 8
  typeLt : type < 256 ^ 4
  nameLt : name.length < 256 ^ 4

/-- `offsetof(struct fuse_dirent, name)`. -/
def nameOffset : Nat := 24

/-- `FUSE_DIRENT_ALIGN`: the next multiple of eight. -/
def direntAlign (x : Nat) : Nat :=
  (x + 7) / 8 * 8

def fuseDirentSize (namelen : Nat) : Nat :=
  direntAlign (nameOffset + namelen)

/-- The entry as `fuse_add_dirent` stores it, padded with zeros. -/
def fuseAddDirent (d : Dirent) : List Byte :=
  leBytes 8 d.ino ++ leBytes 8 d.off ++ leBytes 4 d.name.length ++ leBytes 4 d.type ++
    d.name ++ List.replicate (fuseDirentSize d.name.length - (nameOffset + d.name.length)) 0

/-- How the kernel takes an entry from a reply: nothing, unless it is complete. -/
def takeDirent (text : List Byte) : Option (Dirent × List Byte) :=
  let ino := leValue (text.take 8)
  let off := leValue ((text.drop 8).take 8)
  let namelen := leValue ((text.drop 16).take 4)
  let type := leValue ((text.drop 20).take 4)
  let name := (text.drop nameOffset).take namelen
  if text.length < nameOffset then none
  else if text.length < fuseDirentSize namelen then none
  else if h : ino < 256 ^ 8 ∧ off < 256 ^ 8 ∧ type < 256 ^ 4 ∧ name.length < 256 ^ 4 then
    some (⟨ino, off, type, name, h.1, h.2.1, h.2.2.1, h.2.2.2⟩,
      text.drop (fuseDirentSize namelen))
  else none

theorem le_direntAlign (x : Nat) : x ≤ direntAlign x := by
  rw [direntAlign]
  lia

theorem fuseAddDirent_length (d : Dirent) :
    (fuseAddDirent d).length = fuseDirentSize d.name.length := by
  have hfits : nameOffset + d.name.length ≤ fuseDirentSize d.name.length := le_direntAlign _
  simp only [fuseAddDirent, List.length_append, leBytes_length, List.length_replicate]
  rw [nameOffset] at hfits ⊢
  lia

theorem take_drop_middle {front field behind : List Byte} {n width : Nat}
    (hn : front.length = n) (hwidth : field.length = width) :
    ((front ++ (field ++ behind)).drop n).take width = field := by
  subst hn
  subst hwidth
  rw [List.drop_left, List.take_left]

theorem fields_fuseAddDirent (d : Dirent) (rest : List Byte) :
    leValue ((fuseAddDirent d ++ rest).take 8) = d.ino ∧
      leValue (((fuseAddDirent d ++ rest).drop 8).take 8) = d.off ∧
      leValue (((fuseAddDirent d ++ rest).drop 16).take 4) = d.name.length ∧
      leValue (((fuseAddDirent d ++ rest).drop 20).take 4) = d.type ∧
      ((fuseAddDirent d ++ rest).drop nameOffset).take d.name.length = d.name := by
  have htext : exists tail, fuseAddDirent d ++ rest = leBytes 8 d.ino ++ (leBytes 8 d.off ++
      (leBytes 4 d.name.length ++ (leBytes 4 d.type ++ (d.name ++ tail)))) := by
    refine ⟨List.replicate (fuseDirentSize d.name.length - (nameOffset + d.name.length)) 0 ++
      rest, ?_⟩
    simp only [fuseAddDirent, List.append_assoc]
  rcases htext with ⟨tail, htext⟩
  have h8 := leBytes_length 8
  have h4 := leBytes_length 4
  rw [htext]
  refine ⟨?_, ?_, ?_, ?_, ?_⟩
  · rw [List.take_left' (h8 _), leValue_leBytes d.inoLt]
  · rw [take_drop_middle (h8 _) (h8 _), leValue_leBytes d.offLt]
  · rw [← List.append_assoc, take_drop_middle (by simp) (h4 _), leValue_leBytes d.nameLt]
  · rw [← List.append_assoc, ← List.append_assoc, take_drop_middle (by simp) (h4 _),
      leValue_leBytes d.typeLt]
  · rw [← List.append_assoc, ← List.append_assoc, ← List.append_assoc,
      take_drop_middle (by simp [nameOffset]) rfl]

theorem nameOffset_le_fuseDirentSize (namelen : Nat) :
    nameOffset ≤ fuseDirentSize namelen :=
  (Nat.le_add_right _ _).trans (le_direntAlign _)

theorem framing_dirent : Library.Framing fuseAddDirent takeDirent where
  decode := by
    intro d rest
    rcases fields_fuseAddDirent d rest with ⟨hino, hoff, hlen, htype, hname⟩
    have hlength : (fuseAddDirent d ++ rest).length =
        fuseDirentSize d.name.length + rest.length := by
      rw [List.length_append, fuseAddDirent_length]
    have hhead := nameOffset_le_fuseDirentSize d.name.length
    have hlong : ¬ (fuseAddDirent d ++ rest).length < nameOffset := by lia
    have hwhole : ¬ (fuseAddDirent d ++ rest).length < fuseDirentSize d.name.length := by lia
    have hrest : (fuseAddDirent d ++ rest).drop (fuseDirentSize d.name.length) = rest := by
      rw [← fuseAddDirent_length, List.drop_left]
    simp only [takeDirent, hino, hoff, hlen, htype, hname, if_neg hlong, if_neg hwhole, hrest]
    exact dif_pos ⟨d.inoLt, d.offLt, d.typeLt, d.nameLt⟩
  cut := by
    intro d n hn
    rw [fuseAddDirent_length] at hn
    have hlength : ((fuseAddDirent d).take n).length = n := by
      rw [List.length_take, fuseAddDirent_length]
      lia
    simp only [takeDirent]
    split
    · rfl
    · rename_i hlong
      rw [hlength, nameOffset] at hlong
      -- The length of the name lies in front of the cut.
      have hlen : leValue ((((fuseAddDirent d).take n).drop 16).take 4) = d.name.length := by
        have hwhole := (fields_fuseAddDirent d []).2.2.1
        rw [List.append_nil] at hwhole
        rw [List.drop_take, List.take_take, Nat.min_eq_left (by lia), hwhole]
      apply if_pos
      rw [hlen, hlength]
      exact hn
  nonempty := by
    intro d
    have hhead := nameOffset_le_fuseDirentSize d.name.length
    rw [fuseAddDirent_length]
    rw [nameOffset] at hhead
    lia

/-!
## The buffer of an open directory
-/

/-- The options of the mount that `fill_dir` looks at. -/
structure DirConfig where
  useIno : Bool
  readdirIno : Bool

/-- `struct fuse_dh`: the block at `contents`, whose length is `size`, and how far it is
used. -/
structure DirHandle where
  contents : List Byte
  len : Nat
  needlen : Nat
  filled : Bool
  error : Int

/-- The fields of `struct stat` that an entry shows. -/
structure DirStat where
  ino : Nat
  mode : Nat

/-- `realloc` fails, or returns a larger block with any bytes behind the old ones. -/
def extendContents (grow : Option (Nat -> Byte)) (dh : DirHandle) (minsize : Nat) :
    Int × DirHandle :=
  let size := dh.contents.length
  if minsize > size then
    let newsize := growSize minsize 32 (if size = 0 then 1024 else size)
    match grow with
    | none => (-1, { dh with error := -ENOMEM })
    | some junk =>
        (0, { dh with contents := dh.contents ++ (List.range (newsize - size)).map junk })
  else (0, dh)

/-- `fuse_add_direntry` into the block at the given place: the entry is stored if it fits
into `bufsize`, and its size is returned. -/
def fuseAddDirentry (contents : List Byte) (pos bufsize namelen : Nat) (d : Dirent) :
    Nat × List Byte :=
  let entsize := fuseDirentSize namelen
  if entsize ≤ bufsize then (entsize, poke contents pos (fuseAddDirent d))
  else (entsize, contents)

theorem pow256_pos (n : Nat) : 0 < 256 ^ n :=
  Nat.pow_pos (Nat.zero_lt_succ 255)

theorem take_mod_length_lt (l : List Byte) :
    (l.take (l.length % 256 ^ 4)).length < 256 ^ 4 :=
  Nat.lt_of_le_of_lt (List.length_take_le _ _) (Nat.mod_lt _ (pow256_pos 4))

/-- The entry of a name, from the status and the node table. -/
def direntOf (conf : DirConfig) (nodeOf : CString -> Option Nat) (name : CString)
    (statp : Option DirStat) (off : Nat) : Dirent where
  ino := (if conf.useIno then (statp.map DirStat.ino).getD FUSE_UNKNOWN_INO
    else if conf.readdirIno then (nodeOf name).getD FUSE_UNKNOWN_INO
    else FUSE_UNKNOWN_INO) % 256 ^ 8
  off := off % 256 ^ 8
  type := (((statp.map DirStat.mode).getD 0 &&& 0o170000) >>> 12) % 256 ^ 4
  name := name.bytes.take (name.bytes.length % 256 ^ 4)
  inoLt := Nat.mod_lt _ (pow256_pos 8)
  offLt := Nat.mod_lt _ (pow256_pos 8)
  typeLt := Nat.mod_lt _ (pow256_pos 4)
  nameLt := take_mod_length_lt name.bytes

/-- With an offset the entries of one reply are collected, without one those of the whole
directory. -/
def fillDir (conf : DirConfig) (nodeOf : CString -> Option Nat)
    (grow : Option (Nat -> Byte)) (dh : DirHandle) (name : CString)
    (statp : Option DirStat) (off : Nat) : Int × DirHandle :=
  if off ≠ 0 then
    let res := extendContents grow dh dh.needlen
    let dh := res.2
    if res.1 = -1 then (1, dh)
    else
      let entry := fuseAddDirentry dh.contents dh.len
        ((dh.needlen + 4294967296 - dh.len) % 4294967296) name.length
        (direntOf conf nodeOf name statp off)
      let newlen := dh.len + entry.1
      let dh := { dh with contents := entry.2, filled := false }
      if newlen > dh.needlen then (1, dh)
      else (0, { dh with len := newlen % 4294967296 })
  else
    let newlen := dh.len + fuseDirentSize name.length
    let res := extendContents grow dh (newlen % 4294967296)
    let dh := res.2
    if res.1 = -1 then (1, dh)
    else
      let entry := fuseAddDirentry dh.contents dh.len (dh.contents.length - dh.len)
        name.length (direntOf conf nodeOf name statp newlen)
      (0, { dh with contents := entry.2, len := newlen % 4294967296 })

/-- The calls of `filler` in `sh_readdir`, which ignores what they return. -/
def fillNames (conf : DirConfig) (nodeOf : CString -> Option Nat)
    (grow : Nat -> Option (Nat -> Byte)) : Nat -> List CString -> DirHandle -> DirHandle
  | _, [], dh => dh
  | k, name :: names, dh =>
      fillNames conf nodeOf grow (k + 1) names (fillDir conf nodeOf (grow k) dh name none 0).2

section Requests

variable {ρ : Type} [UserRep ρ]

/-- `readdir_fill`, from the result of `get_path`. -/
def readdirFill (conf : DirConfig) (nodeOf : CString -> Option Nat)
    (grow : Nat -> Option (Nat -> Byte)) (path : Except Int Path) (p : Process ρ)
    (dh : DirHandle) (size : Nat) : Int × DirHandle :=
  match path with
  | .error err => (err, dh)
  | .ok path =>
      let dh := { dh with len := 0, error := 0, needlen := size % 4294967296, filled := true }
      let res := shReaddir p path
      let dh := fillNames conf nodeOf grow 0 res.2 dh
      let err := if res.1 = 0 then dh.error else res.1
      if err ≠ 0 then (err, { dh with filled := false }) else (0, dh)

/-- The reply of `fuse_lib_readdir`.  The directory is read anew at offset zero. -/
def fuseLibReaddir (conf : DirConfig) (nodeOf : CString -> Option Nat)
    (grow : Nat -> Option (Nat -> Byte)) (path : Except Int Path) (p : Process ρ)
    (size off : Nat) (dh : DirHandle) : Except Int (List Byte) × DirHandle :=
  let dh := if off = 0 then { dh with filled := false } else dh
  let res := if dh.filled then (0, dh) else readdirFill conf nodeOf grow path p dh size
  let dh := res.2
  if res.1 ≠ 0 then (.error res.1, dh)
  else if dh.filled then
    if off < dh.len then
      let size := if off + size > dh.len then dh.len - off else size
      (.ok ((dh.contents.drop off).take size), dh)
    else (.ok [], dh)
  else (.ok (dh.contents.take dh.len), dh)

end Requests

/-!
## Filling the buffer
-/

theorem extendContents_of_some {dh : DirHandle} {minsize : Nat} (junk : Nat -> Byte)
    (hsize : dh.contents.length ≤ 0xffffffff) (hmin : minsize ≤ 0xffffffff) :
    exists more, extendContents (some junk) dh minsize =
        (0, { dh with contents := dh.contents ++ more }) ∧
      minsize ≤ (dh.contents ++ more).length ∧
      (dh.contents ++ more).length ≤ 0xffffffff := by
  simp only [extendContents]
  split
  · rename_i hshort
    generalize hstart : (if dh.contents.length = 0 then 1024 else dh.contents.length) = start
    have hstartLe : start ≤ 0xffffffff := by
      rw [← hstart]
      split <;> lia
    have hrounds : 0xffffffff ≤ start * 2 ^ 32 := by
      rw [← hstart]
      split <;> lia
    have hgrown := le_growSize hmin hrounds
    have hbound : growSize minsize 32 start ≤ 0xffffffff := growSize_le hstartLe
    refine ⟨_, rfl, ?_, ?_⟩
    · simp only [List.length_append, List.length_map, List.length_range]
      lia
    · simp only [List.length_append, List.length_map, List.length_range]
      lia
  · rename_i hlong
    refine ⟨[], ?_, ?_, ?_⟩
    · rw [List.append_nil]
    · rw [List.append_nil]
      lia
    · rw [List.append_nil]
      exact hsize

/-- The buffer holds the entries up to `len`. -/
structure Filled (dh : DirHandle) (ds : List Dirent) : Prop where
  entries : dh.contents.take dh.len = ds.flatMap fuseAddDirent
  len : dh.len = (ds.flatMap fuseAddDirent).length
  fits : dh.len ≤ dh.contents.length
  size : dh.contents.length ≤ 0xffffffff
  filled : dh.filled = true
  error : dh.error = 0

theorem direntOf_name {conf : DirConfig} {nodeOf : CString -> Option Nat} {name : CString}
    {statp : Option DirStat} {off : Nat} (h : name.length ≤ 0xffffffff) :
    (direntOf conf nodeOf name statp off).name = name.bytes := by
  have hmod : name.bytes.length % 256 ^ 4 = name.bytes.length := by
    apply Nat.mod_eq_of_lt
    exact Nat.lt_of_le_of_lt h (by decide)
  show name.bytes.take (name.bytes.length % 256 ^ 4) = name.bytes
  rw [hmod, List.take_length]

theorem length_direntOf {conf : DirConfig} {nodeOf : CString -> Option Nat} {name : CString}
    {statp : Option DirStat} {off : Nat} (h : fuseDirentSize name.length ≤ 0xffffffff) :
    (fuseAddDirent (direntOf conf nodeOf name statp off)).length =
      fuseDirentSize name.length := by
  have hhead : nameOffset + name.length ≤ fuseDirentSize name.length := le_direntAlign _
  have hname : name.length ≤ 0xffffffff := by lia
  rw [fuseAddDirent_length, direntOf_name hname]
  rfl

theorem Filled.fillDir {dh : DirHandle} {ds : List Dirent} (h : Filled dh ds)
    (conf : DirConfig) (nodeOf : CString -> Option Nat) (junk : Nat -> Byte)
    {name : CString} (hlen : dh.len + fuseDirentSize name.length ≤ 0xffffffff) :
    Filled (Libfuse.fillDir conf nodeOf (some junk) dh name none 0).2
      (ds ++ [direntOf conf nodeOf name none (dh.len + fuseDirentSize name.length)]) := by
  have hmod : (dh.len + fuseDirentSize name.length) % 4294967296 =
      dh.len + fuseDirentSize name.length := Nat.mod_eq_of_lt (by lia)
  rcases extendContents_of_some junk h.size hlen with ⟨more, hextend, hroom, hbound⟩
  generalize hd : direntOf conf nodeOf name none (dh.len + fuseDirentSize name.length) = d
  have hsize : (fuseAddDirent d).length = fuseDirentSize name.length := by
    rw [← hd]
    exact length_direntOf (by lia)
  have hplace : dh.len + (fuseAddDirent d).length ≤ (dh.contents ++ more).length := by
    rw [hsize]
    exact hroom
  have hentry : fuseDirentSize name.length ≤ (dh.contents ++ more).length - dh.len := by lia
  have hfill : (Libfuse.fillDir conf nodeOf (some junk) dh name none 0).2 =
      { dh with contents := poke (dh.contents ++ more) dh.len (fuseAddDirent d),
                len := dh.len + fuseDirentSize name.length } := by
    simp only [Libfuse.fillDir, ne_eq, not_true_eq_false, if_false, hmod, hextend, fuseAddDirentry,
      if_pos hentry, hd]
    rfl
  have hfront : (dh.contents ++ more).take dh.len = ds.flatMap fuseAddDirent := by
    rw [List.take_append_of_le_length h.fits, h.entries]
  rw [hfill]
  refine ⟨?_, ?_, ?_, ?_, h.filled, h.error⟩
  · rw [poke_of_fits hplace, hfront, List.flatMap_append, List.flatMap_singleton, h.len,
      ← List.append_assoc, ← hsize, ← List.length_append, List.take_left]
  · rw [List.flatMap_append, List.length_append, List.flatMap_singleton, hsize, h.len]
  · rw [poke_length _ _ (by lia)]
    lia
  · rw [poke_length _ _ (by lia)]
    exact hbound

/-- The entries of a directory: each one holds the place behind it. -/
def entriesFrom (conf : DirConfig) (nodeOf : CString -> Option Nat) :
    Nat -> List CString -> List Dirent
  | _, [] => []
  | pos, name :: names =>
      direntOf conf nodeOf name none (pos + fuseDirentSize name.length) ::
        entriesFrom conf nodeOf (pos + fuseDirentSize name.length) names

def listingSize (names : List CString) : Nat :=
  (names.map (fun name => fuseDirentSize name.length)).sum

theorem Filled.fillNames {dh : DirHandle} {ds : List Dirent} (h : Filled dh ds)
    (conf : DirConfig) (nodeOf : CString -> Option Nat) {grow : Nat -> Option (Nat -> Byte)}
    (hgrow : forall k, grow k ≠ none) (names : List CString) (k : Nat)
    (hlen : dh.len + listingSize names ≤ 0xffffffff) :
    Filled (Libfuse.fillNames conf nodeOf grow k names dh)
      (ds ++ entriesFrom conf nodeOf dh.len names) := by
  induction names generalizing dh ds k with
  | nil =>
      rw [entriesFrom, List.append_nil]
      exact h
  | cons name names ih =>
      rcases Option.ne_none_iff_exists'.mp (hgrow k) with ⟨junk, hjunk⟩
      rw [listingSize, List.map_cons, List.sum_cons, ← listingSize] at hlen
      have hroom : dh.len + fuseDirentSize name.length ≤ 0xffffffff := by lia
      have hstep := h.fillDir conf nodeOf junk hroom
      rw [← hjunk] at hstep
      have hnext : (Libfuse.fillDir conf nodeOf (grow k) dh name none 0).2.len =
          dh.len + fuseDirentSize name.length := by
        rw [hstep.len, List.flatMap_append, List.length_append, ← h.len,
          List.flatMap_singleton, length_direntOf (by lia)]
      have hrun := ih hstep (k + 1) (by lia)
      rw [hnext, List.append_assoc] at hrun
      exact hrun

/-!
## The kernel's reader
-/

/-- The requests of a listing: each goes on at the offset of the last entry of the reply
before it, until a reply has none. -/
def listDir (read : Nat -> Nat -> DirHandle -> Except Int (List Byte) × DirHandle) :
    Nat -> Nat -> Nat -> DirHandle -> Except Int (List Dirent)
  | 0, _, _, _ => .ok []
  | rounds + 1, k, off, dh =>
      match read k off dh with
      | (.error err, _) => .error err
      | (.ok text, dh) =>
          match Library.frames takeDirent text with
          | [] => .ok []
          | d :: ds =>
              match listDir read rounds (k + 1) (ds.getLastD d).off dh with
              | .error err => .error err
              | .ok rest => .ok ((d :: ds) ++ rest)

theorem off_entriesFrom {conf : DirConfig} {nodeOf : CString -> Option Nat}
    {names : List CString} {pos : Nat} (hsmall : pos + listingSize names ≤ 0xffffffff)
    {front back : List Dirent} {d : Dirent}
    (h : entriesFrom conf nodeOf pos names = front ++ d :: back) :
    d.off = pos + ((front ++ [d]).flatMap fuseAddDirent).length := by
  induction names generalizing pos front with
  | nil =>
      have hnil := congrArg List.length h
      simp [entriesFrom] at hnil
  | cons name names ih =>
      rw [listingSize, List.map_cons, List.sum_cons, ← listingSize] at hsmall
      have hsize : forall off, (fuseAddDirent (direntOf conf nodeOf name none off)).length =
          fuseDirentSize name.length := fun off => length_direntOf (by lia)
      rw [entriesFrom] at h
      cases front with
      | nil =>
          rw [List.nil_append] at h ⊢
          have hd := (List.cons.inj h).1
          rw [← hd, List.flatMap_singleton, hsize]
          exact Nat.mod_eq_of_lt (Nat.lt_of_le_of_lt (by lia) (by decide : 0xffffffff < 256 ^ 8))
      | cons e front =>
          rcases List.cons.inj h with ⟨hhead, htail⟩
          rw [List.cons_append, List.flatMap_cons, List.length_append, ← hhead, hsize,
            ih (by lia) htail]
          lia

section Listing

variable {conf : DirConfig} {nodeOf : CString -> Option Nat} {names : List CString}

theorem listDir_step (hsmall : listingSize names ≤ 0xffffffff) {front back : List Dirent}
    (hds : entriesFrom conf nodeOf 0 names = front ++ back) {size : Nat}
    (hsize : forall d, d ∈ back -> (fuseAddDirent d).length ≤ size)
    {read : Nat -> Nat -> DirHandle -> Except Int (List Byte) × DirHandle}
    {k off rounds : Nat} {dh dh' : DirHandle}
    (hread : read k off dh = (.ok ((back.flatMap fuseAddDirent).take size), dh')) :
    (back = [] ∧ listDir read (rounds + 1) k off dh = .ok []) ∨
      exists got rest, got ≠ [] ∧ back = got ++ rest ∧
        forall tail, listDir read rounds (k + 1)
            ((front ++ got).flatMap fuseAddDirent).length dh' = .ok tail ->
          listDir read (rounds + 1) k off dh = .ok (got ++ tail) := by
  rcases framing_dirent.exists_frames_take hsize with ⟨got, rest, hsplit, hframes, hnone⟩
  cases got with
  | nil =>
      refine Or.inl ⟨hnone rfl, ?_⟩
      simp only [listDir, hread, hframes]
  | cons d ds =>
      refine Or.inr ⟨d :: ds, rest, List.cons_ne_nil _ _, hsplit, ?_⟩
      intro tail htail
      -- The last entry of the reply holds the place behind it.
      rcases List.getLast?_eq_some_iff.mp (List.getLast?_cons : (d :: ds).getLast? = _) with
        ⟨init, hinit⟩
      rw [← List.getLastD_eq_getLast?] at hinit
      have hoff : (ds.getLastD d).off =
          ((front ++ d :: ds).flatMap fuseAddDirent).length := by
        have hplace : entriesFrom conf nodeOf 0 names =
            (front ++ init) ++ ds.getLastD d :: rest := by
          rw [hds, hsplit, hinit]
          simp
        have h := off_entriesFrom (by lia) hplace
        rw [h, Nat.zero_add, List.append_assoc, ← hinit]
      simp only [listDir, hread, hframes, hoff, htail]

/-- The requests behind the first one are served from the buffer. -/
theorem listDir_filled (hsmall : listingSize names ≤ 0xffffffff) {sizes : Nat -> Nat}
    (hsizes : forall k d, d ∈ entriesFrom conf nodeOf 0 names ->
      (fuseAddDirent d).length ≤ sizes k)
    {read : Nat -> Nat -> DirHandle -> Except Int (List Byte) × DirHandle} {dh : DirHandle}
    (hread : forall k off, off ≠ 0 -> read k off dh =
      (.ok ((((entriesFrom conf nodeOf 0 names).flatMap fuseAddDirent).drop off).take
        (sizes k)), dh))
    (front back : List Dirent) (hfront : front ≠ [])
    (hds : entriesFrom conf nodeOf 0 names = front ++ back) {rounds : Nat}
    (hrounds : back.length < rounds) (k : Nat) :
    listDir read rounds k (front.flatMap fuseAddDirent).length dh = .ok back := by
  induction rounds generalizing front back k with
  | zero => cases hrounds
  | succ rounds ih =>
      have hne : (front.flatMap fuseAddDirent).length ≠ 0 := by
        cases front with
        | nil => exact absurd rfl hfront
        | cons d front =>
            have hpos := framing_dirent.nonempty d
            rw [List.flatMap_cons, List.length_append]
            lia
      have hpiece : ((entriesFrom conf nodeOf 0 names).flatMap fuseAddDirent).drop
          (front.flatMap fuseAddDirent).length = back.flatMap fuseAddDirent := by
        rw [hds, List.flatMap_append, List.drop_left]
      have hreply := hread k _ hne
      rw [hpiece] at hreply
      have hback : forall d, d ∈ back -> (fuseAddDirent d).length ≤ sizes k := by
        intro d hd
        apply hsizes k d
        rw [hds]
        exact List.mem_append_right _ hd
      rcases listDir_step hsmall hds hback hreply with
        ⟨hnil, hlist⟩ | ⟨got, rest, hgot, hsplit, hstep⟩
      · rw [hlist, hnil]
      · rw [hsplit]
        have hlen : rest.length < rounds := by
          have hpos := List.length_pos_iff.mpr hgot
          rw [hsplit, List.length_append] at hrounds
          lia
        refine hstep rest (ih (front ++ got) rest ?_ ?_ hlen (k + 1))
        · exact List.append_ne_nil_of_left_ne_nil hfront got
        · rw [hds, hsplit, List.append_assoc]

end Listing

section Snapshot

variable {ρ : Type} [UserRep ρ]

theorem Filled.piece {dh : DirHandle} {ds : List Dirent} (h : Filled dh ds) (size off : Nat) :
    (if off < dh.len then
        ((.ok ((dh.contents.drop off).take (if off + size > dh.len then dh.len - off else size)),
          dh) : Except Int (List Byte) × DirHandle)
      else (.ok [], dh)) =
      (.ok (((ds.flatMap fuseAddDirent).drop off).take size), dh) := by
  split
  · have hmin : (if off + size > dh.len then dh.len - off else size) =
        min size (dh.len - off) := by
      split <;> lia
    rw [hmin, ← h.entries, List.drop_take, List.take_take]
  · rw [List.drop_eq_nil_of_le (by rw [← h.len]; lia), List.take_nil]

theorem Filled.fuseLibReaddir_eq {dh : DirHandle} {ds : List Dirent} (h : Filled dh ds)
    (conf : DirConfig) (nodeOf : CString -> Option Nat) (grow : Nat -> Option (Nat -> Byte))
    (path : Except Int Path) (p : Process ρ) (size : Nat) {off : Nat} (hoff : off ≠ 0) :
    fuseLibReaddir conf nodeOf grow path p size off dh =
      (.ok (((ds.flatMap fuseAddDirent).drop off).take size), dh) := by
  rw [← h.piece size off]
  simp only [fuseLibReaddir, if_neg hoff, h.filled, if_true, ne_eq, not_true_eq_false, if_false]

theorem fuseLibReaddir_first (conf : DirConfig) (nodeOf : CString -> Option Nat)
    {grow : Nat -> Option (Nat -> Byte)} (hgrow : forall k, grow k ≠ none) {path : Path}
    {p : Process ρ} (hok : (shReaddir p path).1 = 0)
    (hsmall : listingSize (shReaddir p path).2 ≤ 0xffffffff) {dh : DirHandle}
    (hdh : dh.contents.length ≤ 0xffffffff) (size : Nat) :
    exists dh', Filled dh' (entriesFrom conf nodeOf 0 (shReaddir p path).2) ∧
      fuseLibReaddir conf nodeOf grow (.ok path) p size 0 dh =
        (.ok (((entriesFrom conf nodeOf 0 (shReaddir p path).2).flatMap fuseAddDirent).take
          size), dh') := by
  have hstart : Filled ⟨dh.contents, 0, size % 4294967296, true, 0⟩ [] :=
    ⟨List.take_zero, rfl, Nat.zero_le _, hdh, rfl, rfl⟩
  have hrun := hstart.fillNames conf nodeOf hgrow (shReaddir p path).2 0 (by lia)
  rw [List.nil_append] at hrun
  refine ⟨_, hrun, ?_⟩
  refine Eq.trans ?_ (hrun.piece size 0)
  simp only [fuseLibReaddir, readdirFill, if_true, Bool.false_eq_true, if_false, hok, hrun.error,
    hrun.filled, ne_eq, not_true_eq_false]

theorem map_name_entriesFrom {conf : DirConfig} {nodeOf : CString -> Option Nat}
    {names : List CString} (h : listingSize names ≤ 0xffffffff) (pos : Nat) :
    (entriesFrom conf nodeOf pos names).map Dirent.name = names.map CString.bytes := by
  induction names generalizing pos with
  | nil => rfl
  | cons name names ih =>
      rw [listingSize, List.map_cons, List.sum_cons, ← listingSize] at h
      have hhead : nameOffset + name.length ≤ fuseDirentSize name.length := le_direntAlign _
      rw [entriesFrom, List.map_cons, List.map_cons, direntOf_name (by lia), ih (by lia)]

theorem length_of_mem_entriesFrom {conf : DirConfig} {nodeOf : CString -> Option Nat}
    {names : List CString} (h : listingSize names ≤ 0xffffffff) {pos : Nat} {d : Dirent}
    (hd : d ∈ entriesFrom conf nodeOf pos names) :
    exists name, name ∈ names ∧ (fuseAddDirent d).length = fuseDirentSize name.length := by
  induction names generalizing pos with
  | nil => cases hd
  | cons name names ih =>
      rw [listingSize, List.map_cons, List.sum_cons, ← listingSize] at h
      rw [entriesFrom] at hd
      rcases List.mem_cons.mp hd with hfirst | hlater
      · rw [hfirst]
        exact ⟨name, List.mem_cons_self, length_direntOf (by lia)⟩
      · rcases ih (by lia) hlater with ⟨other, hother, hlength⟩
        exact ⟨other, List.mem_cons_of_mem name hother, hlength⟩

/-- The kernel gets the names of the first request, each once and in order, however it cuts
its requests and whatever happens to the users in between; the buffer then holds their
entries within its block. -/
theorem listing_snapshot (conf : DirConfig) (nodeOf : Nat -> CString -> Option Nat)
    (grow : Nat -> Nat -> Option (Nat -> Byte)) (hgrow : forall k l, grow k l ≠ none)
    (path : Path) (p : Nat -> Process ρ) (hok : (shReaddir (p 0) path).1 = 0)
    (hsmall : listingSize (shReaddir (p 0) path).2 ≤ 0xffffffff) (sizes : Nat -> Nat)
    (hsizes : forall k name, name ∈ (shReaddir (p 0) path).2 ->
      fuseDirentSize name.length ≤ sizes k)
    (dh : DirHandle) (hdh : dh.contents.length ≤ 0xffffffff) (rounds : Nat)
    (hrounds : (shReaddir (p 0) path).2.length < rounds) :
    exists ds, listDir (fun k off dh => fuseLibReaddir conf (nodeOf k) (grow k) (.ok path)
        (p k) (sizes k) off dh) rounds 0 0 dh = .ok ds ∧
      ds.map Dirent.name = (shReaddir (p 0) path).2.map CString.bytes ∧
      Filled (fuseLibReaddir conf (nodeOf 0) (grow 0) (.ok path) (p 0) (sizes 0) 0 dh).2
        ds := by
  rcases fuseLibReaddir_first conf (nodeOf 0) (hgrow 0) hok hsmall hdh (sizes 0) with
    ⟨dh', hfilled, hfirst⟩
  generalize hnames : (shReaddir (p 0) path).2 = names at hsmall hsizes hrounds hfilled hfirst
  have hall : forall k d, d ∈ entriesFrom conf (nodeOf 0) 0 names ->
      (fuseAddDirent d).length ≤ sizes k := by
    intro k d hd
    rcases length_of_mem_entriesFrom hsmall hd with ⟨name, hname, hlength⟩
    rw [hlength]
    exact hsizes k name hname
  have hlength : (entriesFrom conf (nodeOf 0) 0 names).length = names.length := by
    rw [← List.length_map, map_name_entriesFrom hsmall 0, List.length_map]
  have hholds : Filled (fuseLibReaddir conf (nodeOf 0) (grow 0) (.ok path) (p 0) (sizes 0) 0
      dh).2 (entriesFrom conf (nodeOf 0) 0 names) := by
    rw [hfirst]
    exact hfilled
  refine ⟨entriesFrom conf (nodeOf 0) 0 names, ?_, map_name_entriesFrom hsmall 0, hholds⟩
  generalize hread : (fun k off dh => fuseLibReaddir conf (nodeOf k) (grow k) (.ok path)
    (p k) (sizes k) off dh) = read
  have hreply : read 0 0 dh = (.ok (((entriesFrom conf (nodeOf 0) 0 names).flatMap
      fuseAddDirent).take (sizes 0)), dh') := by
    rw [← hread]
    exact hfirst
  have hlater : forall k off, off ≠ 0 -> read k off dh' =
      (.ok ((((entriesFrom conf (nodeOf 0) 0 names).flatMap fuseAddDirent).drop off).take
        (sizes k)), dh') := by
    intro k off hoff
    rw [← hread]
    exact hfilled.fuseLibReaddir_eq conf (nodeOf k) (grow k) (.ok path) (p k) (sizes k) hoff
  cases rounds with
  | zero => cases hrounds
  | succ rounds =>
      have hwhole : entriesFrom conf (nodeOf 0) 0 names =
          [] ++ entriesFrom conf (nodeOf 0) 0 names := rfl
      rcases listDir_step hsmall hwhole (hall 0) hreply with
        ⟨hnil, hlist⟩ | ⟨got, rest, hgot, hsplit, hstep⟩
      · rw [hlist, hnil]
      · rw [hsplit]
        refine hstep rest (listDir_filled hsmall hall hlater ([] ++ got) rest hgot hsplit ?_ 1)
        have hpos := List.length_pos_iff.mpr hgot
        rw [hsplit, List.length_append] at hlength
        lia

end Snapshot

/-- The root directory is read in pieces of one entry each; the user is gone after the first
of them. -/
theorem listing_snapshot_bin :
    exists ds, listDir (fun k off dh => fuseLibReaddir ⟨false, false⟩ (fun _ => none)
        (fun _ => some (fun _ => 0)) (.ok (Path.of (CString.lit "") []))
        (plainProcess (if k = 0 then [binUser] else [])) 40 off dh) 5 0 0
        ⟨[], 0, 0, false, 0⟩ = .ok ds ∧
      ds.map Dirent.name = [ascii ".", ascii "..", ascii "sh_file", ascii "bin"] ∧
      Filled (fuseLibReaddir ⟨false, false⟩ (fun _ => none) (fun _ => some (fun _ => 0))
        (.ok (Path.of (CString.lit "") [])) (plainProcess [binUser]) 40 0
        ⟨[], 0, 0, false, 0⟩).2 ds :=
  listing_snapshot ⟨false, false⟩ (fun _ _ => none) (fun _ _ => some (fun _ => 0))
    (fun _ _ => Option.some_ne_none _) (Path.of (CString.lit "") [])
    (fun k => plainProcess (if k = 0 then [binUser] else [])) rfl (by decide) (fun _ => 40)
    (fun _ => by decide) ⟨[], 0, 0, false, 0⟩ (by decide) 5 (by decide)

end ShadowFs.Libfuse

import ShadowFs.Callbacks.Names

/-!
# Resolving a path

Which paths `sh_getattr` takes for attribute files.  The grammar is a slash, a
user name, a slash and one of the eight attribute names.  The name is copied
with a bound of nine bytes while names of up to fifteen bytes are accepted, so
the grammar is met exactly as long as every user name has at most eight bytes:
a ninth byte lets any byte stand in for the second slash, and longer names are
cut before they are looked up.
-/

namespace ShadowFs

open CLib UserRep

section Resolution

variable {ρ : Type} [UserRep ρ]

/-- User names as the directory of users can show them. -/
structure ValidName (name : CString) : Prop where
  nonempty : name.bytes ≠ []
  noSlash : slash ∉ name.bytes
  fits : name.length ≤ 15

instance (name : CString) : Decidable (ValidName name) :=
  decidable_of_iff (name.bytes ≠ [] ∧ slash ∉ name.bytes ∧ name.length ≤ 15)
    ⟨fun h => ⟨h.1, h.2.1, h.2.2⟩, fun h => ⟨h.nonempty, h.noSlash, h.fits⟩⟩

def ReportsRegular (p : Process ρ) (path : Path) : Prop :=
  (shGetattr p path).1 = 0 ∧ (shGetattr p path).2.isRegular

/-- A path is reported as a regular file if and only if it is `/u/a` for a user
`u` of the store and an attribute `a`, and then `u` is the record consulted. -/
def ResolvesExactly (p : Process ρ) (path : Path) : Prop :=
  (ReportsRegular p path <->
      exists u a, u ∈ p.root ∧ path.name = fileOf (username u) (Attr.fileName a)) ∧
    (ReportsRegular p path ->
      exists u a, findRecord p.root (unameOf path.toCBuffer) = some u ∧
        path.name = fileOf (username u) (Attr.fileName a) ∧
        (shGetattr p path).2.size = (isAttr (Attr.fileName a) u).toNat)

/-!
## What is reported as a regular file
-/

theorem reportsRegular_iff {p : Process ρ} {path : Path}
    (hfile : path.name ≠ CString.lit "sh_file") :
    ReportsRegular p path <->
      Reaches p.root path.name ∧ attrOf (attrText path.name) ≠ none := by
  by_cases hroot : path.name.bytes = []
  · rw [ReportsRegular, shGetattr_root hroot]
    constructor
    · intro h
      exact absurd h.2 (by decide)
    · intro h
      exact absurd hroot h.1.2.1
  · by_cases hname : findUser p.root path.name = none
    · by_cases hhead : findUser p.root (headName path.name) = none
      · rw [ReportsRegular, shGetattr_other hroot hname hhead, if_neg hfile]
        constructor
        · intro h
          exact absurd h.1 (by decide)
        · intro h
          exact absurd hhead h.1.2.2
      · rcases findUser_ne_none_iff_findRecord.mp hhead with ⟨u, hu⟩
        rw [ReportsRegular, shGetattr_file hroot hname hu]
        by_cases hattr : attrOf (attrText path.name) = none
        · rw [if_pos hattr]
          constructor
          · intro h
            exact absurd h.1 (by decide)
          · intro h
            exact absurd hattr h.2
        · rw [if_neg hattr]
          constructor
          · intro _
            exact ⟨⟨hname, hroot, hhead⟩, hattr⟩
          · intro _
            exact ⟨rfl, show (S_IFREG ||| 0o666) &&& S_IFMT = S_IFREG by decide⟩
    · rw [ReportsRegular, shGetattr_user hroot hname]
      constructor
      · intro h
        exact absurd h.2 (show ¬ (S_IFDIR ||| 0o755) &&& S_IFMT = S_IFREG by decide)
      · intro h
        exact absurd h.1.1 hname

theorem findUser_of_slash {sf : List ρ} (hsf : forall u, u ∈ sf -> ValidName (username u))
    {name : CString} (h : slash ∈ name.bytes) : findUser sf name = none := by
  rw [findUser_eq_none_iff]
  intro u hu heq
  rw [← heq] at h
  exact (hsf u hu).noSlash h

theorem fileOf_ne_shFile (user file : CString) :
    fileOf user file ≠ CString.lit "sh_file" := by
  intro h
  have hmem := slash_mem_fileOf user file
  rw [h] at hmem
  exact absurd hmem (by decide)

theorem reaches_fileOf {sf : List ρ}
    (hsf : forall u, u ∈ sf -> ValidName (username u)) {u : ρ} (hu : u ∈ sf)
    (hlen : (username u).length ≤ 9) (file : CString) :
    Reaches sf (fileOf (username u) file) := by
  refine ⟨findUser_of_slash hsf (slash_mem_fileOf _ _), ?_, ?_⟩
  · intro h
    have hmem := slash_mem_fileOf (username u) file
    rw [h] at hmem
    cases hmem
  · rw [headName_fileOf file (hsf u hu).noSlash hlen]
    exact findUser_ne_none_of_mem hu

/-- The record with the copied name, when that name is short: the path is the
copied name, a slash and the attribute text. -/
theorem Reaches.eq_fileOf {sf : List ρ} {name : CString} (h : Reaches sf name)
    (hshort : forall u, u ∈ sf -> (username u).length ≤ 8) :
    exists u, findRecord sf (headName name) = some u ∧ u ∈ sf ∧
      name = fileOf (username u) (attrText name) := by
  rcases h.exists_firstMatch with ⟨front, u, back, hm⟩
  refine ⟨u, hm.findRecord_eq, hm.mem, ?_⟩
  have hlen : (headName name).length ≤ 8 := by
    rw [← hm.found]
    exact hshort u hm.mem
  rw [hm.found]
  exact eq_fileOf_of_headName hlen (headName_lt_of_reach h.1 h.2.2)

/-!
## The grammar for short names
-/

theorem resolvesExactly_of_short {p : Process ρ}
    (hp : forall u, u ∈ p.root -> ValidName (username u))
    (hshort : forall u, u ∈ p.root -> (username u).length ≤ 8) {path : Path}
    (hfile : path.name ≠ CString.lit "sh_file") : ResolvesExactly p path := by
  have hregular := reportsRegular_iff (p := p) hfile
  have hconsulted : ReportsRegular p path ->
      exists u a, findRecord p.root (headName path.name) = some u ∧ u ∈ p.root ∧
        path.name = fileOf (username u) (Attr.fileName a) ∧
        attrText path.name = Attr.fileName a := by
    intro h
    have hreach := (hregular.mp h).1
    rcases hreach.eq_fileOf hshort with ⟨u, hrecord, hu, hname⟩
    cases hattr : attrOf (attrText path.name) with
    | none => exact absurd hattr (hregular.mp h).2
    | some a =>
        have htext := attrOf_eq_some_iff.mp hattr
        rw [htext] at hname
        exact ⟨u, a, hrecord, hu, hname, htext⟩
  refine ⟨⟨?_, ?_⟩, ?_⟩
  · intro h
    rcases hconsulted h with ⟨u, a, _, hu, hname, _⟩
    exact ⟨u, a, hu, hname⟩
  · rintro ⟨u, a, hu, hname⟩
    have hslash := (hp u hu).noSlash
    have hlen : (username u).length ≤ 9 := Nat.le_succ_of_le (hshort u hu)
    rw [hregular, hname, attrText_fileOf _ hslash hlen, attrOf_fileName]
    exact ⟨reaches_fileOf hp hu hlen _, by simp⟩
  · intro h
    rcases hconsulted h with ⟨u, a, hrecord, hu, hname, htext⟩
    have hreach := (hregular.mp h).1
    refine ⟨u, a, ?_, hname, ?_⟩
    · rw [path.unameOf_eq]
      exact hrecord
    · rw [shGetattr_file hreach.2.1 hreach.1 hrecord, if_neg (hregular.mp h).2, htext]

/-!
## Longer names
-/

/-- The name that stands for `/u/password-hash` without being it. -/
def decoy (user : CString) : CString :=
  user ++ CString.lit "-" ++ CString.lit "password-hash"

theorem decoy_bytes (user : CString) :
    (decoy user).bytes = user.bytes ++ 45 :: (Attr.fileName .passwordHash).bytes := by
  have hdash : (CString.lit "-").bytes = [45] := by decide
  simp [decoy, hdash, Attr.fileName]

theorem decoy_length (user : CString) : (decoy user).length = user.length + 14 := by
  show (decoy user).bytes.length = user.bytes.length + 14
  have hlen : (Attr.fileName .passwordHash).bytes.length = 13 := by decide
  rw [decoy_bytes, List.length_append, List.length_cons, hlen]

theorem slash_not_mem_decoy {user : CString} (h : slash ∉ user.bytes) :
    slash ∉ (decoy user).bytes := by
  have hfile := slash_not_mem_fileName .passwordHash
  have hdash : slash ≠ 45 := by decide
  rw [decoy_bytes]
  simp [h, hfile, hdash]

theorem headName_decoy {user : CString} (hslash : slash ∉ user.bytes)
    (hlen : user.length = 9) : headName (decoy user) = user := by
  have hlen' : user.bytes.length = 9 := hlen
  ext1
  show ((decoy user).bytes.take 9).takeWhile (fun b => b ≠ slash) = user.bytes
  rw [decoy_bytes, ← hlen', List.take_left]
  exact List.takeWhile_eq_self_iff.mpr (forall_ne_of_not_mem hslash)

theorem attrText_decoy {user : CString} (hslash : slash ∉ user.bytes)
    (hlen : user.length = 9) :
    attrText (decoy user) = Attr.fileName .passwordHash := by
  ext1
  show (decoy user).bytes.drop ((headName (decoy user)).length + 1) = _
  rw [headName_decoy hslash hlen, decoy_bytes, CString.length]
  have hcons : user.bytes ++ 45 :: (Attr.fileName .passwordHash).bytes =
      (user.bytes ++ [45]) ++ (Attr.fileName .passwordHash).bytes := by
    simp
  rw [hcons]
  exact List.drop_left' (by simp)

/-- A user name of nine bytes: the decoy is taken for an attribute file. -/
theorem reportsRegular_decoy {p : Process ρ}
    (hp : forall u, u ∈ p.root -> ValidName (username u)) {u : ρ} (hu : u ∈ p.root)
    (hlen : (username u).length = 9) {path : Path}
    (hpath : path.name = decoy (username u)) :
    path.name ≠ CString.lit "sh_file" ∧ ReportsRegular p path := by
  have hslash := (hp u hu).noSlash
  have hlong : path.name.length = 23 := by
    rw [hpath, decoy_length, hlen]
  have hfile : path.name ≠ CString.lit "sh_file" := by
    intro h
    rw [h] at hlong
    exact absurd hlong (by decide)
  refine ⟨hfile, (reportsRegular_iff hfile).mpr ⟨⟨?_, ?_, ?_⟩, ?_⟩⟩
  · rw [findUser_eq_none_iff]
    intro v hv heq
    have hfits := (hp v hv).fits
    rw [heq, hlong] at hfits
    exact absurd hfits (by decide)
  · intro h
    have hzero : path.name.length = 0 := congrArg List.length h
    rw [hlong] at hzero
    cases hzero
  · rw [hpath, headName_decoy hslash hlen]
    exact findUser_ne_none_of_mem hu
  · rw [hpath, attrText_decoy hslash hlen, attrOf_fileName]
    simp

/-- A user name of ten bytes or more: its attribute files are not found. -/
theorem not_reportsRegular_of_long {p : Process ρ} {u : ρ}
    (hlen : 10 ≤ (username u).length) (file : CString) {path : Path}
    (hpath : path.name = fileOf (username u) file) : ¬ ReportsRegular p path := by
  have hlen' : 10 ≤ (username u).bytes.length := hlen
  have hfile : path.name ≠ CString.lit "sh_file" := by
    rw [hpath]
    exact fileOf_ne_shFile _ _
  rw [reportsRegular_iff hfile]
  rintro ⟨_, hattr⟩
  apply hattr
  rw [attrOf_eq_none_iff]
  intro a ha
  -- The attribute text still contains the slash behind the user name.
  have hhead : (headName path.name).bytes.length ≤ 9 := headName_length_le_nine path.name
  have hmem : slash ∈ (attrText path.name).bytes := by
    show slash ∈ path.name.bytes.drop ((headName path.name).bytes.length + 1)
    rw [hpath, fileOf_bytes, List.drop_append_of_le_length]
    · simp
    · rw [← hpath]
      lia
  rw [ha] at hmem
  exact slash_not_mem_fileName a hmem

/-!
## The grammar is met exactly for short names
-/

/-- For a store with valid names, every path other than `/sh_file` is resolved by
the grammar if and only if no user name has more than eight bytes. -/
theorem resolvesExactly_iff (p : Process ρ)
    (hp : forall u, u ∈ p.root -> ValidName (username u)) :
    (forall path : Path, path.name ≠ CString.lit "sh_file" -> ResolvesExactly p path) <->
      forall u, u ∈ p.root -> (username u).length ≤ 8 := by
  constructor
  · intro h u hu
    by_contra hlong
    by_cases hnine : (username u).length = 9
    · have hpath : (Path.of (decoy (username u)) []).name = decoy (username u) :=
        Path.name_of _ _
      rcases reportsRegular_decoy hp hu hnine hpath with ⟨hfile, hregular⟩
      rcases (h _ hfile).1.mp hregular with ⟨v, a, _, hname⟩
      have hmem := slash_mem_fileOf (username v) a.fileName
      rw [← hname, hpath] at hmem
      exact slash_not_mem_decoy (hp u hu).noSlash hmem
    · have hten : 10 ≤ (username u).length := by lia
      have hpath : (Path.of (fileOf (username u) (Attr.fileName .passwordHash)) []).name =
          fileOf (username u) (Attr.fileName .passwordHash) := Path.name_of _ _
      have hfile : (Path.of (fileOf (username u) (Attr.fileName .passwordHash)) []).name ≠
          CString.lit "sh_file" := by
        rw [hpath]
        exact fileOf_ne_shFile _ _
      exact not_reportsRegular_of_long hten _ hpath
        ((h _ hfile).1.mpr ⟨u, .passwordHash, hu, hpath⟩)
  · intro hshort path hfile
    exact resolvesExactly_of_short hp hshort hfile

end Resolution

theorem binUser_validName : ValidName binUser.username :=
  by decide

theorem resolvesExactly_binUser :
    ResolvesExactly (plainProcess [binUser])
      (Path.of (CString.lit "bin/reserved") []) := by
  refine (resolvesExactly_iff (plainProcess [binUser]) ?_).mpr ?_ _ ?_
  · intro u hu
    rw [List.mem_singleton.mp hu]
    exact binUser_validName
  · intro u hu
    rw [List.mem_singleton.mp hu]
    decide
  · decide

def longUser : User :=
  { binUser with username := CString.lit "administrator" }

theorem longUser_validName : ValidName longUser.username :=
  by decide

/-- The hash of a user with a long name is not found under its path. -/
theorem not_resolvesExactly_longUser :
    (forall u, u ∈ (plainProcess [longUser]).root -> ValidName (username u)) ∧
      ¬ ResolvesExactly (plainProcess [longUser])
        (Path.of (CString.lit "administrator/password-hash") []) := by
  constructor
  · intro u hu
    rw [List.mem_singleton.mp hu]
    exact longUser_validName
  · intro h
    have hregular := h.1.mpr ⟨longUser, .passwordHash, by simp [plainProcess], by decide⟩
    exact absurd hregular.1 (by decide)

end ShadowFs

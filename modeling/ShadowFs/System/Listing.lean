import ShadowFs.Callbacks.Lookup
import ShadowFs.System.Uniqueness

/-!
# Listing and lookup

`sh_readdir` writes its entries by hand and `sh_getattr` resolves paths through
two lookups and the copied name.  The two views of a directory agree if and only
if three things hold of the store: no listed name belongs to two users, no user
name is too long for the copy, and every user that a lookup finds has a
`reserved` text.  The last one separates the views because `sh_readdir` leaves
the file out when the pointer is null, while `is_attr` reports it with size zero.

Since a new user has no such text, the views part with the first `sh_mkdir`.  They
stay together in a run that creates no user, unlinks no `reserved` file and renames
users to free names of at most eight bytes only.
-/

namespace ShadowFs

open CLib UserRep

section Listing

variable {ρ : Type} [UserRep ρ]

/-- The names a directory entry can have, apart from the two dots. -/
structure EntryName (n : CString) : Prop where
  nonempty : n.bytes ≠ []
  noSlash : slash ∉ n.bytes
  notDot : n ≠ CString.lit "."
  notDots : n ≠ CString.lit ".."

/-- The entry `n` of `dir`, whose own path is `file`, is listed once if it is
found and not at all if it is not. -/
def EntryAgrees (p : Process ρ) (dir file : Path) (n : CString) : Prop :=
  ((shGetattr p file).1 = 0 -> (shReaddir p dir).2.count n = 1) ∧
    ((shGetattr p file).1 ≠ 0 -> (shReaddir p dir).2.count n = 0)

/-- The views agree on the root directory and on the directory of every user. -/
structure ListsExactly (p : Process ρ) : Prop where
  root : forall n, EntryName n -> forall dir file : Path,
    dir.name.bytes = [] -> file.name = n -> EntryAgrees p dir file n
  user : forall n, EntryName n -> forall u, u ∈ p.root -> forall dir file : Path,
    dir.name = username u -> file.name = fileOf (username u) n ->
    EntryAgrees p dir file n

/-- The stores on which the two views agree. -/
structure Listable (sf : List ρ) : Prop where
  once : forall n, n ≠ CString.lit "." -> n ≠ CString.lit ".." ->
    (sf.map username).count n ≤ 1
  short : forall u, u ∈ sf -> (username u).length ≤ 8
  shown : forall name u, findRecord sf name = some u -> reserved u ≠ none

/-!
## The listings
-/

/-- The files of a user directory that are always listed. -/
def listedAttrs : List Attr :=
  [.passwordHash, .daysSinceChanged, .daysUntilCanChange, .daysUntilMustChange,
    .daysBeforeWarning, .daysUntilExpiration, .daysSinceAccountDeactivated]

theorem shReaddir_root {p : Process ρ} {dir : Path} (h : dir.name.bytes = []) :
    (shReaddir p dir).2 =
      [CString.lit ".", CString.lit "..", CString.lit "sh_file"] ++
        p.root.map username := by
  rw [shReaddir, if_pos (dir.str_eq_root_iff.mpr h)]

theorem shReaddir_user {p : Process ρ} {dir : Path} {u : ρ} (h : dir.name.bytes ≠ [])
    (hu : findRecord p.root dir.name = some u) :
    (shReaddir p dir).2 =
      [CString.lit ".", CString.lit ".."] ++ listedAttrs.map Attr.fileName ++
        (if reserved u ≠ none then [CString.lit "reserved"] else []) := by
  have hroot := dir.str_ne_root h
  have hname : dir.strAt 1 = dir.name := rfl
  simp only [shReaddir, if_neg hroot, hname, hu]
  rfl

theorem count_shReaddir_root {p : Process ρ} {dir : Path} (h : dir.name.bytes = [])
    {n : CString} (hn : EntryName n) :
    (shReaddir p dir).2.count n =
      (if n = CString.lit "sh_file" then 1 else 0) + (p.root.map username).count n := by
  rw [shReaddir_root h, List.count_append]
  congr 1
  simp only [List.count_cons, List.count_nil, beq_iff_eq, hn.notDot.symm, hn.notDots.symm,
    if_false]
  simp only [eq_comm, Nat.zero_add, Nat.add_zero]

theorem count_shReaddir_attr {p : Process ρ} {dir : Path} {u : ρ}
    (h : dir.name.bytes ≠ []) (hu : findRecord p.root dir.name = some u) (a : Attr) :
    (shReaddir p dir).2.count a.fileName =
      if a = .reserved ∧ reserved u = none then 0 else 1 := by
  rw [shReaddir_user h hu]
  by_cases hres : reserved u = none
  · rw [if_neg (by simpa using hres)]
    cases a <;> simp only [hres, and_true, reduceCtorEq, if_false, if_true] <;> decide
  · rw [if_pos hres]
    cases a <;> simp only [hres, and_false, if_false] <;> decide

theorem count_userListing {p : Process ρ} {u v : ρ} (h : (username u).bytes ≠ [])
    (hv : findRecord p.root (username u) = some v) (a : Attr) :
    (shReaddir p (Path.of (username u) [])).2.count a.fileName =
      if a = .reserved ∧ reserved v = none then 0 else 1 := by
  apply count_shReaddir_attr
  · rw [Path.name_of]
    exact h
  · rw [Path.name_of]
    exact hv

theorem count_shReaddir_other {p : Process ρ} {dir : Path} {u : ρ}
    (h : dir.name.bytes ≠ []) (hu : findRecord p.root dir.name = some u)
    {n : CString} (hn : EntryName n) (hattr : attrOf n = none) :
    (shReaddir p dir).2.count n = 0 := by
  have hne := attrOf_eq_none_iff.mp hattr
  have hfiles : n ∉ listedAttrs.map Attr.fileName := by
    intro hmem
    rcases List.mem_map.mp hmem with ⟨a, _, ha⟩
    exact hne a ha.symm
  have hreserved : n ∉ if reserved u ≠ none then [CString.lit "reserved"] else [] := by
    split
    · intro hmem
      exact hne .reserved (List.mem_singleton.mp hmem)
    · simp
  rw [shReaddir_user h hu, List.count_eq_zero]
  simp only [List.mem_append, not_or]
  refine ⟨⟨?_, hfiles⟩, hreserved⟩
  intro hmem
  rcases List.mem_cons.mp hmem with hdot | hmem
  · exact hn.notDot hdot
  · exact hn.notDots (List.mem_singleton.mp hmem)

/-!
## The lookups
-/

theorem reportsRegular_of_found {p : Process ρ} {path : Path}
    (h : path.name.bytes ≠ []) (hnone : findUser p.root path.name = none)
    (hfile : path.name ≠ CString.lit "sh_file") (hfound : (shGetattr p path).1 = 0) :
    ReportsRegular p path := by
  by_cases hhead : findUser p.root (headName path.name) = none
  · rw [shGetattr_other h hnone hhead, if_neg hfile] at hfound
    exact absurd hfound (by decide)
  · rcases findUser_ne_none_iff_findRecord.mp hhead with ⟨u, hu⟩
    refine (reportsRegular_iff hfile).mpr ⟨⟨hnone, h, hhead⟩, ?_⟩
    intro hattr
    rw [shGetattr_file h hnone hu, if_pos hattr] at hfound
    exact absurd hfound (by decide)

/-- With short names nothing in the root directory is mistaken for the file of a
user. -/
theorem shGetattr_entry_of_short {p : Process ρ}
    (hshort : forall u, u ∈ p.root -> (username u).length ≤ 8) {file : Path}
    (hn : EntryName file.name) (hnone : findUser p.root file.name = none) :
    shGetattr p file =
      if file.name = CString.lit "sh_file" then p.lstat p.backingPath
      else (-ENOENT, Stat.zero) := by
  apply shGetattr_other hn.nonempty hnone
  by_contra hhead
  have hreach : Reaches p.root file.name := ⟨hnone, hn.nonempty, hhead⟩
  rcases hreach.eq_fileOf hshort with ⟨u, _, _, hname⟩
  apply hn.noSlash
  rw [hname]
  exact slash_mem_fileOf _ _

theorem shGetattr_fileOf {p : Process ρ} {u v : ρ}
    (hp : forall x, x ∈ p.root -> ValidName (username x)) (hu : u ∈ p.root)
    (hlen : (username u).length ≤ 9) {n : CString} {file : Path}
    (hfile : file.name = fileOf (username u) n)
    (hv : findRecord p.root (username u) = some v) :
    (shGetattr p file).1 = 0 <-> attrOf n ≠ none := by
  have hslash := (hp u hu).noSlash
  have hreach := reaches_fileOf hp hu hlen n
  rw [← hfile] at hreach
  have hrecord : findRecord p.root (headName file.name) = some v := by
    rw [hfile, headName_fileOf n hslash hlen]
    exact hv
  have htext : attrText file.name = n := by
    rw [hfile, attrText_fileOf n hslash hlen]
  rw [shGetattr_file hreach.2.1 hreach.1 hrecord, htext]
  by_cases hattr : attrOf n = none
  · simp [hattr]
  · simp [hattr]

/-!
## Stores on which the views agree
-/

theorem Listable.entryAgrees_root {p : Process ρ} (h : Listable p.root)
    (hlisted : forall u, u ∈ p.root -> username u ≠ CString.lit "sh_file")
    (hstat : (p.lstat p.backingPath).1 = 0) {n : CString} (hn : EntryName n)
    {dir file : Path} (hdir : dir.name.bytes = []) (hfile : file.name = n) :
    EntryAgrees p dir file n := by
  subst hfile
  rw [EntryAgrees, count_shReaddir_root hdir hn]
  by_cases hnone : findUser p.root file.name = none
  · have hzero : (p.root.map username).count file.name = 0 := by
      rw [List.count_eq_zero]
      intro hmem
      rcases List.mem_map.mp hmem with ⟨u, hu, hname⟩
      exact findUser_eq_none_iff.mp hnone u hu hname
    rw [shGetattr_entry_of_short h.short hn hnone, hzero]
    by_cases hsh : file.name = CString.lit "sh_file"
    · simp [hsh, hstat]
    · simp [hsh]
  · rcases exists_firstMatch hnone with ⟨front, u, back, hm⟩
    have hsh : file.name ≠ CString.lit "sh_file" := by
      rw [← hm.found]
      exact hlisted u hm.mem
    have hpos : 0 < (p.root.map username).count file.name := by
      rw [List.count_pos_iff, ← hm.found]
      exact List.mem_map_of_mem hm.mem
    have hone := h.once file.name hn.notDot hn.notDots
    rw [shGetattr_user hn.nonempty hnone, if_neg hsh]
    constructor
    · intro _
      lia
    · intro hne
      exact absurd rfl hne

theorem Listable.entryAgrees_user {p : Process ρ} (h : Listable p.root)
    (hp : forall u, u ∈ p.root -> ValidName (username u)) {n : CString}
    (hn : EntryName n) {u : ρ} (hu : u ∈ p.root) {dir file : Path}
    (hdir : dir.name = username u) (hfile : file.name = fileOf (username u) n) :
    EntryAgrees p dir file n := by
  rcases findUser_ne_none_iff_findRecord.mp (findUser_ne_none_of_mem hu) with ⟨v, hv⟩
  have hlen : (username u).length ≤ 9 := Nat.le_succ_of_le (h.short u hu)
  have hfound := shGetattr_fileOf hp hu hlen hfile hv
  have hnonempty : dir.name.bytes ≠ [] := by
    rw [hdir]
    exact (hp u hu).nonempty
  have hrecord : findRecord p.root dir.name = some v := by
    rw [hdir]
    exact hv
  rw [EntryAgrees, hfound]
  cases hattr : attrOf n with
  | none =>
      refine ⟨fun hne => absurd rfl hne, fun _ => ?_⟩
      exact count_shReaddir_other hnonempty hrecord hn hattr
  | some a =>
      have hsome : attrOf n ≠ none := by
        rw [hattr]
        simp
      refine ⟨fun _ => ?_, fun hne => absurd (hfound.mpr hsome) hne⟩
      have hshown : ¬ (a = .reserved ∧ reserved v = none) :=
        fun hnull => h.shown _ v hv hnull.2
      rw [attrOf_eq_some_iff.mp hattr, count_shReaddir_attr hnonempty hrecord,
        if_neg hshown]

/-!
## Agreement makes a store listable
-/

theorem entryName_fileName (a : Attr) : EntryName a.fileName where
  nonempty := by cases a <;> decide
  noSlash := slash_not_mem_fileName a
  notDot := by cases a <;> decide
  notDots := by cases a <;> decide

theorem entryName_decoy {user : CString} (h : slash ∉ user.bytes) :
    EntryName (decoy user) := by
  have hlen := decoy_length user
  refine ⟨?_, slash_not_mem_decoy h, ?_, ?_⟩
  · intro hnil
    have hzero : (decoy user).length = 0 := congrArg List.length hnil
    lia
  · intro hdot
    rw [hdot] at hlen
    have hone : (CString.lit ".").length = 1 := by decide
    lia
  · intro hdots
    rw [hdots] at hlen
    have htwo : (CString.lit "..").length = 2 := by decide
    lia

/-- A name of nine bytes has a decoy that is found and not listed; the files of a
longer one are listed and not found. -/
theorem ListsExactly.short {p : Process ρ} (h : ListsExactly p)
    (hp : forall u, u ∈ p.root -> ValidName (username u)) {u : ρ} (hu : u ∈ p.root) :
    (username u).length ≤ 8 := by
  by_contra hlong
  rcases findUser_ne_none_iff_findRecord.mp (findUser_ne_none_of_mem hu) with ⟨v, hv⟩
  by_cases hnine : (username u).length = 9
  · have hname : (Path.of (decoy (username u)) []).name = decoy (username u) :=
      Path.name_of _ _
    have hentry := entryName_decoy (hp u hu).noSlash
    rcases reportsRegular_decoy hp hu hnine hname with ⟨hfile, hregular⟩
    have hcount := (h.root _ hentry (Path.of (CString.lit "") []) _ (by decide) hname).1
      hregular.1
    rw [count_shReaddir_root (by decide) hentry, ← hname, if_neg hfile, hname] at hcount
    -- The decoy has 23 bytes, so it is not the name of a user.
    have hmem : decoy (username u) ∈ p.root.map username := by
      rw [← List.count_pos_iff]
      lia
    rcases List.mem_map.mp hmem with ⟨w, hw, hwname⟩
    have hfits := (hp w hw).fits
    rw [hwname, decoy_length] at hfits
    lia
  · have hname : (Path.of (fileOf (username u) (Attr.fileName .passwordHash)) []).name =
        fileOf (username u) (Attr.fileName .passwordHash) := Path.name_of _ _
    have hdir : (Path.of (username u) []).name = username u := Path.name_of _ _
    have hagree := h.user _ (entryName_fileName .passwordHash) u hu _ _ hdir hname
    have hslash : slash ∈ (Path.of (fileOf (username u) (Attr.fileName .passwordHash))
        []).name.bytes := by
      rw [hname]
      exact slash_mem_fileOf _ _
    have hlisted := count_userListing (hp u hu).nonempty hv .passwordHash
    have hfound : (shGetattr p (Path.of (fileOf (username u)
        (Attr.fileName .passwordHash)) [])).1 = 0 := by
      by_contra hne
      rw [hagree.2 hne] at hlisted
      exact absurd hlisted (by simp)
    refine not_reportsRegular_of_long (by lia) _ hname
      (reportsRegular_of_found (List.ne_nil_of_mem hslash) (findUser_of_slash hp hslash)
        ?_ hfound)
    rw [hname]
    exact fileOf_ne_shFile _ _

theorem ListsExactly.once {p : Process ρ} (h : ListsExactly p)
    (hp : forall u, u ∈ p.root -> ValidName (username u))
    (hlisted : forall u, u ∈ p.root -> username u ≠ CString.lit "sh_file")
    {n : CString} (hdot : n ≠ CString.lit ".") (hdots : n ≠ CString.lit "..") :
    (p.root.map username).count n ≤ 1 := by
  by_cases hmem : n ∈ p.root.map username
  · rcases List.mem_map.mp hmem with ⟨u, hu, hname⟩
    subst hname
    have hvalid := hp u hu
    have hentry : EntryName (username u) :=
      ⟨hvalid.nonempty, hvalid.noSlash, hdot, hdots⟩
    have hpath : (Path.of (username u) []).name = username u := Path.name_of _ _
    have hfound : (shGetattr p (Path.of (username u) [])).1 = 0 := by
      rw [shGetattr_user]
      · rw [hpath]
        exact hvalid.nonempty
      · rw [hpath]
        exact findUser_ne_none_of_mem hu
    have hcount :=
      (h.root _ hentry (Path.of (CString.lit "") []) _ (by decide) hpath).1 hfound
    rw [count_shReaddir_root (by decide) hentry, if_neg (hlisted u hu)] at hcount
    lia
  · rw [List.count_eq_zero.mpr hmem]
    decide

theorem ListsExactly.shown {p : Process ρ} (h : ListsExactly p)
    (hp : forall u, u ∈ p.root -> ValidName (username u)) {name : CString} {v : ρ}
    (hv : findRecord p.root name = some v) : reserved v ≠ none := by
  intro hnull
  have hfound : findUser p.root name ≠ none :=
    findUser_ne_none_iff_findRecord.mpr ⟨v, hv⟩
  rcases exists_firstMatch hfound with ⟨front, u, back, hm⟩
  have huser := hm.found
  subst huser
  have hpath : (Path.of (fileOf (username u) (Attr.fileName .reserved)) []).name =
      fileOf (username u) (Attr.fileName .reserved) := Path.name_of _ _
  have hdir : (Path.of (username u) []).name = username u := Path.name_of _ _
  have hlen : (username u).length ≤ 9 := Nat.le_succ_of_le (h.short hp hm.mem)
  have hzero := (shGetattr_fileOf hp hm.mem hlen hpath hv).mpr
    (by rw [attrOf_fileName]; simp)
  have hcount := (h.user _ (entryName_fileName .reserved) u hm.mem _ _ hdir hpath).1 hzero
  have hlisted := count_userListing (hp u hm.mem).nonempty hv .reserved
  rw [hcount, if_pos ⟨rfl, hnull⟩] at hlisted
  cases hlisted

theorem listsExactly_iff {p : Process ρ}
    (hp : forall u, u ∈ p.root -> ValidName (username u))
    (hlisted : forall u, u ∈ p.root -> username u ≠ CString.lit "sh_file")
    (hstat : (p.lstat p.backingPath).1 = 0) :
    ListsExactly p <-> Listable p.root := by
  constructor
  · intro h
    exact
      { once := fun n hdot hdots => h.once hp hlisted hdot hdots
        short := fun u hu => h.short hp hu
        shown := fun name u hu => h.shown hp hu }
  · intro h
    exact
      { root := fun n hn dir file hdir hfile =>
          h.entryAgrees_root hlisted hstat hn hdir hfile
        user := fun n hn u hu dir file hdir hfile =>
          h.entryAgrees_user hp hn hu hdir hfile }

/-!
## Runs that keep the views together
-/

/-- Distinct short names, and a `reserved` text for every user. -/
structure Presentable (sf : List ρ) : Prop where
  terminated : AllTerminated sf
  distinct : Distinct sf
  short : forall u, u ∈ sf -> (username u).length ≤ 8
  shown : forall u, u ∈ sf -> reserved u ≠ none

theorem Presentable.listable {sf : List ρ} (h : Presentable sf) : Listable sf where
  once := fun n _ _ => List.nodup_iff_count_le_one.mp h.distinct n
  short := h.short
  shown := by
    intro name u hu
    have hfound := findUser_ne_none_iff_findRecord.mpr ⟨u, hu⟩
    rcases exists_firstMatch hfound with ⟨front, v, back, hm⟩
    have heq : v = u := Option.some.inj (hm.findRecord_eq.symm.trans hu)
    rw [← heq]
    exact h.shown v hm.mem

/-- The request creates no user, gives none a long or a taken name and takes no
`reserved` text away. -/
def KeepsPresentable (call : Env ρ × Request) (p : Process ρ) : Prop :=
  match call.2 with
  | .mkdir path =>
      findUser p.root path.name ≠ none ∨ call.1.block = none ∨ 16 < path.name.length
  | .rename source target =>
      findUser p.root source.name = none ∨
        (target.name.length ≤ 8 ∧
          (target.name = source.name ∨ findUser p.root target.name = none))
  | .unlink path =>
      Reaches p.root path.name -> attrOf (attrText path.name) ≠ some .reserved
  | _ => True

theorem AttrEdit.reserved_ne_none {env : Env ρ} {name : CString} {req : Request}
    {result : Int} {assign : ρ -> ρ} (h : AttrEdit env name req result assign)
    {p : Process ρ} (hcall : KeepsPresentable (env, req) p) (hreach : Reaches p.root name)
    {u : ρ} (hu : reserved u ≠ none) : reserved (assign u) ≠ none := by
  cases h with
  | write _ => exact reserved_writeEdit_ne_none env _ _ hu
  | unlink hname =>
      subst hname
      rw [reserved_unlinkEdit env u (hcall hreach)]
      exact hu
  | mknod _ =>
      exact reserved_setReserved_some_ne_none _ u

/-- One step: the record that changes keeps what makes it presentable. -/
theorem Presentable.step {call : Env ρ × Request} {p p' : Process ρ}
    (h : Presentable p.root) (hcall : KeepsPresentable call p)
    (hstep : serveStep call p = .ok p') : Presentable p'.root := by
  rcases call with ⟨env, req⟩
  rcases serveStep_effect h.terminated hstep with ⟨result, heffect⟩
  generalize p'.root = sf' at heffect
  cases heffect with
  | query _ => exact h
  | refused _ => exact h
  | append hblock hnone hlen =>
      rcases hcall with hfound | hnull | hlong
      · exact absurd hnone hfound
      · rw [hnull] at hblock
        cases hblock
      · exact absurd hlong (Nat.not_lt.mpr hlen)
  | remove hm =>
      rw [hm.split] at h
      exact
        { terminated := forall_mem_remove h.terminated
          distinct := ((distinct_cons_iff _ _ _).mp h.distinct).1
          short := forall_mem_remove h.short
          shown := forall_mem_remove h.shown }
  | rename hm =>
      rename_i source target front back u
      rcases hcall.resolve_left hm.ne_none with ⟨hshort, hfree⟩
      have hfits : target.name.length ≤ usernameCapacity := by lia
      have hdistinct := (hm.distinct_rename_iff h.distinct hfits).mpr hfree
      have hname := username_strcpyUsername target.name u hfits
      have hreserved := reserved_strcpyUsername target.name u hfits
      have hu := h.shown u hm.mem
      rw [hm.split] at h
      refine ⟨forall_mem_replace h.terminated (terminated_strcpyUsername _ _ hfits),
        hdistinct, forall_mem_replace h.short ?_, forall_mem_replace h.shown ?_⟩
      · rw [hname]
        exact hshort
      · rw [hreserved]
        exact hu
  | edit hedit hreach hm =>
      rename_i name assign front back u
      have hterm := h.terminated u hm.mem
      have hname := hedit.username_eq hterm
      have hshort := h.short u hm.mem
      have hshown := hedit.reserved_ne_none hcall hreach (h.shown u hm.mem)
      rw [hm.split] at h
      refine ⟨forall_mem_replace h.terminated (hedit.terminated hterm),
        h.distinct.replace hname, forall_mem_replace h.short ?_,
        forall_mem_replace h.shown hshown⟩
      rw [hname]
      exact hshort

theorem Presentable.run {calls : List (Env ρ × Request)} {start p : Process ρ}
    (h : Presentable start.root)
    (hcalls : Library.Guarded serveStep KeepsPresentable calls start)
    (hrun : serveAll calls start = .ok p) : Presentable p.root := by
  refine Library.run_invariant (I := fun q => Presentable q.root) ?_ calls start p hcalls h hrun
  intro call q q' hcall hq hstep
  exact hq.step hcall hstep

/-- In every state that a run reaches, with names that can be shown and the
backing file in place, the two views agree if and only if the store is listable; and
it is, after a run from a presentable store that keeps the users presentable. -/
theorem listsExactly_iff_listable (calls : List (Env ρ × Request)) (start p : Process ρ)
    (hrun : serveAll calls start = .ok p)
    (hp : forall u, u ∈ p.root -> ValidName (username u))
    (hlisted : forall u, u ∈ p.root -> username u ≠ CString.lit "sh_file")
    (hstat : (p.lstat p.backingPath).1 = 0) :
    (ListsExactly p <-> Listable p.root) ∧
      (Presentable start.root ->
        Library.Guarded serveStep KeepsPresentable calls start -> ListsExactly p) := by
  have hiff := listsExactly_iff hp hlisted hstat
  refine ⟨hiff, ?_⟩
  intro hstart hcalls
  exact hiff.mpr (hstart.run hcalls hrun).listable

end Listing

def backedProcess (sf : List User) : Process User :=
  { plainProcess sf with disk := fun _ => some [] }

def shownUser : User :=
  { binUser with reserved := some (CString.lit "none") }

theorem presentable_shownUser : Presentable [shownUser] where
  terminated := fun u _ => User.rep_terminated u
  distinct := List.nodup_singleton _
  short := by
    intro u hu
    rw [List.mem_singleton.mp hu]
    decide
  shown := by
    intro u hu
    rw [List.mem_singleton.mp hu]
    exact Option.some_ne_none _

def moveCalls : List (Env User × Request) :=
  [(plainEnv, .write (Path.of (CString.lit "bin/days_before_warning") [])
      (CBuffer.ofCString (CString.lit "9") []) 1 0),
    (plainEnv, .rename (Path.of (CString.lit "bin") []) (Path.of (CString.lit "sys") []))]

theorem listsExactly_shownUser :
    exists p, serveAll moveCalls (backedProcess [shownUser]) = .ok p ∧
      Listable p.root ∧ ListsExactly p := by
  have hrun : serveAll moveCalls (backedProcess [shownUser]) = .ok (backedProcess
      [{ shownUser with username := CString.lit "sys", dw := 9 }]) := rfl
  have h := listsExactly_iff_listable moveCalls (backedProcess [shownUser]) _ hrun ?_ ?_ rfl
  · have hlists := h.2 presentable_shownUser ?_
    · exact ⟨_, hrun, h.1.mp hlists, hlists⟩
    · refine ⟨trivial, fun q hq => ⟨?_, fun _ _ => trivial⟩⟩
      cases hq
      exact Or.inr ⟨by decide, Or.inr (by decide)⟩
  · intro u hu
    rw [List.mem_singleton.mp hu]
    decide
  · intro u hu
    rw [List.mem_singleton.mp hu]
    decide

/-- A user made by `sh_mkdir` has a `reserved` file that is found and not listed. -/
theorem not_listsExactly_mkdir :
    exists p : Process User,
      serveAll [(plainEnv, .mkdir (Path.of (CString.lit "bin") []))]
          (backedProcess []) = .ok p ∧
        (forall u, u ∈ p.root -> ValidName (UserRep.username u)) ∧
        (forall u, u ∈ p.root -> UserRep.username u ≠ CString.lit "sh_file") ∧
        (p.lstat p.backingPath).1 = 0 ∧
        EntryName (CString.lit "reserved") ∧
        ¬ EntryAgrees p (Path.of (CString.lit "bin") [])
          (Path.of (CString.lit "bin/reserved") []) (CString.lit "reserved") ∧
        ¬ ListsExactly p := by
  have hagree : ¬ EntryAgrees (backedProcess [initUser plainEnv (CString.lit "bin") binUser])
      (Path.of (CString.lit "bin") []) (Path.of (CString.lit "bin/reserved") [])
      (CString.lit "reserved") := by
    intro h
    exact absurd (h.1 (by decide)) (by decide)
  refine ⟨backedProcess [initUser plainEnv (CString.lit "bin") binUser], rfl, ?_, ?_, rfl,
    entryName_fileName .reserved, hagree, ?_⟩
  · intro u hu
    rw [List.mem_singleton.mp hu]
    decide
  · intro u hu
    rw [List.mem_singleton.mp hu]
    decide
  · intro h
    exact hagree (h.user _ (entryName_fileName .reserved) _ List.mem_cons_self _ _
      (by decide) (by decide))

end ShadowFs

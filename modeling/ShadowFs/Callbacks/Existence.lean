import ShadowFs.Callbacks.Lookup

/-!
# Which files exist

`sh_getattr` asks `is_attr` whether the text behind the user name is one of the
eight attribute names.  `sh_read`, `sh_write` and `sh_unlink` go through the same
names but end their chains of comparisons without an `else`, so that under an
existing user every file name is accepted.  The four callbacks agree on a path if
and only if it is not of this kind.
-/

namespace ShadowFs

open CLib UserRep

section Existence

variable {ρ : Type} [UserRep ρ]

/-- The arguments of a read or write next to the path, with the environment of
the call. -/
structure Transfer (ρ : Type) where
  env : Env ρ
  stack : Nat -> Byte
  data : List Byte
  buf : CBuffer
  size : Nat
  offset : Nat

/-- Reading, writing and unlinking succeed on the regular files and fail on all
other paths. -/
structure AgreeOnFile (p : Process ρ) (path : Path) (t : Transfer ρ) : Prop where
  read : 0 ≤ (shRead p t.stack path t.data t.size t.offset).1.1 <-> ReportsRegular p path
  write : 0 ≤ (shWrite t.env p.root path t.buf t.size).1 <-> ReportsRegular p path
  unlink : 0 ≤ (shUnlink t.env p.root path).1 <-> ReportsRegular p path

theorem readAttr_nonneg (u : ρ) (attr : Option Attr) (stack : Nat -> Byte)
    (buf : List Byte) {size : Nat} (offset : Nat) (hsize : 0 ≤ toInt size) :
    0 ≤ (readAttr u attr stack buf size offset).1 := by
  have hday : forall v : Int32, 0 ≤ toInt (dayLine v).length := by
    intro v
    have hlen := int32Text_length_le v
    apply toInt_nonneg
    simp only [dayLine, List.length_append, List.length_singleton]
    lia
  rcases attr with _ | attr
  · exact hsize
  · cases attr with
    | passwordHash => exact hsize
    | reserved =>
        simp only [readAttr]
        split
        · exact hsize
        · exact hsize
    | _ => exact hday _

theorem agreeOnFile_of_not_reaches {p : Process ρ} {path : Path}
    (hfile : path.name ≠ CString.lit "sh_file") (h : ¬ Reaches p.root path.name)
    (t : Transfer ρ) : AgreeOnFile p path t := by
  have hnot : ¬ ReportsRegular p path :=
    fun hregular => h ((reportsRegular_iff hfile).mp hregular).1
  have hneg : ¬ (0 : Int) ≤ -ENOENT := by decide
  constructor
  · rw [shRead_of_not_reaches h hfile]
    exact iff_of_false hneg hnot
  · rw [shWrite_of_not_reaches h]
    exact iff_of_false hneg hnot
  · rw [shUnlink_of_not_reaches h]
    exact iff_of_false hneg hnot

/-- Under an existing user the three operations accept every name, and a write
returns its size. -/
theorem agreeOnFile_iff_of_reaches {p : Process ρ} {path : Path}
    (hfile : path.name ≠ CString.lit "sh_file") (h : Reaches p.root path.name)
    (t : Transfer ρ) :
    AgreeOnFile p path t <->
      attrOf (attrText path.name) ≠ none ∧ 0 ≤ toInt t.size := by
  have hregular := reportsRegular_iff (p := p) hfile
  constructor
  · intro hagree
    have hunlink := hagree.unlink
    have hwrite := hagree.write
    rw [shUnlink_of_reaches h] at hunlink
    rw [shWrite_of_reaches h] at hwrite
    have hreport : ReportsRegular p path := hunlink.mp (Int.le_refl 0)
    exact ⟨(hregular.mp hreport).2, hwrite.mpr hreport⟩
  · rintro ⟨hattr, hsize⟩
    have hreport : ReportsRegular p path := hregular.mpr ⟨h, hattr⟩
    rcases h.exists_firstMatch with ⟨front, u, back, hm⟩
    constructor
    · rw [shRead_of_reaches h hfile hm.findRecord_eq]
      exact iff_of_true (readAttr_nonneg u _ _ _ _ hsize) hreport
    · rw [shWrite_of_reaches h]
      exact iff_of_true hsize hreport
    · rw [shUnlink_of_reaches h]
      exact iff_of_true (Int.le_refl 0) hreport

/-- For a store with names of one to eight bytes without a slash, and a path other
than `/sh_file`: the callbacks agree if and only if the path is not an unknown file
of a user, and the size of a transfer to a file is in the range of `int`. -/
theorem agreeOnFile_iff (p : Process ρ)
    (hp : forall u, u ∈ p.root -> ValidName (username u))
    (hshort : forall u, u ∈ p.root -> (username u).length ≤ 8) (path : Path)
    (hfile : path.name ≠ CString.lit "sh_file") (t : Transfer ρ) :
    AgreeOnFile p path t <->
      forall u file, u ∈ p.root -> path.name = fileOf (username u) file ->
        (exists a : Attr, file = a.fileName) ∧ 0 ≤ toInt t.size := by
  by_cases hreach : Reaches p.root path.name
  · rw [agreeOnFile_iff_of_reaches hfile hreach]
    constructor
    · rintro ⟨hattr, hsize⟩ u file hu hname
      have hlen : (username u).length ≤ 9 := Nat.le_succ_of_le (hshort u hu)
      rw [hname, attrText_fileOf file (hp u hu).noSlash hlen] at hattr
      rcases Option.ne_none_iff_exists'.mp hattr with ⟨a, ha⟩
      exact ⟨⟨a, attrOf_eq_some_iff.mp ha⟩, hsize⟩
    · intro h
      rcases hreach.eq_fileOf hshort with ⟨u, _, hu, hname⟩
      rcases h u (attrText path.name) hu hname with ⟨⟨a, ha⟩, hsize⟩
      refine ⟨?_, hsize⟩
      rw [ha, attrOf_fileName]
      simp
  · constructor
    · intro _ u file hu hname
      have hlen : (username u).length ≤ 9 := Nat.le_succ_of_le (hshort u hu)
      rw [hname] at hreach
      exact absurd (reaches_fileOf hp hu hlen file) hreach
    · intro _
      exact agreeOnFile_of_not_reaches hfile hreach t

end Existence

def oneByte : Transfer User :=
  { env := plainEnv, stack := fun _ => 0, data := [0],
    buf := CBuffer.ofCString (CString.lit "1") [], size := 1, offset := 0 }

theorem agreeOnFile_binUser :
    AgreeOnFile (plainProcess [binUser])
      (Path.of (CString.lit "bin/days_before_warning") []) oneByte := by
  refine (agreeOnFile_iff (plainProcess [binUser]) ?_ ?_ _ ?_ oneByte).mpr ?_
  · intro u hu
    rw [List.mem_singleton.mp hu]
    exact binUser_validName
  · intro u hu
    rw [List.mem_singleton.mp hu]
    decide
  · decide
  · intro u file hu hname
    rw [List.mem_singleton.mp hu, CString.ext_iff, Path.name_of, fileOf_bytes] at hname
    refine ⟨⟨.daysBeforeWarning, ?_⟩, by decide⟩
    ext1
    have htext : (CString.lit "bin/days_before_warning").bytes =
        (CString.lit "bin").bytes ++ slash :: (Attr.fileName .daysBeforeWarning).bytes := by
      decide
    have hsame := hname.symm.trans htext
    exact (List.cons.inj (List.append_cancel_left hsame)).2

/-- `sh_getattr` knows no file `foo`, yet it can be read, written and unlinked. -/
theorem not_agreeOnFile_unknown :
    ValidName binUser.username ∧ binUser.username.length ≤ 8 ∧
      (shGetattr (plainProcess [binUser]) (Path.of (CString.lit "bin/foo") [])).1 =
        -ENOENT ∧
      ¬ AgreeOnFile (plainProcess [binUser]) (Path.of (CString.lit "bin/foo") [])
        oneByte := by
  have hmissing : (shGetattr (plainProcess [binUser])
      (Path.of (CString.lit "bin/foo") [])).1 = -ENOENT := by
    decide
  refine ⟨binUser_validName, by decide, hmissing, ?_⟩
  intro h
  have hregular : ReportsRegular (plainProcess [binUser])
      (Path.of (CString.lit "bin/foo") []) := h.unlink.mp (by decide)
  exact absurd (hmissing.symm.trans hregular.1) (by decide)

end ShadowFs

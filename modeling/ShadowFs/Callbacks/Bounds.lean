import ShadowFs.Callbacks.Terminator

/-!
# Bounds of the copied name

`user_from_path` copies up to nine bytes of the path into `uname[9]` and stores a terminator
behind them.  Its loop ends at a slash or after nine rounds, and nowhere else: it neither
stops at the end of the path nor keeps the ninth byte of the array for the terminator.

The accesses follow from the returned length alone.  They stay inside the path and the array
exactly if the path has a second slash among its first ten bytes.
-/

namespace ShadowFs

open CLib UserRep

/-!
## Accesses
-/

/-- The positions of `path` that are read and the positions of `uname` that are written. -/
structure Touched where
  reads : List Nat
  writes : List Nat

/-- The copying loop with `count` rounds left, and the terminator stored after it. -/
def touchedFrom (path : CBuffer) : Nat -> Nat -> Touched
  | 0, i => { reads := [], writes := [i - 1] }
  | count + 1, i =>
      if path.get i = slash then { reads := [i], writes := [i - 1] }
      else
        let rest := touchedFrom path count (i + 1)
        { reads := i :: rest.reads, writes := (i - 1) :: rest.writes }

def touched (path : CBuffer) : Touched :=
  touchedFrom path 9 1

/-- No access leaves the path, its terminator included, or the array of nine bytes. -/
structure InBounds (path : Path) : Prop where
  reads : forall i, i ∈ (touched path.toCBuffer).reads -> i ≤ path.str.length
  writes : forall j, j ∈ (touched path.toCBuffer).writes -> j ≤ 8

theorem touchedFrom_eq (path : CBuffer) (count i : Nat) (hi : 0 < i) :
    touchedFrom path count i =
      let copied := ((List.range' i count).map path.get).takeWhile (fun b => b ≠ slash)
      { reads := List.range' i (min count (copied.length + 1))
        writes := List.range' (i - 1) (copied.length + 1) } := by
  induction count generalizing i with
  | zero => simp [touchedFrom]
  | succ count ih =>
      by_cases hslash : path.get i = slash
      · simp [touchedFrom, List.range'_succ, hslash]
      · have hnext : i + 1 - 1 = i - 1 + 1 := by lia
        rw [touchedFrom, if_neg hslash, ih (i + 1) (Nat.succ_pos i), hnext]
        simp [List.range'_succ, hslash, Nat.succ_min_succ]

theorem userFromPath_snd (path : CBuffer) :
    (userFromPath path).2 =
      (((List.range' 1 9).map path.get).takeWhile (fun b => b ≠ slash)).length := by
  rw [userFromPath, userFromPathLoop_eq]
  exact Nat.add_sub_cancel_left _ _

theorem userFromPath_fst_length (path : CBuffer) :
    (userFromPath path).1.length = (userFromPath path).2 + 1 := by
  rw [userFromPath_snd, userFromPath, userFromPathLoop_eq]
  exact List.length_append

/-- The bytes of the array are written once each; the path is read up to the slash, or for
nine rounds. -/
theorem touched_eq (path : CBuffer) :
    touched path =
      { reads := List.range' 1 (min 9 ((userFromPath path).2 + 1))
        writes := List.range (userFromPath path).1.length } := by
  rw [touched, touchedFrom_eq path 9 1 Nat.one_pos, userFromPath_fst_length, userFromPath_snd,
    List.range_eq_range']

/-!
## Where the accesses stay inside
-/

theorem inBounds_iff_returned (path : Path) :
    InBounds path <-> (userFromPath path.toCBuffer).2 ≤ 8 ∧
      (userFromPath path.toCBuffer).2 ≤ path.name.length := by
  have htouched := touched_eq path.toCBuffer
  rw [userFromPath_fst_length] at htouched
  constructor
  · rintro ⟨hreads, hwrites⟩
    rw [htouched] at hreads hwrites
    have hlast := hwrites _ (List.mem_range.mpr (Nat.lt_succ_self _))
    have hread := hreads ((userFromPath path.toCBuffer).2 + 1)
      (by rw [List.mem_range'_1]; lia)
    rw [path.str_length] at hread
    exact ⟨hlast, Nat.le_of_succ_le_succ hread⟩
  · rintro ⟨height, hname⟩
    constructor
    · intro i hi
      rw [htouched, List.mem_range'_1] at hi
      rw [path.str_length]
      lia
    · intro j hj
      rw [htouched, List.mem_range] at hj
      lia

theorem headName_length_lt {name : CString} (h : slash ∈ name.bytes.take 9) :
    (headName name).length < min 9 name.length := by
  have hle : (headName name).bytes.length ≤ (name.bytes.take 9).length :=
    (List.takeWhile_prefix _).length_le
  have hne : (headName name).bytes.length ≠ (name.bytes.take 9).length := by
    intro heq
    have hall : (headName name).bytes = name.bytes.take 9 :=
      (List.takeWhile_prefix _).eq_of_length heq
    rw [← hall] at h
    have hslash := List.mem_takeWhile_imp h
    simp at hslash
  rw [List.length_take] at hle hne
  exact Nat.lt_of_le_of_ne hle hne

theorem inBounds_of_slash {path : Path} (h : slash ∈ path.name.bytes.take 9) :
    InBounds path := by
  have hlt := headName_length_lt h
  have hindex := path.attrIndex_eq (by lia)
  rw [attrIndex] at hindex
  rw [inBounds_iff_returned]
  lia

/-- Without one the loop passes the terminator, or all nine rounds are made. -/
theorem returned_of_no_slash {path : Path} (h : slash ∉ path.name.bytes.take 9) :
    min 9 (path.name.length + 1) ≤ (userFromPath path.toCBuffer).2 := by
  rcases path.window with ⟨behind, hwindow⟩
  have hsplit : (path.name.bytes ++ 0 :: behind).take 9 =
      (path.name.bytes ++ [0]).take 9 ++
        behind.take (9 - (path.name.bytes ++ [(0 : Byte)]).length) := by
    rw [← List.take_append, List.append_assoc]
    rfl
  have hpass : slash ∉ (path.name.bytes ++ [(0 : Byte)]).take 9 := by
    intro hmem
    rw [List.take_append] at hmem
    rcases List.mem_append.mp hmem with hname | hnul
    · exact h hname
    · have hzero := List.mem_singleton.mp (List.mem_of_mem_take hnul)
      exact absurd hzero (by decide)
  rw [userFromPath_snd, hwindow, hsplit,
    List.takeWhile_append_of_pos (forall_ne_of_not_mem hpass), List.length_append,
    List.length_take, List.length_append, List.length_singleton]
  exact Nat.le_add_right _ _

/-- `user_from_path` stays in bounds if and only if the path has a second slash, at one of the
positions 1 to 9. -/
theorem inBounds_iff (path : Path) :
    InBounds path <-> slash ∈ path.name.bytes.take 9 := by
  refine ⟨?_, inBounds_of_slash⟩
  intro h
  by_contra hslash
  have hreturned := returned_of_no_slash hslash
  rcases (inBounds_iff_returned path).mp h with ⟨height, hname⟩
  lia

/-- The path of a user: five bytes behind the terminator are read, and the terminator of the
copy is stored behind the array. -/
theorem not_inBounds_bin :
    touched (Path.of (CString.lit "bin") [0, 0, 0, 0, 0]).toCBuffer =
        { reads := [1, 2, 3, 4, 5, 6, 7, 8, 9], writes := [0, 1, 2, 3, 4, 5, 6, 7, 8, 9] } ∧
      (Path.of (CString.lit "bin") [0, 0, 0, 0, 0]).str.length = 4 ∧
      ¬ InBounds (Path.of (CString.lit "bin") [0, 0, 0, 0, 0]) := by
  refine ⟨rfl, rfl, ?_⟩
  intro h
  exact absurd (h.writes 9 (by decide)) (by decide)

end ShadowFs

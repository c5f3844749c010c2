import ShadowFs.Tree.Users

/-!
# Paths: `user_from_path`

FUSE hands every callback an absolute path in memory.  `user_from_path` copies
up to nine bytes from behind the leading slash and stops at the next slash, but
not at the terminator, so for short paths it also copies what lies behind the
string and the length it returns depends on it.

`headName` says which user name a path `/name` denotes through this copy, and
`attrText` which text is then taken for the attribute.  For the copied name the
foreign bytes do not matter; for the length they do not matter as soon as the
copied name is not the whole of `name`.
-/

namespace ShadowFs

open CLib

structure Path extends CBuffer where
  absolute : bytes.head? = some slash

/-- The path with the text `/name` and a given stretch of memory behind it. -/
def Path.of (name : CString) (behind : List Byte) : Path :=
  { bytes := slash :: (name.bytes ++ 0 :: behind)
    terminated := by simp
    absolute := rfl }

/-- The text behind the leading slash. -/
def Path.name (path : Path) : CString :=
  path.strAt 1

/-- The copying loop with `count` rounds left: the bytes stored so far and the
index reached. -/
def userFromPathLoop (path : CBuffer) : Nat -> Nat -> List Byte -> List Byte × Nat
  | 0, i, uname => (uname, i)
  | count + 1, i, uname =>
      if path.get i = slash then (uname, i)
      else userFromPathLoop path count (i + 1) (uname ++ [path.get i])

/-- The contents of `uname` and the returned length. -/
def userFromPath (path : CBuffer) : List Byte × Nat :=
  let copied := userFromPathLoop path 9 1 []
  (copied.1 ++ [0], copied.2 - 1)

def unameOf (path : CBuffer) : CString :=
  CString.ofBytes (userFromPath path).1

/-- The index `i` at which the callbacks look for the attribute. -/
def attrIndex (path : CBuffer) : Nat :=
  (userFromPath path).2 + 2

/-!
## The denoted name and attribute
-/

/-- The user name that is looked up for the path `/name`. -/
def headName (name : CString) : CString :=
  { bytes := (name.bytes.take 9).takeWhile (fun b => b ≠ slash)
    nulFree := by
      intro h
      have htake := List.takeWhile_sublist _ |>.mem h
      exact name.nulFree (List.mem_of_mem_take htake) }

/-- The text taken for the attribute: everything behind the name and the one
byte after it, whatever that byte is. -/
def attrText (name : CString) : CString :=
  name.drop ((headName name).length + 1)

theorem Path.exists_behind (path : Path) :
    exists behind, path.bytes = slash :: (path.name.bytes ++ 0 :: behind) := by
  have hhead := path.absolute
  cases hbytes : path.bytes with
  | nil =>
      rw [hbytes] at hhead
      cases hhead
  | cons b rest =>
      have hb : b = slash := by
        rw [hbytes] at hhead
        simpa using hhead
      have hrest : (0 : Byte) ∈ rest := by
        have hmem := path.terminated
        rw [hbytes, hb] at hmem
        rcases List.mem_cons.mp hmem with h0 | h
        · exact absurd h0 (by decide)
        · exact h
      have hname : path.name = (CBuffer.mk rest hrest).str := by
        show CString.ofBytes (path.bytes.drop 1) = CString.ofBytes (rest.drop 0)
        rw [hbytes]
        rfl
      rcases (CBuffer.mk rest hrest).exists_behind with ⟨behind, hsplit⟩
      refine ⟨behind, ?_⟩
      rw [hb, hname, ← hsplit]

theorem Path.str_eq (path : Path) : path.str.bytes = slash :: path.name.bytes := by
  rcases path.exists_behind with ⟨behind, hbytes⟩
  have hne : slash ≠ 0 := by decide
  have hstr : path.str = CString.ofBytes (slash :: (path.name.bytes ++ 0 :: behind)) := by
    show CString.ofBytes (path.bytes.drop 0) = _
    rw [hbytes, List.drop_zero]
  have htail := congrArg CString.bytes
    (CString.ofBytes_append_nul path.name behind)
  have htail' : (path.name.bytes ++ 0 :: behind).takeWhile (fun b => b ≠ 0) =
      path.name.bytes := htail
  rw [hstr]
  show (slash :: (path.name.bytes ++ 0 :: behind)).takeWhile (fun b => b ≠ 0) = _
  rw [List.takeWhile_cons_of_pos (by simpa using hne), htail']

theorem Path.str_eq_root_iff (path : Path) :
    path.str = CString.lit "/" <-> path.name.bytes = [] := by
  have hroot : (CString.lit "/").bytes = [slash] := by decide
  rw [CString.ext_iff, path.str_eq, hroot]
  simp

theorem Path.str_ne_root (path : Path) (h : path.name.bytes ≠ []) :
    ¬ path.str = CString.lit "/" := by
  rw [path.str_eq_root_iff]
  exact h

@[simp] theorem Path.name_of (name : CString) (behind : List Byte) :
    (Path.of name behind).name = name :=
  CString.ofBytes_append_nul name behind

/-!
## The copying loop
-/

theorem userFromPathLoop_eq (path : CBuffer) (count i : Nat) (uname : List Byte) :
    userFromPathLoop path count i uname =
      (uname ++ ((List.range' i count).map path.get).takeWhile (fun b => b ≠ slash),
        i + (((List.range' i count).map path.get).takeWhile
          (fun b => b ≠ slash)).length) := by
  induction count generalizing i uname with
  | zero => simp [userFromPathLoop]
  | succ count ih =>
      by_cases hslash : path.get i = slash
      · simp [userFromPathLoop, List.range'_succ, hslash]
      · rw [userFromPathLoop, if_neg hslash, ih]
        simp [List.range'_succ, hslash]
        lia

theorem Path.window (path : Path) :
    exists behind, (List.range' 1 9).map path.get =
      (path.name.bytes ++ 0 :: behind).take 9 := by
  rcases path.exists_behind with ⟨behind, hbytes⟩
  refine ⟨behind ++ List.replicate 9 0, ?_⟩
  apply List.ext_getElem
  · simp
    lia
  · intro j hj _
    have hj9 : j < 9 := by simpa using hj
    have hget : path.get (1 + j) = (path.name.bytes ++ 0 :: behind).getD j 0 := by
      show path.bytes.getD (1 + j) 0 = _
      rw [hbytes, Nat.add_comm, List.getD_cons_succ]
    have hpad : forall (l : List Byte), (l ++ List.replicate 9 0).getD j 0 = l.getD j 0 := by
      intro l
      by_cases hl : j < l.length
      · simp [List.getD_eq_getElem?_getD, List.getElem?_append_left hl]
      · have hge : l.length ≤ j := by lia
        simp only [List.getD_eq_getElem?_getD, List.getElem?_append_right hge,
          List.getElem?_eq_none hge, List.getElem?_replicate]
        split <;> rfl
    have hassoc : path.name.bytes ++ 0 :: (behind ++ List.replicate 9 0) =
        (path.name.bytes ++ 0 :: behind) ++ List.replicate 9 0 := by
      simp
    have hlen : j < (path.name.bytes ++ 0 :: (behind ++ List.replicate 9 0)).length := by
      simp
      lia
    rw [List.getElem_map, List.getElem_range', Nat.one_mul, hget, List.getElem_take,
      ← hpad, ← hassoc, List.getD_eq_getElem?_getD, List.getElem?_eq_getElem hlen,
      Option.getD_some]

/-- Induction on the name: the copy stops at a slash, at the bound, or reads as
a string up to the terminator it copied. -/
theorem ofBytes_takeWhile_take (n : List Byte) (hn : (0 : Byte) ∉ n)
    (behind : List Byte) (count : Nat) :
    (CString.ofBytes
      (((n ++ 0 :: behind).take count).takeWhile (fun b => b ≠ slash) ++ [0])).bytes =
      (n.take count).takeWhile (fun b => b ≠ slash) := by
  induction n generalizing count with
  | nil =>
      cases count with
      | zero => rfl
      | succ count =>
          have h0 : (0 : Byte) ≠ slash := by decide
          simp [CString.ofBytes, h0]
  | cons b n ih =>
      cases count with
      | zero => rfl
      | succ count =>
          have hb : b ≠ 0 := fun h => hn (by simp [h])
          have htail : (0 : Byte) ∉ n := fun h => hn (by simp [h])
          have hrest := ih htail count
          by_cases hslash : b = slash
          · simp [hslash, CString.ofBytes]
          · simp only [CString.ofBytes, List.cons_append, List.take_succ_cons] at hrest ⊢
            rw [List.takeWhile_cons_of_pos (by simpa using hslash),
              List.takeWhile_cons_of_pos (by simpa using hslash), List.cons_append,
              List.takeWhile_cons_of_pos (by simpa using hb), hrest]

theorem length_takeWhile_take (n behind : List Byte) (count : Nat)
    (h : ((n.take count).takeWhile (fun b => b ≠ slash)).length < n.length) :
    (((n ++ 0 :: behind).take count).takeWhile (fun b => b ≠ slash)).length =
      ((n.take count).takeWhile (fun b => b ≠ slash)).length := by
  induction n generalizing count with
  | nil => cases h
  | cons b n ih =>
      cases count with
      | zero => rfl
      | succ count =>
          by_cases hslash : b = slash
          · simp [hslash]
          · simp only [List.cons_append, List.take_succ_cons] at h ⊢
            rw [List.takeWhile_cons_of_pos (by simpa using hslash)] at h
            rw [List.takeWhile_cons_of_pos (by simpa using hslash),
              List.takeWhile_cons_of_pos (by simpa using hslash),
              List.length_cons, List.length_cons,
              ih count (Nat.lt_of_succ_lt_succ h)]

/-!
## What the callbacks look at
-/

theorem Path.unameOf_eq (path : Path) : unameOf path.toCBuffer = headName path.name := by
  rcases path.window with ⟨behind, hwindow⟩
  rw [unameOf, userFromPath, userFromPathLoop_eq, hwindow]
  ext1
  exact ofBytes_takeWhile_take path.name.bytes path.name.nulFree behind 9

theorem headName_length_le (name : CString) : (headName name).length ≤ name.length := by
  show ((name.bytes.take 9).takeWhile _).length ≤ name.bytes.length
  calc ((name.bytes.take 9).takeWhile _).length ≤ (name.bytes.take 9).length :=
        (List.takeWhile_sublist _).length_le
    _ ≤ name.bytes.length := by
        simp

theorem headName_length_le_nine (name : CString) : (headName name).length ≤ 9 := by
  show ((name.bytes.take 9).takeWhile _).length ≤ 9
  calc ((name.bytes.take 9).takeWhile _).length ≤ (name.bytes.take 9).length :=
        (List.takeWhile_sublist _).length_le
    _ ≤ 9 := by
        simp

/-- The copied name is the whole name unless it stops short of it. -/
theorem headName_eq_self_or_lt (name : CString) :
    headName name = name ∨ (headName name).length < name.length := by
  by_cases hlen : (headName name).length < name.length
  · exact Or.inr hlen
  · apply Or.inl
    have hpre : (headName name).bytes <+: name.bytes :=
      (List.takeWhile_prefix _).trans (List.take_prefix 9 name.bytes)
    have heq : (headName name).bytes = name.bytes := by
      apply hpre.eq_of_length
      have hle := headName_length_le name
      have hle' : (headName name).bytes.length ≤ name.bytes.length := hle
      have hge : ¬ (headName name).bytes.length < name.bytes.length := hlen
      lia
    ext1
    exact heq

theorem Path.attrIndex_eq (path : Path)
    (h : (headName path.name).length < path.name.length) :
    attrIndex path.toCBuffer = (headName path.name).length + 2 := by
  rcases path.window with ⟨behind, hwindow⟩
  rw [attrIndex, userFromPath, userFromPathLoop_eq, hwindow,
    length_takeWhile_take path.name.bytes behind 9 h]
  show 1 + (headName path.name).length - 1 + 2 = _
  lia

theorem Path.str_length (path : Path) : path.str.length = path.name.length + 1 := by
  show path.str.bytes.length = _
  rw [path.str_eq]
  rfl

theorem Path.attrIndex_le (path : Path)
    (h : (headName path.name).length < path.name.length) :
    attrIndex path.toCBuffer ≤ path.str.length := by
  rw [path.attrIndex_eq h, path.str_length]
  lia

theorem Path.strAt_attrIndex (path : Path)
    (h : (headName path.name).length < path.name.length) :
    path.strAt (attrIndex path.toCBuffer) = attrText path.name := by
  rw [CBuffer.strAt_of_le (path.attrIndex_le h), path.attrIndex_eq h]
  ext1
  show path.str.bytes.drop _ = path.name.bytes.drop _
  rw [path.str_eq]
  rfl

end ShadowFs

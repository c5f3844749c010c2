import ShadowFs.Callbacks.Names

/-!
# Bytes behind the terminator

For a short path `user_from_path` copies bytes from behind the terminator and
returns a length that depends on them.  The callbacks look at the attribute
pointer `path + i` only if no user carries the whole name and some user carries
the copied one.  The copy then stopped inside the path, and `i` is a position of
the path itself.

The first section follows the comparisons byte by byte, to say which positions
are looked at.
-/

namespace ShadowFs

open CLib UserRep

/-!
## Positions a comparison looks at
-/

namespace CLib

theorem CBuffer.strAt_bytes (m : CBuffer) (i : Nat) :
    (m.strAt i).bytes =
      if m.get i = 0 then [] else m.get i :: (m.strAt (i + 1)).bytes := by
  have hstr : forall j, (m.strAt j).bytes = (m.bytes.drop j).takeWhile (fun b => b ≠ 0) :=
    fun _ => rfl
  by_cases hi : i < m.bytes.length
  · have hget : m.get i = m.bytes[i] := by
      simp [CBuffer.get, List.getD_eq_getElem?_getD, List.getElem?_eq_getElem hi]
    rw [hstr, hstr, List.drop_eq_getElem_cons hi, hget]
    split
    · rename_i h0
      simp [h0]
    · rename_i h0
      rw [List.takeWhile_cons_of_pos (by simpa using h0)]
  · have hend : m.bytes.length ≤ i := Nat.not_lt.mp hi
    have hget : m.get i = 0 := by
      simp [CBuffer.get, List.getD_eq_getElem?_getD, List.getElem?_eq_none hend]
    rw [hstr, List.drop_eq_nil_of_le hend, hget]
    rfl

/-- `strcmp(m + i, s) == 0`, and the positions of `m` it looks at: up to the first
difference or the terminator. -/
def strcmpTrace (m : CBuffer) : List Byte -> Nat -> Bool × List Nat
  | [], i => (m.get i = 0, [i])
  | b :: s, i =>
      if m.get i = b then
        ((strcmpTrace m s (i + 1)).1, i :: (strcmpTrace m s (i + 1)).2)
      else (false, [i])

theorem strcmpTrace_iff (m : CBuffer) (s : List Byte) (hs : (0 : Byte) ∉ s) (i : Nat) :
    (strcmpTrace m s i).1 = true <-> (m.strAt i).bytes = s := by
  induction s generalizing i with
  | nil =>
      rw [strcmpTrace, m.strAt_bytes i]
      by_cases h0 : m.get i = 0 <;> simp [h0]
  | cons b s ih =>
      have hb : b ≠ 0 := fun h => hs (by simp [h])
      have htail : (0 : Byte) ∉ s := fun h => hs (by simp [h])
      rw [strcmpTrace, m.strAt_bytes i]
      by_cases hget : m.get i = b
      · simp [hget, hb, ih htail (i + 1)]
      · by_cases h0 : m.get i = 0
        · simp [h0, hb.symm]
        · simp [hget, h0]

theorem le_of_mem_strcmpTrace {m : CBuffer} {s : List Byte} (hs : (0 : Byte) ∉ s)
    {i : Nat} (hi : i ≤ m.str.length) :
    forall k, k ∈ (strcmpTrace m s i).2 -> k ≤ m.str.length := by
  induction s generalizing i with
  | nil =>
      intro k hk
      rw [List.mem_singleton.mp hk]
      exact hi
  | cons b s ih =>
      have hb : b ≠ 0 := fun h => hs (by simp [h])
      have htail : (0 : Byte) ∉ s := fun h => hs (by simp [h])
      intro k hk
      rw [strcmpTrace] at hk
      split at hk
      · rename_i hget
        -- The byte just read is not the terminator, so there is one more.
        have hne : i ≠ m.str.length := by
          intro heq
          rw [heq, m.get_length] at hget
          exact hb hget.symm
        rcases List.mem_cons.mp hk with rfl | hrest
        · exact hi
        · exact ih htail (by lia) k hrest
      · rw [List.mem_singleton.mp hk]
        exact hi

/-- `strcpy(dest, m + i)` looks at the string and its terminator. -/
def strcpyTrace (m : CBuffer) (i : Nat) : List Nat :=
  List.range' i ((m.strAt i).length + 1)

theorem le_of_mem_strcpyTrace {m : CBuffer} {i : Nat} (hi : i ≤ m.str.length) :
    forall k, k ∈ strcpyTrace m i -> k ≤ m.str.length := by
  intro k hk
  have hlen : (m.strAt i).length = m.str.length - i := by
    rw [CBuffer.strAt_of_le hi]
    exact List.length_drop
  rw [strcpyTrace, List.mem_range'_1, hlen] at hk
  lia

end CLib

/-!
## The chain of comparisons
-/

/-- The attribute names in the order of the comparisons. -/
def attrChain : List Attr :=
  [.passwordHash, .daysSinceChanged, .daysUntilCanChange, .daysUntilMustChange,
    .daysBeforeWarning, .daysUntilExpiration, .daysSinceAccountDeactivated, .reserved]

/-- The attribute found at `m + i`, and the positions looked at on the way. -/
def attrTrace (m : CBuffer) (i : Nat) : List Attr -> Option Attr × List Nat
  | [] => (none, [])
  | a :: chain =>
      let cmp := strcmpTrace m a.fileName.bytes i
      if cmp.1 then (some a, cmp.2)
      else ((attrTrace m i chain).1, cmp.2 ++ (attrTrace m i chain).2)

theorem attrTrace_fst (m : CBuffer) (i : Nat) (chain : List Attr) :
    (attrTrace m i chain).1 = chain.find? (fun a => m.strAt i = a.fileName) := by
  induction chain with
  | nil => rfl
  | cons a chain ih =>
      have hcmp := strcmpTrace_iff m a.fileName.bytes a.fileName.nulFree i
      rw [← CString.ext_iff] at hcmp
      by_cases h : m.strAt i = a.fileName
      · simp [attrTrace, hcmp.mpr h, h]
      · have hfalse : (strcmpTrace m a.fileName.bytes i).1 = false :=
          Bool.eq_false_iff.mpr (fun htrue => h (hcmp.mp htrue))
        simp [attrTrace, hfalse, h, ih]

theorem attrTrace_attrChain (m : CBuffer) (i : Nat) :
    (attrTrace m i attrChain).1 = attrOf (m.strAt i) := by
  rw [attrTrace_fst]
  cases hattr : attrOf (m.strAt i) with
  | none =>
      rw [List.find?_eq_none]
      intro a _
      simpa using attrOf_eq_none_iff.mp hattr a
  | some a =>
      rw [attrOf_eq_some_iff.mp hattr]
      cases a <;> decide

theorem le_of_mem_attrTrace {m : CBuffer} {i : Nat} (hi : i ≤ m.str.length)
    (chain : List Attr) : forall k, k ∈ (attrTrace m i chain).2 -> k ≤ m.str.length := by
  induction chain with
  | nil =>
      intro k hk
      cases hk
  | cons a chain ih =>
      intro k hk
      have hfirst := le_of_mem_strcmpTrace a.fileName.nulFree hi
      simp only [attrTrace] at hk
      split at hk
      · exact hfirst k hk
      · rcases List.mem_append.mp hk with h | h
        · exact hfirst k h
        · exact ih k h

/-!
## The five callbacks
-/

inductive Callback where
  | getattr
  | read
  | write
  | unlink
  | mknod
deriving DecidableEq, Repr

section Callbacks

variable {ρ : Type} [UserRep ρ]

/-- The positions at which a callback looks through the pointer `path + i`. -/
def attrDerefs (sf : List ρ) (path : Path) (c : Callback) : List Nat :=
  let i := attrIndex path.toCBuffer
  let user := findUser sf (path.strAt 1)
  let found := findUser sf (unameOf path.toCBuffer) ≠ none
  match c with
  | .getattr =>
      if path.str = CString.lit "/" then []
      else if user ≠ none then []
      else if found then (attrTrace path.toCBuffer i attrChain).2
      else []
  | .read =>
      if path.strAt 1 = CString.lit "sh_file" then []
      else if user ≠ none ∨ path.str = CString.lit "/" then []
      else if found then (attrTrace path.toCBuffer i attrChain).2
      else []
  | .write | .unlink =>
      if user ≠ none ∨ path.str = CString.lit "/" then []
      else if found then (attrTrace path.toCBuffer i attrChain).2
      else []
  | .mknod =>
      if user ≠ none ∨ path.str = CString.lit "/" then []
      else if found then strcpyTrace path.toCBuffer i
      else []

/-- Two paths in the same place of a run: every callback returns the same and leaves
the same state. -/
structure SameOutcome (env : Env ρ) (p : Process ρ) (path path' : Path) : Prop where
  getattr : shGetattr p path = shGetattr p path'
  read : forall stack buf size offset,
    shRead p stack path buf size offset = shRead p stack path' buf size offset
  write : forall buf size,
    shWrite env p.root path buf size = shWrite env p.root path' buf size
  unlink : shUnlink env p.root path = shUnlink env p.root path'
  mknod : shMknod env p.root path = shMknod env p.root path'

/-- Nothing is looked at through `path + i` unless the path reaches a file. -/
theorem reaches_of_mem_attrDerefs {sf : List ρ} {path : Path} {c : Callback} {k : Nat}
    (hk : k ∈ attrDerefs sf path c) :
    Reaches sf path.name ∧
      (k ∈ (attrTrace path.toCBuffer (attrIndex path.toCBuffer) attrChain).2 ∨
        k ∈ strcpyTrace path.toCBuffer (attrIndex path.toCBuffer)) := by
  have hreach : ¬ (findUser sf (path.strAt 1) ≠ none ∨ path.str = CString.lit "/") ->
      findUser sf (unameOf path.toCBuffer) ≠ none -> Reaches sf path.name := by
    intro hentry hfound
    rw [entry_iff, not_not] at hentry
    rw [path.unameOf_eq] at hfound
    exact ⟨hentry.1, hentry.2, hfound⟩
  cases c <;> simp only [attrDerefs] at hk <;> repeat' split at hk
  all_goals first
    | exact absurd hk List.not_mem_nil
    | refine ⟨hreach (by tauto) (by assumption), ?_⟩
      first
        | exact Or.inl hk
        | exact Or.inr hk

theorem le_of_mem_attrDerefs {sf : List ρ} {path : Path} {c : Callback} {k : Nat}
    (hk : k ∈ attrDerefs sf path c) : k ≤ path.str.length := by
  rcases reaches_of_mem_attrDerefs hk with ⟨hreach, hmem⟩
  have hi := path.attrIndex_le (headName_lt_of_reach hreach.1 hreach.2.2)
  rcases hmem with htrace | hcopy
  · exact le_of_mem_attrTrace hi attrChain k htrace
  · exact le_of_mem_strcpyTrace hi k hcopy

/-!
## One name, two memories
-/

section SameName

variable {path path' : Path}

theorem shGetattr_congr (p : Process ρ) (h : path.name = path'.name) :
    shGetattr p path = shGetattr p path' := by
  by_cases hroot : path.name.bytes = []
  · rw [shGetattr_root hroot, shGetattr_root (h ▸ hroot)]
  · have hroot' : path'.name.bytes ≠ [] := h ▸ hroot
    by_cases hname : findUser p.root path.name = none
    · have hname' : findUser p.root path'.name = none := h ▸ hname
      cases hrecord : findRecord p.root (headName path.name) with
      | none =>
          have hhead : findUser p.root (headName path.name) = none := by
            by_contra hne
            rcases findUser_ne_none_iff_findRecord.mp hne with ⟨u, hu⟩
            rw [hrecord] at hu
            cases hu
          rw [shGetattr_other hroot hname hhead,
            shGetattr_other hroot' hname' (h ▸ hhead), h]
      | some u =>
          rw [shGetattr_file hroot hname hrecord,
            shGetattr_file hroot' hname' (h ▸ hrecord), h]
    · rw [shGetattr_user hroot hname, shGetattr_user hroot' (h ▸ hname)]

theorem shRead_congr (p : Process ρ) (h : path.name = path'.name) (stack : Nat -> Byte)
    (buf : List Byte) (size offset : Nat) :
    shRead p stack path buf size offset = shRead p stack path' buf size offset := by
  by_cases hfile : path.name = CString.lit "sh_file"
  · have hfile1 : path.strAt 1 = CString.lit "sh_file" := hfile
    have hfile' : path'.strAt 1 = CString.lit "sh_file" := h.symm.trans hfile
    rw [shRead, if_pos hfile1, shRead, if_pos hfile']
  · have hfile' : path'.name ≠ CString.lit "sh_file" := h ▸ hfile
    by_cases hreach : Reaches p.root path.name
    · rcases hreach.exists_firstMatch with ⟨front, u, back, hm⟩
      rw [shRead_of_reaches hreach hfile hm.findRecord_eq,
        shRead_of_reaches (h ▸ hreach) hfile' (h ▸ hm.findRecord_eq), h]
    · rw [shRead_of_not_reaches hreach hfile, shRead_of_not_reaches (h ▸ hreach) hfile']

theorem shWrite_congr (env : Env ρ) (sf : List ρ) (h : path.name = path'.name)
    (buf : CBuffer) (size : Nat) :
    shWrite env sf path buf size = shWrite env sf path' buf size := by
  by_cases hreach : Reaches sf path.name
  · rw [shWrite_of_reaches hreach, shWrite_of_reaches (h ▸ hreach), h]
  · rw [shWrite_of_not_reaches hreach, shWrite_of_not_reaches (h ▸ hreach)]

theorem shUnlink_congr (env : Env ρ) (sf : List ρ) (h : path.name = path'.name) :
    shUnlink env sf path = shUnlink env sf path' := by
  by_cases hreach : Reaches sf path.name
  · rw [shUnlink_of_reaches hreach, shUnlink_of_reaches (h ▸ hreach), h]
  · rw [shUnlink_of_not_reaches hreach, shUnlink_of_not_reaches (h ▸ hreach)]

theorem shMknod_congr (env : Env ρ) (sf : List ρ) (h : path.name = path'.name) :
    shMknod env sf path = shMknod env sf path' := by
  by_cases hreach : Reaches sf path.name
  · rcases hreach.exists_firstMatch with ⟨front, u, back, hm⟩
    rw [shMknod_of_reaches hreach hm, shMknod_of_reaches (h ▸ hreach) (h ▸ hm), h]
  · have hreach' : ¬ Reaches sf path'.name := h ▸ hreach
    have hsame : (findUser sf (path.strAt 1) ≠ none ∨ path.str = CString.lit "/") <->
        (findUser sf (path'.strAt 1) ≠ none ∨ path'.str = CString.lit "/") := by
      rw [entry_iff, entry_iff, h]
    by_cases hentry : findUser sf (path.strAt 1) ≠ none ∨ path.str = CString.lit "/"
    · rw [shMknod, if_pos hentry, shMknod, if_pos (hsame.mp hentry)]
    · have hentry' := fun h => hentry (hsame.mpr h)
      rw [shMknod, if_neg hentry, shMknod, if_neg hentry']
      simp only [path.unameOf_eq, path'.unameOf_eq,
        findUser_headName_of_not_reaches hreach hentry,
        findUser_headName_of_not_reaches hreach' hentry']

end SameName

/-- Two memories that hold the same path: every callback does the same with both,
and looks through the attribute pointer at the path and its terminator only.  The
comparisons that are traced decide as the callbacks do. -/
theorem sameOutcome_of_str_eq (env : Env ρ) (p : Process ρ) (path path' : Path)
    (hstr : path.str = path'.str) :
    SameOutcome env p path path' ∧
      (forall c k, k ∈ attrDerefs p.root path c -> k ≤ path.str.length) ∧
      forall i, (attrTrace path.toCBuffer i attrChain).1 = attrOf (path.strAt i) := by
  have hname : path.name = path'.name := by
    have hbytes := congrArg CString.bytes hstr
    rw [path.str_eq, path'.str_eq] at hbytes
    ext1
    exact (List.cons.inj hbytes).2
  refine ⟨?_, ?_, attrTrace_attrChain path.toCBuffer⟩
  · exact
      { getattr := shGetattr_congr p hname
        read := shRead_congr p hname
        write := shWrite_congr env p.root hname
        unlink := shUnlink_congr env p.root hname
        mknod := shMknod_congr env p.root hname }
  · intro c k hk
    exact le_of_mem_attrDerefs hk

end Callbacks

/-- The path of a user with two memories behind it: the length returned by
`user_from_path` differs, the answers do not. -/
theorem sameOutcome_bin :
    attrIndex (Path.of (CString.lit "bin") [115, 47, 0, 0, 0]).toCBuffer ≠
        attrIndex (Path.of (CString.lit "bin") [47, 0, 0, 0, 0]).toCBuffer ∧
      SameOutcome plainEnv (plainProcess [binUser])
        (Path.of (CString.lit "bin") [115, 47, 0, 0, 0])
        (Path.of (CString.lit "bin") [47, 0, 0, 0, 0]) := by
  refine ⟨by decide, (sameOutcome_of_str_eq plainEnv _ _ _ ?_).1⟩
  decide

end ShadowFs

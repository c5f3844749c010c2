import ShadowFs.Callbacks.Lookup

/-!
# Reading a file in pieces

A read of `size` bytes at an offset should deliver the bytes of the file from the
offset on, at most `size` of them, and report how many there were.  The branches of
`sh_read` are of three kinds, and each misses this in its own way: the day files
replace `size` by the length of their text, the string files copy `size` bytes from
a local array whatever its text, and a null `reserved` reports `size` bytes without
copying any.  None of them ever reports the end of the file, so a client that reads
block after block does not stop.
-/

namespace ShadowFs

open CLib UserRep

/-!
## What a file shows
-/

/-- The three kinds of branches in `is_attr` and `sh_read`. -/
inductive Shown where
  | text (str : CString)
  | number (v : Int32)
  | nothing

namespace Shown

/-- The stored value's text and a newline, or nothing for a null pointer. -/
def content : Shown -> List Byte
  | .text str => stringLine str
  | .number v => dayLine v
  | .nothing => []

/-- The text fits the local array it is printed to. -/
def Fits : Shown -> Prop
  | .text str => str.length ≤ 32
  | .number v => (intText v.toInt).length ≤ 8
  | .nothing => True

def read (s : Shown) (stack : Nat -> Byte) (buf : List Byte) (size offset : Nat) :
    Int × List Byte :=
  match s with
  | .text str => readString str stack buf size offset
  | .number v => readDay v stack buf offset
  | .nothing => (toInt size, buf)

def SliceFits : Shown -> Nat -> Nat -> Prop
  | .text str, size, offset => size = 0 ∨ offset + size ≤ str.length + 1
  | .number v, size, offset => offset = 0 ∧ (dayLine v).length ≤ size
  | .nothing, size, _ => toInt size = 0

end Shown

section Shows

variable {ρ : Type} [UserRep ρ]

def shown (u : ρ) : Attr -> Shown
  | .passwordHash => .text (hash u)
  | .daysSinceChanged => .number (day .dsc u)
  | .daysUntilCanChange => .number (day .dcc u)
  | .daysUntilMustChange => .number (day .dmc u)
  | .daysBeforeWarning => .number (day .dw u)
  | .daysUntilExpiration => .number (day .de u)
  | .daysSinceAccountDeactivated => .number (day .dd u)
  | .reserved =>
      match reserved u with
      | some r => .text r
      | none => .nothing

theorem readAttr_eq_read (u : ρ) (a : Attr) (stack : Nat -> Byte) (buf : List Byte)
    (size offset : Nat) :
    readAttr u (some a) stack buf size offset =
      (shown u a).read stack buf size offset := by
  cases a with
  | reserved =>
      simp only [readAttr, shown]
      cases reserved u <;> rfl
  | _ => rfl

theorem isAttr_eq_length (u : ρ) (a : Attr) :
    isAttr a.fileName u = (shown u a).content.length := by
  have hline : forall str : CString, ((stringLine str).length : Int) = str.length + 1 := by
    intro str
    simp [stringLine, CString.length]
  rw [isAttr, attrOf_fileName]
  cases a with
  | passwordHash => exact (hline _).symm
  | reserved =>
      simp only [shown]
      cases reserved u with
      | none => rfl
      | some r => exact (hline r).symm
  | _ => rfl

end Shows

/-!
## One read
-/

/-- The reply of a read that is a slice of the content, `len` bytes long. -/
def sliceReply (content buf : List Byte) (len size offset : Nat) : Int × List Byte :=
  (((min size (len - offset) : Nat) : Int),
    (content.drop offset).take (min size (len - offset)) ++
      buf.drop (min size (len - offset)))

namespace Shown

theorem length_content_pos {s : Shown} (h : s ≠ .nothing) : 0 < s.content.length := by
  cases s with
  | text str => simp [content, stringLine]
  | number v => simp [content, dayLine]
  | nothing => exact absurd rfl h

theorem dayLine_length_lt (v : Int32) : (dayLine v).length < 2 ^ 31 := by
  have hlen := int32Text_length_le v
  simp only [dayLine, List.length_append, List.length_singleton]
  lia

/-- A string file read past its end: the byte at the end of the slice is the
terminator or what the stack holds behind it. -/
theorem readString_ne_slice {str : CString} {size offset : Nat} (hsize : size ≠ 0)
    (hpast : str.length + 1 < offset + size) :
    (readString str (fun _ => 0) (List.replicate size 1) size offset).2 ≠
      (sliceReply (stringLine str) (List.replicate size 1) (stringLine str).length
        size offset).2 := by
  have hlen : (stringLine str).length = str.length + 1 := by
    simp [stringLine, CString.length]
  intro h
  let n := min size ((stringLine str).length - offset)
  have hn : n < size := by
    simp only [n, hlen]
    lia
  have hend : (stringLine str).length ≤ offset + n := by
    simp only [n]
    lia
  have hcopied : (readString str (fun _ => 0) (List.replicate size 1) size offset).2[n]? =
      some 0 := by
    have hzero : localArray (stringLine str) (fun _ => 0) (offset + n) = 0 := by
      unfold localArray
      rw [if_neg (Nat.not_lt.mpr hend)]
      split <;> rfl
    simp [readString, copyOut, hn, hzero]
  have hkept : (sliceReply (stringLine str) (List.replicate size 1)
      (stringLine str).length size offset).2[n]? = some 1 := by
    have hslice : (((stringLine str).drop offset).take n).length = n := by
      simp only [List.length_take, List.length_drop, n]
      lia
    show (((stringLine str).drop offset).take n ++ (List.replicate size 1).drop n)[n]? = _
    rw [List.getElem?_append_right (Nat.le_of_eq hslice), hslice, Nat.sub_self,
      List.getElem?_drop, List.getElem?_replicate, if_pos (by lia)]
  rw [h, hkept] at hcopied
  exact absurd hcopied (by decide)

theorem text_eq_slice_iff {str : CString} (hshort : str.length ≤ 32) (size offset : Nat) :
    (forall stack buf, buf.length = size ->
        (text str).read stack buf size offset =
          sliceReply (text str).content buf (text str).content.length size offset) <->
      (text str).SliceFits size offset := by
  have hlen : (stringLine str).length = str.length + 1 := by
    simp [stringLine, CString.length]
  constructor
  · intro h
    by_contra hnot
    rw [SliceFits, not_or] at hnot
    have hread := h (fun _ => 0) (List.replicate size 1) (by simp)
    exact readString_ne_slice hnot.1 (Nat.not_le.mp hnot.2)
      (congrArg Prod.snd hread)
  · intro h stack buf _
    have hmin : min size ((stringLine str).length - offset) = size := by
      rcases h with hzero | hinside
      · lia
      · lia
    rcases h with hzero | hinside
    · subst hzero
      simp [read, content, readString, sliceReply, copyOut, toInt]
    · have hcopy := copyOut_localArray
        (show offset + size ≤ (stringLine str).length by lia) stack buf
      show (toInt size, copyOut _ offset size buf) =
        sliceReply (stringLine str) buf (stringLine str).length size offset
      rw [hcopy, toInt_of_lt (by lia), sliceReply, hmin]

theorem number_eq_slice_iff (v : Int32) (size offset : Nat) :
    (forall stack buf, buf.length = size ->
        (number v).read stack buf size offset =
          sliceReply (number v).content buf (number v).content.length size offset) <->
      (number v).SliceFits size offset := by
  have hint : toInt (dayLine v).length = ((dayLine v).length : Int) :=
    toInt_of_lt (dayLine_length_lt v)
  have hpos : 0 < (dayLine v).length := length_content_pos (s := .number v) (by simp)
  constructor
  · intro h
    have hread := h (fun _ => 0) (List.replicate size 1) (by simp)
    have hcount : toInt (dayLine v).length =
        ((min size ((dayLine v).length - offset) : Nat) : Int) :=
      congrArg Prod.fst hread
    rw [hint, Nat.cast_inj] at hcount
    constructor
    · lia
    · lia
  · rintro ⟨hzero, hroom⟩ stack buf _
    subst hzero
    have hmin : min size ((dayLine v).length - 0) = (dayLine v).length := by
      lia
    have hcopy := copyOut_localArray
      (Nat.le_of_eq (Nat.zero_add (dayLine v).length)) stack buf
    show (toInt (dayLine v).length, copyOut _ 0 (dayLine v).length buf) =
      sliceReply (dayLine v) buf (dayLine v).length size 0
    rw [hcopy, hint, sliceReply, hmin]

theorem nothing_eq_slice_iff (size offset : Nat) :
    (forall stack buf, buf.length = size ->
        nothing.read stack buf size offset =
          sliceReply nothing.content buf nothing.content.length size offset) <->
      nothing.SliceFits size offset := by
  have hslice : forall buf, sliceReply [] buf 0 size offset = (0, buf) := by
    intro buf
    simp [sliceReply]
  constructor
  · intro h
    have hread := h (fun _ => 0) (List.replicate size 1) (by simp)
    exact congrArg Prod.fst (hread.trans (hslice _))
  · intro h stack buf _
    show (toInt size, buf) = sliceReply [] buf 0 size offset
    rw [hslice, h]

theorem read_eq_slice_iff (s : Shown) (hfits : s.Fits) (size offset : Nat) :
    (forall stack buf, buf.length = size ->
        s.read stack buf size offset =
          sliceReply s.content buf s.content.length size offset) <->
      s.SliceFits size offset := by
  cases s with
  | text str => exact text_eq_slice_iff hfits size offset
  | number v => exact number_eq_slice_iff v size offset
  | nothing => exact nothing_eq_slice_iff size offset

end Shown

/-!
## Block after block
-/

/-- A client that reads from offset 0 on, moving by what each reply reports, until
a reply reports 0; `none` for an error or when `fuel` calls are not enough. -/
def readUntilEnd (read : Nat -> Int × List Byte) : Nat -> Nat -> Option (List Byte)
  | 0, _ => none
  | fuel + 1, offset =>
      let reply := read offset
      if reply.1 = 0 then some []
      else if reply.1 < 0 then none
      else (readUntilEnd read fuel (offset + reply.1.toNat)).map
        (fun rest => reply.2.take reply.1.toNat ++ rest)

theorem readUntilEnd_eq_none {read : Nat -> Int × List Byte}
    (h : forall offset, (read offset).1 ≠ 0) (fuel offset : Nat) :
    readUntilEnd read fuel offset = none := by
  induction fuel generalizing offset with
  | zero => rfl
  | succ fuel ih =>
      rw [readUntilEnd]
      simp only [if_neg (h offset), ih]
      split <;> rfl

theorem readUntilEnd_of_zero {read : Nat -> Int × List Byte} {offset : Nat}
    (h : (read offset).1 = 0) (fuel : Nat) :
    readUntilEnd read (fuel + 1) offset = some [] := by
  rw [readUntilEnd]
  simp only [if_pos h]

namespace Shown

def count (s : Shown) (size : Nat) : Nat :=
  match s with
  | .number v => (dayLine v).length
  | _ => size

theorem read_fst (s : Shown) (stack : Nat -> Byte) (buf : List Byte) (size offset : Nat) :
    (s.read stack buf size offset).1 = toInt (s.count size) := by
  cases s <;> rfl

/-- Reading in blocks delivers the content only if there is none and the block size
is 0 as an `int`. -/
theorem readUntilEnd_eq_content_iff (s : Shown) (stack : Nat -> Nat -> Byte)
    (block : Nat) :
    (exists fuel, readUntilEnd
        (fun offset => s.read (stack offset) (List.replicate block 0) block offset)
        fuel 0 = some s.content) <->
      s = .nothing ∧ toInt block = 0 := by
  constructor
  · rintro ⟨fuel, hread⟩
    by_cases hzero : toInt (s.count block) = 0
    · cases fuel with
      | zero => cases hread
      | succ fuel =>
          have hend : readUntilEnd
              (fun offset => s.read (stack offset) (List.replicate block 0) block offset)
              (fuel + 1) 0 = some [] := by
            apply readUntilEnd_of_zero
            rw [read_fst]
            exact hzero
          have hnil : s.content = [] := Option.some.inj (hread.symm.trans hend)
          have hnothing : s = .nothing := by
            by_contra hne
            have hpos := length_content_pos hne
            rw [hnil] at hpos
            cases hpos
          subst hnothing
          exact ⟨rfl, hzero⟩
    · have hnever : readUntilEnd
          (fun offset => s.read (stack offset) (List.replicate block 0) block offset)
          fuel 0 = none := by
        apply readUntilEnd_eq_none
        intro offset
        rw [read_fst]
        exact hzero
      rw [hnever] at hread
      cases hread
  · rintro ⟨rfl, hzero⟩
    exact ⟨1, readUntilEnd_of_zero hzero 0⟩

end Shown

/-!
## The files of a store
-/

section Files

variable {ρ : Type} [UserRep ρ]

/-- The reads of a path with the given size and offset deliver a slice of `content`,
measured by what `sh_getattr` reports. -/
def ReadsSlice (p : Process ρ) (path : Path) (content : List Byte) (size offset : Nat) :
    Prop :=
  forall stack buf, buf.length = size ->
    (shRead p stack path buf size offset).1 =
      sliceReply content buf (shGetattr p path).2.size size offset

/-- Reading block after block until 0 is returned delivers the content, whatever the
stack holds at each call. -/
def ReadsInBlocks (p : Process ρ) (path : Path) (content : List Byte) (block : Nat) :
    Prop :=
  forall stack : Nat -> Nat -> Byte, exists fuel,
    readUntilEnd
      (fun offset =>
        (shRead p (stack offset) path (List.replicate block 0) block offset).1)
      fuel 0 = some content

/-- For every attribute file that exists: `sh_getattr` reports the length of its
content; a read delivers a slice if and only if it stays inside a string, or takes a
number as a whole from its start; and reading in blocks delivers the content for a
null `reserved` and block size 0 only. -/
theorem readsSlice_iff (p : Process ρ) (user : CString) (a : Attr) (u : ρ)
    (hslash : slash ∉ user.bytes) (hlen : user.length ≤ 8)
    (hu : findRecord p.root user = some u) (path : Path)
    (hpath : path.name = fileOf user a.fileName) (hregular : ReportsRegular p path)
    (hfits : (shown u a).Fits) :
    (shGetattr p path).2.size = (shown u a).content.length ∧
      (forall size offset,
        ReadsSlice p path (shown u a).content size offset <->
          (shown u a).SliceFits size offset) ∧
      forall block,
        ReadsInBlocks p path (shown u a).content block <->
          shown u a = .nothing ∧ toInt block = 0 := by
  have hfile : path.name ≠ CString.lit "sh_file" := by
    rw [hpath]
    exact fileOf_ne_shFile _ _
  have hreach := ((reportsRegular_iff hfile).mp hregular).1
  have hlen9 : user.length ≤ 9 := Nat.le_succ_of_le hlen
  have hrecord : findRecord p.root (headName path.name) = some u := by
    rw [hpath, headName_fileOf _ hslash hlen9]
    exact hu
  have hattr : attrText path.name = a.fileName := by
    rw [hpath, attrText_fileOf _ hslash hlen9]
  have hsize : (shGetattr p path).2.size = (shown u a).content.length := by
    rw [shGetattr_file hreach.2.1 hreach.1 hrecord, hattr, attrOf_fileName,
      isAttr_eq_length]
    rfl
  have hread : forall stack buf size offset,
      (shRead p stack path buf size offset).1 =
        (shown u a).read stack buf size offset := by
    intro stack buf size offset
    rw [shRead_of_reaches hreach hfile hrecord, hattr, attrOf_fileName, readAttr_eq_read]
  refine ⟨hsize, ?_, ?_⟩
  · intro size offset
    simp only [ReadsSlice, hread, hsize]
    exact (shown u a).read_eq_slice_iff hfits size offset
  · intro block
    simp only [ReadsInBlocks, hread, (shown u a).readUntilEnd_eq_content_iff,
      forall_const]

end Files

theorem reportsRegular_binHash :
    ReportsRegular (plainProcess [binUser])
      (Path.of (CString.lit "bin/password-hash") []) :=
  (reportsRegular_iff (by decide)).mpr (by decide)

/-- The two bytes of the hash file of a locked account. -/
theorem readsSlice_binHash :
    ReadsSlice (plainProcess [binUser]) (Path.of (CString.lit "bin/password-hash") [])
      (ascii "*\n") 2 0 := by
  have h := readsSlice_iff (plainProcess [binUser]) (CString.lit "bin") .passwordHash
    binUser (by decide) (by decide) (by decide)
    (Path.of (CString.lit "bin/password-hash") []) (by decide) reportsRegular_binHash
    (show binUser.hash.length ≤ 32 by decide)
  exact (h.2.1 2 0).mpr (Or.inr (show 0 + 2 ≤ binUser.hash.length + 1 by decide))

/-- A read of four bytes reports four, though the file has two. -/
theorem not_readsSlice_binHash :
    ReportsRegular (plainProcess [binUser])
        (Path.of (CString.lit "bin/password-hash") []) ∧
      ¬ ReadsSlice (plainProcess [binUser])
        (Path.of (CString.lit "bin/password-hash") []) (ascii "*\n") 4 0 := by
  refine ⟨reportsRegular_binHash, ?_⟩
  intro h
  have hread := congrArg Prod.fst (h (fun _ => 0) (List.replicate 4 0) rfl)
  exact absurd hread (by decide)

end ShadowFs

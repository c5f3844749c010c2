import ShadowFs.Callbacks.Names

/-!
# What a write depends on

`sh_write` gets `size` bytes and treats the buffer as a string, so it also reads
what lies behind them.  A write depends on the written bytes alone if its path leads
to no attribute file, or to a day file and the bytes fix the number that `atoi` reads.
A `reserved` text always takes in the bytes behind, and so does a password.
-/

namespace ShadowFs

open CLib

/-!
## Buffers that begin with the written bytes
-/

def Begins (written : List Byte) (buf : CBuffer) : Prop :=
  written <+: buf.bytes

theorem Begins.str {written : List Byte} {buf : CBuffer} (h : Begins written buf)
    (hnul : (0 : Byte) ∉ written) : written <+: buf.str.bytes := by
  rcases h with ⟨rest, hrest⟩
  have hall := forall_ne_of_not_mem hnul
  show written <+: (buf.bytes.drop 0).takeWhile (fun b => decide (b ≠ 0))
  rw [List.drop_zero, ← hrest, List.takeWhile_append_of_pos hall]
  exact List.prefix_append _ _

theorem begins_ofCString {written : List Byte} {s : CString} (h : written <+: s.bytes) :
    Begins written (CBuffer.ofCString s []) :=
  h.trans (List.prefix_append _ _)

/-- The written bytes as a string, followed by another one. -/
def extended (written : List Byte) (hnul : (0 : Byte) ∉ written) (s : CString) : CString :=
  { bytes := written ++ s.bytes
    nulFree := by
      rw [List.mem_append, not_or]
      exact ⟨hnul, s.nulFree⟩ }

theorem prefix_extended (written : List Byte) (hnul : (0 : Byte) ∉ written) (s : CString) :
    written <+: (extended written hnul s).bytes :=
  List.prefix_append _ _

/-!
## The two runs
-/

/-- The result and the users after the write are the same for all buffers that
begin with the written bytes. -/
def WriteDetermined (env : Env User) (sf : List User) (path : Path)
    (written : List Byte) : Prop :=
  forall buf buf' : CBuffer, Begins written buf -> Begins written buf' ->
    shWrite env sf path buf written.length = shWrite env sf path buf' written.length

/-- The attribute does not look behind the written bytes. -/
def Confined (attr : Option Attr) (written : List Byte) : Prop :=
  match attr with
  | none => True
  | some .passwordHash => False
  | some .reserved => False
  | some _ => Pinned written

/-- The edit of the record is the same for all buffers. -/
def EditDetermined (env : Env User) (attr : Option Attr) (u : User)
    (written : List Byte) : Prop :=
  forall buf buf' : CBuffer, Begins written buf -> Begins written buf' ->
    writeEdit env attr buf u = writeEdit env attr buf' u

theorem atoi_eq_of_pinned {written : List Byte} (hnul : (0 : Byte) ∉ written)
    (h : Pinned written) {buf : CBuffer} (hbuf : Begins written buf) :
    atoi buf.str.bytes = atoi written := by
  rcases hbuf.str hnul with ⟨ext, hext⟩
  rw [← hext, h.atoi_append]

/-- Strings with the same beginning tell the buffers apart if the edit does. -/
theorem EditDetermined.of_strings {env : Env User} {attr : Option Attr} {u : User}
    {written : List Byte} (h : EditDetermined env attr u written) {s s' : CString}
    (hs : written <+: s.bytes) (hs' : written <+: s'.bytes) :
    writeEdit env attr (CBuffer.ofCString s []) u =
      writeEdit env attr (CBuffer.ofCString s' []) u :=
  h _ _ (begins_ofCString hs) (begins_ofCString hs')

theorem editDetermined_day_iff {env : Env User} {attr : Option Attr} {u : User}
    {written : List Byte} (hnul : (0 : Byte) ∉ written) (d : DayField)
    (hedit : forall buf, writeEdit env attr buf u =
      User.setDay d (atoi buf.str.bytes) u) :
    EditDetermined env attr u written <-> Pinned written := by
  constructor
  · intro h
    have hread : forall s : CString, written <+: s.bytes ->
        atoi s.bytes = atoi (extended written hnul (CString.lit "")).bytes := by
      intro s hs
      have hsame := h.of_strings hs (prefix_extended written hnul (CString.lit ""))
      rw [hedit, hedit] at hsame
      have hday := congrArg (User.day d) hsame
      rwa [User.day_setDay_self, User.day_setDay_self, CBuffer.str_ofCString,
        CBuffer.str_ofCString] at hday
    have hempty : (extended written hnul (CString.lit "")).bytes = written :=
      List.append_nil written
    rw [hempty] at hread
    constructor
    · exact hread (extended written hnul (CString.lit "0")) (List.prefix_append _ _)
    · exact hread (extended written hnul (CString.lit "1")) (List.prefix_append _ _)
  · intro h buf buf' hbuf hbuf'
    rw [hedit, hedit, atoi_eq_of_pinned hnul h hbuf, atoi_eq_of_pinned hnul h hbuf']

theorem editDetermined_iff (env : Env User) {attr : Option Attr} (u : User)
    (hattr : attr ≠ some .passwordHash) {written : List Byte} (hnul : (0 : Byte) ∉ written) :
    EditDetermined env attr u written <-> Confined attr written := by
  cases attr with
  | none => exact ⟨fun _ => trivial, fun _ _ _ _ _ => rfl⟩
  | some attr =>
      cases attr with
      | passwordHash => exact absurd rfl hattr
      | reserved =>
          constructor
          · intro h
            have hsame := congrArg User.reserved (h.of_strings
              (prefix_extended written hnul (CString.lit "0"))
              (prefix_extended written hnul (CString.lit "1")))
            simp only [writeEdit, CBuffer.str_ofCString, User.rep_setReserved,
              Option.some.injEq] at hsame
            have hbytes := congrArg CString.bytes hsame
            exact absurd (List.append_cancel_left hbytes) (by decide)
          · exact False.elim
      | daysSinceChanged => exact editDetermined_day_iff hnul .dsc (fun _ => rfl)
      | daysUntilCanChange => exact editDetermined_day_iff hnul .dcc (fun _ => rfl)
      | daysUntilMustChange => exact editDetermined_day_iff hnul .dmc (fun _ => rfl)
      | daysBeforeWarning => exact editDetermined_day_iff hnul .dw (fun _ => rfl)
      | daysUntilExpiration => exact editDetermined_day_iff hnul .de (fun _ => rfl)
      | daysSinceAccountDeactivated =>
          exact editDetermined_day_iff hnul .dd (fun _ => rfl)

theorem Confined.editDetermined {env : Env User} {attr : Option Attr} {written : List Byte}
    (h : Confined attr written) (u : User) (hnul : (0 : Byte) ∉ written) :
    EditDetermined env attr u written := by
  refine (editDetermined_iff env u ?_ hnul).mpr h
  rintro rfl
  exact h

theorem writeDetermined_iff_editDetermined (env : Env User) {sf front back : List User}
    {u : User} {path : Path} (written : List Byte) (hreach : Reaches sf path.name)
    (hm : FirstMatch sf (headName path.name) front u back) :
    WriteDetermined env sf path written <->
      EditDetermined env (attrOf (attrText path.name)) u written := by
  have hwrite : forall buf : CBuffer, shWrite env sf path buf written.length =
      (toInt written.length,
        front ++ writeEdit env (attrOf (attrText path.name)) buf u :: back) := by
    intro buf
    rw [shWrite_of_reaches hreach, hm.writeAttr_eq (User.rep_terminated u)]
  constructor
  · intro h buf buf' hbuf hbuf'
    have hsame := h buf buf' hbuf hbuf'
    rw [hwrite, hwrite, Prod.mk.injEq] at hsame
    exact (List.cons.inj (List.append_cancel_left hsame.2)).1
  · intro h buf buf' hbuf hbuf'
    rw [hwrite, hwrite, h buf buf' hbuf hbuf']

/-- For every store, path, day and written bytes without a NUL: the write depends on
these bytes only if the path leads to no attribute that looks behind them, and it does
not otherwise, unless to a `password-hash`. -/
theorem writeDetermined_of_confined (env : Env User) (sf : List User) (path : Path)
    (written : List Byte) (hnul : (0 : Byte) ∉ written) :
    ((Reaches sf path.name -> Confined (attrOf (attrText path.name)) written) ->
        WriteDetermined env sf path written) ∧
      (WriteDetermined env sf path written -> Reaches sf path.name ->
        attrOf (attrText path.name) ≠ some .passwordHash ->
        Confined (attrOf (attrText path.name)) written) := by
  by_cases hreach : Reaches sf path.name
  · rcases hreach.exists_firstMatch with ⟨front, u, back, hm⟩
    have hiff := writeDetermined_iff_editDetermined env written hreach hm
    constructor
    · intro h
      exact hiff.mpr ((h hreach).editDetermined u hnul)
    · intro h _ hattr
      exact (editDetermined_iff env u hattr hnul).mp (hiff.mp h)
  · constructor
    · intro _ buf buf' _ _
      rw [shWrite_of_not_reaches hreach, shWrite_of_not_reaches hreach]
    · intro _ h
      exact absurd h hreach

/-- The newline ends the number. -/
theorem writeDetermined_newline :
    WriteDetermined plainEnv [binUser] (Path.of (CString.lit "bin/days_before_warning") [])
      (ascii "14\n") := by
  refine (writeDetermined_of_confined plainEnv [binUser] _ (ascii "14\n") (by decide)).1 ?_
  intro _
  have hattr : attrOf (attrText (Path.of (CString.lit "bin/days_before_warning") []).name) =
      some .daysBeforeWarning := by decide
  rw [hattr]
  show Pinned (ascii "14\n")
  decide

/-- A write of the single byte `1` stores 12 or 13, depending on the byte behind it. -/
theorem not_writeDetermined_digit :
    Begins (ascii "1") (CBuffer.ofCString (CString.lit "12") []) ∧
      Begins (ascii "1") (CBuffer.ofCString (CString.lit "13") []) ∧
      shWrite plainEnv [binUser] (Path.of (CString.lit "bin/days_before_warning") [])
          (CBuffer.ofCString (CString.lit "12") []) 1 =
        (1, [{ binUser with dw := 12 }]) ∧
      shWrite plainEnv [binUser] (Path.of (CString.lit "bin/days_before_warning") [])
          (CBuffer.ofCString (CString.lit "13") []) 1 =
        (1, [{ binUser with dw := 13 }]) ∧
      ¬ WriteDetermined plainEnv [binUser]
        (Path.of (CString.lit "bin/days_before_warning") []) (ascii "1") := by
  have hfirst : Begins (ascii "1") (CBuffer.ofCString (CString.lit "12") []) :=
    ⟨ascii "2" ++ [0], by decide⟩
  have hsecond : Begins (ascii "1") (CBuffer.ofCString (CString.lit "13") []) :=
    ⟨ascii "3" ++ [0], by decide⟩
  refine ⟨hfirst, hsecond, rfl, rfl, ?_⟩
  intro h
  have hsame := congrArg (fun res => res.2.map User.dw) (h _ _ hfirst hsecond)
  exact absurd hsame (by decide)

end ShadowFs

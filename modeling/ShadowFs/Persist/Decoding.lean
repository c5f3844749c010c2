import ShadowFs.Persist.Reload
import ShadowFs.Tree.Image

/-!
# What the text determines

`sf_deparse` separates the fields of a record by colons and the records by newlines.
The last field of a line may contain colons itself, and zero is printed in two ways.
Still nothing is lost: a newline ends the line because no field contains one, the
first eight colons end the first eight fields, and a blank number can only be zero.
What cannot be told apart from the text alone, a null `reserved` and an empty one, is
excluded.
-/

namespace ShadowFs

open CLib UserRep

section Decoding

variable {ρ : Type} [UserRep ρ]

/-- A record without the characters that end its fields. -/
structure Delimited (u : ρ) : Prop where
  nameColonFree : colon ∉ (username u).bytes
  nameNewlineFree : newline ∉ (username u).bytes
  hashColonFree : colon ∉ (hash u).bytes
  hashNewlineFree : newline ∉ (hash u).bytes
  reservedPlain : forall r, reserved u = some r -> r.bytes ≠ [] ∧ newline ∉ r.bytes

/-!
## Fields
-/

theorem intText_inj {v w : Int32} (h : intText v.toInt = intText w.toInt) : v = w := by
  have hread := congrArg atoi h
  rw [atoi_intText, atoi_intText] at hread
  exact hread

theorem blankField_eq_nil_iff (v : Int32) : blankField v = [] <-> v = 0 := by
  unfold blankField
  split
  · rename_i hzero
    exact iff_of_true rfl hzero
  · rename_i hne
    exact iff_of_false (intText_ne_nil v.toInt) hne

/-- Only zero is left blank. -/
theorem blankField_inj {v w : Int32} (h : blankField v = blankField w) : v = w := by
  by_cases hv : v = 0
  · rw [(blankField_eq_nil_iff v).mpr hv] at h
    rw [hv, (blankField_eq_nil_iff w).mp h.symm]
  · have hw : w ≠ 0 := by
      intro hzero
      rw [(blankField_eq_nil_iff w).mpr hzero] at h
      exact hv ((blankField_eq_nil_iff v).mp h)
    rw [blankField, blankField, if_neg hv, if_neg hw] at h
    exact intText_inj h

theorem reserved_eq_of_text {u v : ρ} (hu : Delimited u) (hv : Delimited v)
    (h : reservedText u = reservedText v) : reserved u = reserved v := by
  unfold reservedText at h
  cases hres : reserved u with
  | none =>
      cases hres' : reserved v with
      | none => rfl
      | some r' =>
          rw [hres, hres'] at h
          exact absurd h.symm (hv.reservedPlain r' hres').1
  | some r =>
      cases hres' : reserved v with
      | none =>
          rw [hres, hres'] at h
          exact absurd h (hu.reservedPlain r hres).1
      | some r' =>
          rw [hres, hres'] at h
          exact congrArg some (CString.ext h)

theorem Delimited.newline_not_mem_reservedText {u : ρ} (hu : Delimited u) :
    newline ∉ reservedText u := by
  unfold reservedText
  cases hres : reserved u with
  | none => simp
  | some r => exact (hu.reservedPlain r hres).2

/-!
## Lines
-/

/-- A line is its nine fields with a colon behind each of the first eight. -/
theorem lineBody_eq_fields (u : ρ) :
    lineBody u =
      (username u).bytes ++ colon :: ((hash u).bytes ++ colon ::
        (intText (day .dsc u).toInt ++ colon :: (intText (day .dcc u).toInt ++ colon ::
          (blankField (day .dmc u) ++ colon :: (blankField (day .dw u) ++ colon ::
            (blankField (day .de u) ++ colon :: (blankField (day .dd u) ++ colon ::
              reservedText u))))))) := by
  simp [lineBody, dayText, blankIfZero_eq]

theorem Delimited.newline_not_mem_lineBody {u : ρ} (hu : Delimited u) :
    newline ∉ lineBody u := by
  have hdays : newline ∉ dayText u :=
    not_mem_dayText (by decide) newline_not_mem_intText hu.newline_not_mem_reservedText
  have hcolon : newline ≠ colon := by decide
  simp [lineBody, hu.nameNewlineFree, hu.hashNewlineFree, hdays, hcolon]

theorem toUser_eq_of_lineBody {u v : ρ} (hu : Delimited u) (hv : Delimited v)
    (h : lineBody u = lineBody v) : toUser u = toUser v := by
  have hint := fun w : Int32 => colon_not_mem_intText w.toInt
  have hblank := colon_not_mem_blankField
  rw [lineBody_eq_fields, lineBody_eq_fields] at h
  rcases append_delim_inj hu.nameColonFree hv.nameColonFree h with ⟨hname, h1⟩
  rcases append_delim_inj hu.hashColonFree hv.hashColonFree h1 with ⟨hhash, h2⟩
  rcases append_delim_inj (hint _) (hint _) h2 with ⟨hdsc, h3⟩
  rcases append_delim_inj (hint _) (hint _) h3 with ⟨hdcc, h4⟩
  rcases append_delim_inj (hblank _) (hblank _) h4 with ⟨hdmc, h5⟩
  rcases append_delim_inj (hblank _) (hblank _) h5 with ⟨hdw, h6⟩
  rcases append_delim_inj (hblank _) (hblank _) h6 with ⟨hde, h7⟩
  rcases append_delim_inj (hblank _) (hblank _) h7 with ⟨hdd, h8⟩
  rw [toUser, toUser, CString.ext hname, CString.ext hhash, intText_inj hdsc,
    intText_inj hdcc, blankField_inj hdmc, blankField_inj hdw, blankField_inj hde,
    blankField_inj hdd, reserved_eq_of_text hu hv h8]

/-!
## Files
-/

theorem sfDeparse_cons (u : ρ) (sf : List ρ) :
    sfDeparse (u :: sf) = lineBody u ++ newline :: sfDeparse sf := by
  simp [sfDeparse, deparseUser_eq]

/-- Two lists with the same text are equal record by record. -/
theorem toUser_eq_of_sfDeparse (sf sf' : List ρ) (hsf : forall u, u ∈ sf -> Delimited u)
    (hsf' : forall u, u ∈ sf' -> Delimited u) (h : sfDeparse sf = sfDeparse sf') :
    sf.map toUser = sf'.map toUser := by
  -- Induction on one list; the other is cut at the newline of its first line.
  induction sf generalizing sf' with
  | nil =>
      cases sf' with
      | nil => rfl
      | cons v sf' =>
          rw [sfDeparse_cons] at h
          have hlen := congrArg List.length h
          simp [sfDeparse] at hlen
  | cons u sf ih =>
      cases sf' with
      | nil =>
          rw [sfDeparse_cons] at h
          have hlen := congrArg List.length h
          simp [sfDeparse] at hlen
      | cons v sf' =>
          have hu := hsf u List.mem_cons_self
          have hv := hsf' v List.mem_cons_self
          rw [sfDeparse_cons, sfDeparse_cons] at h
          rcases append_delim_inj hu.newline_not_mem_lineBody hv.newline_not_mem_lineBody h
            with ⟨hline, hrest⟩
          have htail := ih sf' (fun w hw => hsf w (List.mem_cons_of_mem u hw))
            (fun w hw => hsf' w (List.mem_cons_of_mem v hw)) hrest
          rw [List.map_cons, List.map_cons, toUser_eq_of_lineBody hu hv hline, htail]

end Decoding

/-- A new record in a block that was filled with some byte before. -/
def binImage (b : Byte) : UserImage :=
  initUser { time := 0, block := none, buffer := true } (CString.lit "bin")
    { bytes := List.replicate 72 b, size := List.length_replicate, reserved := none }

theorem delimited_binImage (b : Byte) : Delimited (binImage b) := by
  have hname : username (binImage b) = CString.lit "bin" := username_initUser _ _ (by decide)
  have hhash : hash (binImage b) = CString.lit "*" := hash_initUser _ _
  constructor
  · rw [hname]
    decide
  · rw [hname]
    decide
  · rw [hhash]
    decide
  · rw [hhash]
    decide
  · intro r hr
    cases hr

/-- Two records with the same text, in blocks with different contents. -/
theorem toUser_eq_binImage : [binImage 0].map toUser = [binImage 32].map toUser := by
  have hbin : forall b u, u ∈ [binImage b] -> Delimited u := by
    intro b u hu
    rw [List.mem_singleton.mp hu]
    exact delimited_binImage b
  exact toUser_eq_of_sfDeparse [binImage 0] [binImage 32] (hbin 0) (hbin 32) (by decide)

end ShadowFs

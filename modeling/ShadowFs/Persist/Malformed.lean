import ShadowFs.Persist.Parse

/-!
# Lines without a name or a hash

`init_parse` has two tests for a missing field, and each prints a message and
returns the records read so far.  They compare the copied token with the empty
string.  A token is never empty, and for a missing one `strtok` returns `NULL`,
which is copied before the test.  So the tests never succeed: a line with too few
fields either faults or takes its newline for the hash.
-/

namespace ShadowFs

open CLib UserRep

def lineText (line : List Byte) : List Byte :=
  (CString.ofBytes line).bytes.takeWhile (fun b => b ≠ newline)

/-- No user name or no password hash, for want of a second token: blank lines, lines of
colons and lines with one token. -/
def Malformed (line : List Byte) : Prop :=
  (strtok colon (lineText line)).bind (fun first => strtok colon first.2) = none

instance (line : List Byte) : Decidable (Malformed line) :=
  inferInstanceAs (Decidable (_ = _))

/-- The tokens copied from a line fit `user[16]` and `hash[33]`. -/
def TokensFit (line : List Byte) : Prop :=
  forall user rest, strtok colon (CString.ofBytes line).bytes = some (user, rest) ->
    user.length < 16 ∧
      forall hash rest', strtok colon rest = some (hash, rest') -> hash.length < 33

section Lines

variable {ρ : Type} [UserRep ρ]

/-- A malformed line ends the loading run with the records of the lines before it, and
every other line is stored without a fault. -/
def HandlesLines (load : LoadEnv ρ) : Nat -> List (List Byte) -> List ρ -> Prop
  | _, [], _ => True
  | k, line :: lines, sf =>
      (Malformed line -> parseLine (load.line k) sf line = .ok (.stop sf)) ∧
        (¬ Malformed line ->
          exists sf', parseLine (load.line k) sf line = .ok (.next sf') ∧
            HandlesLines load (k + 1) lines sf')

/-- The whole file, in the lines `fgets` delivers. -/
def ReportsMalformed (load : LoadEnv ρ) (file : List Byte) : Prop :=
  HandlesLines load 0 (readLines 256 file) (sfTreeInit load)

/-!
## What the loop body does
-/

theorem tokens_of_not_malformed {line : List Byte} (h : ¬ Malformed line) :
    exists user rest hash rest',
      strtok colon (CString.ofBytes line).bytes = some (user, rest) ∧
        strtok colon rest = some (hash, rest') := by
  unfold Malformed at h
  cases huser : strtok colon (lineText line) with
  | none =>
      rw [huser] at h
      exact absurd rfl h
  | some first =>
      rcases first with ⟨user, rest⟩
      rw [huser] at h
      have hsecond : strtok colon rest ≠ none := h
      let behind := (CString.ofBytes line).bytes.dropWhile (fun b => decide (b ≠ newline))
      have hsplit : lineText line ++ behind = (CString.ofBytes line).bytes :=
        List.takeWhile_append_dropWhile
      have hrest : rest ≠ [] := by
        intro hnil
        rw [hnil] at hsecond
        exact hsecond (strtok_nil colon)
      have hjoined := strtok_append huser hrest behind
      rw [hsplit] at hjoined
      have hmore : strtok colon (rest ++ behind) ≠ none := by
        intro hnone
        rw [strtok_eq_none_iff] at hnone
        exact hsecond (strtok_eq_none_iff.mpr
          (fun b hb => hnone b (List.mem_append_left behind hb)))
      rcases Option.ne_none_iff_exists'.mp hmore with ⟨⟨hash, rest'⟩, hhash⟩
      exact ⟨user, rest ++ behind, hash, rest', hjoined, hhash⟩

theorem parseLine_of_not_malformed {line : List Byte} (h : ¬ Malformed line)
    (hfit : TokensFit line) (env : Env ρ) (sf : List ρ) :
    exists sf', parseLine env sf line = .ok (.next sf') := by
  rcases tokens_of_not_malformed h with ⟨user, rest, hash, rest', huser, hhash⟩
  rcases hfit user rest huser with ⟨huserLen, hhashFit⟩
  have hhashLen := hhashFit hash rest' hhash
  rcases ofBytes_token_ne_empty (CString.ofBytes line).nulFree huser with ⟨hname, hnul⟩
  have hhashText := (ofBytes_token_ne_empty hnul hhash).1
  refine ⟨parseDays (updateHash (sfTreeAddUser env sf (CString.ofBytes user)).2
    (CString.ofBytes user) (CString.ofBytes hash)).2 (CString.ofBytes user) rest', ?_⟩
  simp only [parseLine, huser, hhash, ge_iff_le, if_neg (Nat.not_le.mpr huserLen),
    if_neg (Nat.not_le.mpr hhashLen), if_neg hname, if_neg hhashText]

/-- Induction over the lines: the first malformed one is not reported. -/
theorem handlesLines_iff (load : LoadEnv ρ) (lines : List (List Byte)) (k : Nat)
    (sf : List ρ) (hfit : forall line, line ∈ lines -> TokensFit line) :
    HandlesLines load k lines sf <-> forall line, line ∈ lines -> ¬ Malformed line := by
  induction lines generalizing k sf with
  | nil => simp [HandlesLines]
  | cons line lines ih =>
      have hrestFit : forall l, l ∈ lines -> TokensFit l := fun l hl => hfit l (by simp [hl])
      rw [List.forall_mem_cons]
      constructor
      · intro h
        have hgood : ¬ Malformed line := by
          intro hbad
          have hstop := parseLine_next (h.1 hbad)
          cases hstop
        rcases h.2 hgood with ⟨sf', _, hrest⟩
        exact ⟨hgood, (ih (k + 1) sf' hrestFit).mp hrest⟩
      · rintro ⟨hgood, hlines⟩
        refine ⟨fun hbad => absurd hbad hgood, fun _ => ?_⟩
        rcases parseLine_of_not_malformed hgood (hfit line (by simp)) (load.line k) sf with
          ⟨sf', hline⟩
        exact ⟨sf', hline, (ih (k + 1) sf' hrestFit).mpr hlines⟩

/-- For a file whose tokens fit their buffers: malformed lines are reported as intended
if and only if there are none. -/
theorem reportsMalformed_iff (load : LoadEnv ρ) (file : List Byte)
    (hfit : forall line, line ∈ readLines 256 file -> TokensFit line) :
    ReportsMalformed load file <->
      forall line, line ∈ readLines 256 file -> ¬ Malformed line :=
  handlesLines_iff load (readLines 256 file) 0 (sfTreeInit load) hfit

end Lines

theorem readLines_binLine : readLines 256 (ascii "bin:*:15819\n") = [ascii "bin:*:15819\n"] := by
  decide

theorem reportsMalformed_binLine : ReportsMalformed plainLoad (ascii "bin:*:15819\n") := by
  refine (reportsMalformed_iff plainLoad _ ?_).mpr ?_
  · intro line hline
    rw [readLines_binLine, List.mem_singleton] at hline
    subst hline
    intro user rest huser
    have hfirst : strtok colon (CString.ofBytes (ascii "bin:*:15819\n")).bytes =
        some (ascii "bin", ascii "*:15819\n") := by
      decide
    rw [hfirst] at huser
    cases huser
    refine ⟨by decide, ?_⟩
    intro hash rest' hhash
    have hsecond : strtok colon (ascii "*:15819\n") = some (ascii "*", ascii "15819\n") := by
      decide
    rw [hsecond] at hhash
    cases hhash
    decide
  · intro line hline
    rw [readLines_binLine, List.mem_singleton] at hline
    subst hline
    decide

/-- A blank line is not reported: its newline is taken for a user name and the missing
hash is copied from a null pointer. -/
theorem not_reportsMalformed_blank :
    Malformed [newline] ∧ initParse plainLoad [newline] = .error .nullPointer ∧
      ¬ ReportsMalformed plainLoad [newline] := by
  have hbad : Malformed [newline] := by
    decide
  refine ⟨hbad, rfl, ?_⟩
  intro h
  have hlines : readLines 256 [newline] = [[newline]] := by
    decide
  rw [ReportsMalformed, hlines] at h
  cases parseLine_next (h.1 hbad)

end ShadowFs

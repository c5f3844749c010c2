import ShadowFs.Persist.Records

/-!
# Lines longer than the buffer

`init_parse` reads the file through a buffer of 256 bytes and treats what one `fgets`
delivers as one line.  A longer line is cut after every 255 bytes, and each piece behind
the first is parsed as a line of its own: its first token is taken for a user name and its
second for a hash.

The file is loaded line by line if no line is longer than the buffer.  With a longer line
the list is the right one only if all the pieces describe records and these records happen
to add up to those of the lines.
-/

namespace ShadowFs

open CLib UserRep

/-!
## Lines that fit
-/

section Rep

variable {ρ : Type} [UserRep ρ]

/-- The loop of `init_parse`, given whole lines. -/
def parseWholeLines (load : LoadEnv ρ) (file : List Byte) : Except Fault (List ρ) :=
  parseLines load 0 (wholeLines file) (sfTreeInit load)

theorem initParse_of_fits (load : LoadEnv ρ) {file : List Byte}
    (hfits : forall line, line ∈ wholeLines file -> line.length ≤ 255) :
    initParse load file = parseWholeLines load file := by
  rw [initParse, readLines_eq_wholeLines (by decide) file hfits]
  rfl

/-!
## Lines without a fault
-/

/-- The two arrays of the loop body leave room for a name of 15 and a hash of 32 bytes. -/
theorem hasRecord_of_parseLine {env : Env ρ} {sf : List ρ} {line : List Byte}
    {outcome : LineOutcome ρ} (h : parseLine env sf line = .ok outcome) :
    HasRecord 32 line := by
  have hnext := parseLine_next h
  cases parseLine_effect h with
  | noName _ _ _ => cases hnext
  | noHash _ _ _ _ _ _ => cases hnext
  | record huser huserLen _ hhash hhashLen _ =>
      have htokens := tokens_of_some huser
      rw [tokens_of_some hhash] at htokens
      refine ⟨?_, ?_, ?_⟩
      · simp [lineTokens, htokens]
      · simpa [lineTokens, htokens] using Nat.le_of_lt_succ huserLen
      · simpa [lineTokens, htokens] using Nat.le_of_lt_succ hhashLen

theorem hasRecord_of_parseLines {load : LoadEnv ρ} {lines : List (List Byte)} {k : Nat}
    {sf sf' : List ρ} (h : parseLines load k lines sf = .ok sf') :
    forall line, line ∈ lines -> HasRecord 32 line := by
  induction lines generalizing k sf with
  | nil => exact fun _ hline => absurd hline List.not_mem_nil
  | cons line lines ih =>
      rcases parseLines_cons_ok h with ⟨outcome, hline, hrest⟩
      rw [List.forall_mem_cons]
      exact ⟨hasRecord_of_parseLine hline, ih hrest⟩

end Rep

/-!
## The accounts of a file
-/

/-- The users some records are about, in the order of first occurrence, each with the last
record about it. -/
def accounts (us : List User) : List (Option User) :=
  (us.map User.username).eraseDups.map (lastUser us)

theorem Gathers.accounts_eq {us sf : List User} (h : Gathers us sf) :
    accounts us = sf.map some := by
  have hnames : (us.map User.username).eraseDups = sf.map username := h.names.symm
  rw [accounts, hnames, List.map_map]
  exact List.map_congr_left h.fields

theorem Gathers.eq_iff {us vs sf tf : List User} (hsf : Gathers us sf) (htf : Gathers vs tf) :
    sf = tf <-> accounts us = accounts vs := by
  rw [hsf.accounts_eq, htf.accounts_eq,
    List.map_inj_right (fun _ _ heq => Option.some.inj heq)]

/-!
## Lines that do not fit
-/

/-- A line does not matter as a unit of the buffer: the loaded list is the one of the whole
lines, and each of its users is named by the first token of a line. -/
structure LineIndependent (load : LoadEnv User) (file : List Byte) : Prop where
  sameList : initParse load file = parseWholeLines load file
  named : forall sf, initParse load file = .ok sf -> forall u, u ∈ sf ->
    exists line, line ∈ wholeLines file ∧ (lineTokens line)[0]? = some u.username.bytes

/-- The pieces of the lines are records that add up to the accounts of the lines. -/
structure PiecesAgree (file : List Byte) : Prop where
  records : forall piece, piece ∈ (wholeLines file).flatMap (pieces 255) ->
    HasRecord 32 piece
  sameAccounts : accounts (((wholeLines file).flatMap (pieces 255)).map lineUser) =
    accounts ((wholeLines file).map lineUser)

theorem initParse_eq_pieces (load : LoadEnv User) (file : List Byte) :
    initParse load file =
      parseLines load 0 ((wholeLines file).flatMap (pieces 255)) (sfTreeInit load) := by
  rw [initParse, readLines_eq_flatMap_pieces (by decide)]

section Plain

variable {load : LoadEnv User} (hhead : load.head = [])
  (hblocks : forall k, (load.line k).block ≠ none) {file : List Byte}
  (hlines : forall line, line ∈ wholeLines file -> HasRecord hashCapacity line)

include hhead hblocks hlines

theorem parseWholeLines_named {sf : List User} (h : parseWholeLines load file = .ok sf)
    {u : User} (hu : u ∈ sf) :
    exists line, line ∈ wholeLines file ∧ (lineTokens line)[0]? = some u.username.bytes := by
  rcases parseLines_gathers keepsHash_hashCapacity (by decide) hhead hblocks hlines with
    ⟨sf', hparse, hsf'⟩
  rw [parseWholeLines, hparse] at h
  cases h
  have hmem := List.mem_map_of_mem hu (f := username)
  rw [hsf'.names, List.mem_eraseDups, List.map_map, List.mem_map] at hmem
  rcases hmem with ⟨line, hline, hname⟩
  rcases (hlines line hline).tokens_eq with ⟨user, _, _, _, _, _, htokens⟩
  have hfirst : u.username = user := by
    rw [← User.rep_username, ← hname]
    simp [lineUser, htokens]
  refine ⟨line, hline, ?_⟩
  rw [htokens, hfirst]
  rfl

theorem initParse_eq_parseWholeLines_iff :
    initParse load file = parseWholeLines load file <-> PiecesAgree file := by
  rcases parseLines_gathers keepsHash_hashCapacity (by decide) hhead hblocks hlines with
    ⟨tf, htf, hwhole⟩
  rw [initParse_eq_pieces, parseWholeLines, htf]
  constructor
  · intro h
    have hrecords := hasRecord_of_parseLines h
    rcases parseLines_gathers (keepsHash_user 32) (by decide) hhead hblocks hrecords with
      ⟨sf, hsf, hcut⟩
    rw [hsf] at h
    cases h
    exact ⟨hrecords, (hcut.eq_iff hwhole).mp rfl⟩
  · intro h
    rcases parseLines_gathers (keepsHash_user 32) (by decide) hhead hblocks h.records with
      ⟨sf, hsf, hcut⟩
    rw [hsf, (hcut.eq_iff hwhole).mpr h.sameAccounts]

/-- The pieces of a file to which the buffer does not matter begin with names of lines. -/
theorem LineIndependent.named_piece (h : LineIndependent load file) {piece : List Byte}
    (hpiece : piece ∈ (wholeLines file).flatMap (pieces 255)) :
    exists line, line ∈ wholeLines file ∧ (lineTokens piece)[0]? = (lineTokens line)[0]? := by
  have hrecords := ((initParse_eq_parseWholeLines_iff hhead hblocks hlines).mp h.sameList).records
  rcases parseLines_gathers (keepsHash_user 32) (by decide) hhead hblocks hrecords with
    ⟨sf, hsf, hcut⟩
  rcases (hrecords piece hpiece).tokens_eq with ⟨user, _, _, _, _, _, htokens⟩
  have hname : (lineUser piece).username = user := by simp [lineUser, htokens]
  have hmem : user ∈ sf.map username := by
    rw [hcut.names, List.mem_eraseDups, List.map_map, List.mem_map]
    exact ⟨piece, hpiece, hname⟩
  rcases List.mem_map.mp hmem with ⟨u, hu, huser⟩
  rw [← initParse_eq_pieces] at hsf
  rcases h.named sf hsf u hu with ⟨line, hline, hfirst⟩
  refine ⟨line, hline, ?_⟩
  rw [hfirst, htokens, ← User.rep_username, huser]
  rfl

/-- The buffer does not matter to a file in which no line, with its newline, is longer than
255 bytes.  It does if a piece of a longer line begins with a name that no line begins with. -/
theorem lineIndependent_of_fits :
    ((forall line, line ∈ wholeLines file -> line.length ≤ 255) -> LineIndependent load file) ∧
      ((exists piece, piece ∈ (wholeLines file).flatMap (pieces 255) ∧
          forall line, line ∈ wholeLines file ->
            (lineTokens piece)[0]? ≠ (lineTokens line)[0]?) ->
        ¬ LineIndependent load file) := by
  constructor
  · intro hfits
    have hsame := initParse_of_fits load hfits
    refine ⟨hsame, ?_⟩
    intro sf hsf u hu
    rw [hsame] at hsf
    exact parseWholeLines_named hhead hblocks hlines hsf hu
  · rintro ⟨piece, hpiece, hother⟩ h
    rcases h.named_piece hhead hblocks hlines hpiece with ⟨line, hline, hfirst⟩
    exact hother line hline hfirst

end Plain

theorem lineIndependent_repeatedFile : LineIndependent plainLoad repeatedFile := by
  have hlines : forall line, line ∈ wholeLines repeatedFile -> HasRecord hashCapacity line := by
    decide
  have hfits : forall line, line ∈ wholeLines repeatedFile -> line.length ≤ 255 := by decide
  exact (lineIndependent_of_fits rfl (fun _ => Option.some_ne_none _) hlines).1 hfits

/-- One line about `a`, with `b:c` behind the 255th byte. -/
def longLineFile : List Byte :=
  ascii "a:*:" ++ List.replicate 252 colon ++ ascii "b:c\n"

theorem longLineFile_hasRecord :
    forall line, line ∈ wholeLines longLineFile -> HasRecord hashCapacity line := by
  decide +kernel

theorem not_lineIndependent_longLineFile :
    (forall line, line ∈ wholeLines longLineFile -> HasRecord hashCapacity line) ∧
      ¬ LineIndependent plainLoad longLineFile := by
  refine ⟨longLineFile_hasRecord, ?_⟩
  intro h
  have hwhole : (parseWholeLines plainLoad longLineFile).map (List.map User.username) =
      .ok [CString.lit "a"] := by decide +kernel
  have hcut : (initParse plainLoad longLineFile).map (List.map User.username) =
      .ok [CString.lit "a", CString.lit "b"] := by decide +kernel
  rw [h.sameList, hwhole] at hcut
  revert hcut
  decide

end ShadowFs

import ShadowFs.Persist.Parse

/-!
# Loading what was written

This module follows the text of `sf_deparse` through `init_parse`.  A record is
`Printable` when its name and hash survive `strtok`, its line fits the buffer of
`fgets` and nothing in it looks like the end of a line.  A list of printable
records with distinct names is read back record by record, each one built from
a fresh block by the assignments of `reload`.

The numbers of a line need more care: zero fields are written as nothing
between two colons, and `strtok` merges such colons, so the numbers that follow
a blank field move up.  `intsFrom_blankIfZero` states exactly what is read.
-/

namespace ShadowFs

open CLib UserRep

/-- A text that `strtok` returns as one token. -/
structure FieldText (s : CString) : Prop where
  nonempty : s.bytes ≠ []
  colonFree : colon ∉ s.bytes
  newlineFree : newline ∉ s.bytes

instance (s : CString) : Decidable (FieldText s) :=
  decidable_of_iff (s.bytes ≠ [] ∧ colon ∉ s.bytes ∧ newline ∉ s.bytes)
    ⟨fun h => ⟨h.1, h.2.1, h.2.2⟩, fun h => ⟨h.nonempty, h.colonFree, h.newlineFree⟩⟩

section Lines

variable {ρ : Type} [UserRep ρ]

def reservedText (u : ρ) : List Byte :=
  match reserved u with
  | none => []
  | some r => r.bytes

/-- The part of a line behind user name and hash. -/
def dayText (u : ρ) : List Byte :=
  intText (day .dsc u).toInt ++ colon ::
    (intText (day .dcc u).toInt ++ colon ::
      ([day .dmc u, day .dw u, day .de u, day .dd u].flatMap blankIfZero ++
        reservedText u))

def lineBody (u : ρ) : List Byte :=
  (username u).bytes ++ colon :: ((hash u).bytes ++ colon :: dayText u)

theorem deparseUser_eq (u : ρ) : deparseUser u = lineBody u ++ [newline] := by
  have hzero : (if day .dcc u = 0 then ascii "0:"
      else intText (day .dcc u).toInt ++ [colon]) =
        intText (day .dcc u).toInt ++ [colon] := by
    split
    · rename_i h
      rw [h]
      decide
    · rfl
  cases hres : reserved u <;>
    simp [deparseUser, hzero, lineBody, dayText, reservedText, hres]

theorem blankIfZero_length_le (v : Int32) : (blankIfZero v).length ≤ 12 := by
  have htext := int32Text_length_le v
  unfold blankIfZero
  split
  · simp
  · simp only [List.length_append, List.length_singleton]
    lia

/-- The days and separators of a line take at most 74 bytes. -/
theorem lineBody_length_le (u : ρ) :
    (lineBody u).length ≤
      (username u).length + (hash u).length + (reservedText u).length + 74 := by
  have hdsc := int32Text_length_le (day .dsc u)
  have hdcc := int32Text_length_le (day .dcc u)
  have hdmc := blankIfZero_length_le (day .dmc u)
  have hdw := blankIfZero_length_le (day .dw u)
  have hde := blankIfZero_length_le (day .de u)
  have hdd := blankIfZero_length_le (day .dd u)
  simp only [lineBody, dayText, CString.length, List.length_append, List.length_cons,
    List.flatMap_cons, List.flatMap_nil, List.length_nil]
  lia

/-- A record whose line is read back as one line with the same name and hash. -/
structure Printable (u : ρ) : Prop where
  name : FieldText (username u)
  nameFits : (username u).length ≤ usernameCapacity
  hash : FieldText (hash u)
  hashFits : (UserRep.hash u).length ≤ 32
  reservedFree : newline ∉ reservedText u
  lineFits : (lineBody u).length ≤ 254

theorem newline_not_mem_intText (v : Int) : newline ∉ intText v :=
  not_mem_intText (by decide) (by decide)

theorem colon_not_mem_intText (v : Int) : colon ∉ intText v :=
  not_mem_intText (by decide) (by decide)

theorem nul_not_mem_intText (v : Int) : (0 : Byte) ∉ intText v :=
  not_mem_intText (by decide) (by decide)

theorem not_mem_blankIfZero {v : Int32} {b : Byte} (hcolon : b ≠ colon)
    (htext : b ∉ intText v.toInt) : b ∉ blankIfZero v := by
  unfold blankIfZero
  split
  · simpa using hcolon
  · simpa using ⟨htext, hcolon⟩

theorem not_mem_dayText {u : ρ} {b : Byte} (hcolon : b ≠ colon)
    (htext : forall v, b ∉ intText v) (hres : b ∉ reservedText u) :
    b ∉ dayText u := by
  have hblank : forall v : Int32, b ∉ blankIfZero v :=
    fun v => not_mem_blankIfZero hcolon (htext v.toInt)
  simp [dayText, hcolon, htext, hres, hblank]

theorem newline_not_mem_lineBody {u : ρ} (hu : Printable u) :
    newline ∉ lineBody u := by
  have hdays : newline ∉ dayText u :=
    not_mem_dayText (by decide) newline_not_mem_intText hu.reservedFree
  have hname := hu.name.newlineFree
  have hhash := hu.hash.newlineFree
  have hcolon : newline ≠ colon := by decide
  simp [lineBody, hname, hhash, hdays, hcolon]

theorem nul_not_mem_reservedText (u : ρ) : (0 : Byte) ∉ reservedText u := by
  unfold reservedText
  cases reserved u with
  | none => simp
  | some r => exact r.nulFree

theorem nul_not_mem_deparseUser (u : ρ) : (0 : Byte) ∉ deparseUser u := by
  have hdays : (0 : Byte) ∉ dayText u :=
    not_mem_dayText (by decide) nul_not_mem_intText (nul_not_mem_reservedText u)
  have hname := (username u).nulFree
  have hhash := (hash u).nulFree
  have hcolon : (0 : Byte) ≠ colon := by decide
  have hnewline : (0 : Byte) ≠ newline := by decide
  rw [deparseUser_eq]
  simp [lineBody, hname, hhash, hdays, hcolon, hnewline]

/-- The chunk `fgets` stores for a record, as a string. -/
def lineString (u : ρ) : CString :=
  { bytes := deparseUser u
    nulFree := nul_not_mem_deparseUser u }

theorem strtok_lineString {u : ρ} (hu : Printable u) :
    strtok colon (lineString u).bytes =
      some ((username u).bytes, (hash u).bytes ++ colon :: (dayText u ++ [newline])) := by
  have hline : (lineString u).bytes = (username u).bytes ++ colon ::
      ((hash u).bytes ++ colon :: (dayText u ++ [newline])) := by
    show deparseUser u = _
    rw [deparseUser_eq, lineBody]
    simp [List.append_assoc]
  rw [hline]
  exact strtok_field _ hu.name.nonempty hu.name.colonFree

theorem readLines_sfDeparse {sf : List ρ}
    (hsf : forall u, u ∈ sf -> Printable u) :
    readLines 256 (sfDeparse sf) = sf.map deparseUser := by
  induction sf with
  | nil => rfl
  | cons u sf ih =>
      have hu : Printable u := hsf u (by simp)
      have hrest := ih (fun v hv => hsf v (by simp [hv]))
      have hfit : (lineBody u).length + 2 ≤ 256 := by
        have := hu.lineFits
        lia
      have hread := readLines_line (sfDeparse sf) (newline_not_mem_lineBody hu) hfit
      have htext : sfDeparse (u :: sf) = lineBody u ++ newline :: sfDeparse sf := by
        simp [sfDeparse, deparseUser_eq]
      rw [htext, hread, hrest, List.map_cons, deparseUser_eq]

/-!
## The reloaded list
-/

/-- The record `init_parse` builds from the line of `u`. -/
def reload (env : Env ρ) (block : ρ) (u : ρ) : ρ :=
  setDays (intsFrom 6 (dayText u ++ [newline]))
    (strcpyHash (hash u) (initUser env (username u) block))

def reloadFrom (load : LoadEnv ρ) (block : Nat -> ρ) : Nat -> List ρ -> List ρ
  | _, [] => []
  | k, u :: sf => reload (load.line k) (block k) u :: reloadFrom load block (k + 1) sf

theorem username_reload (env : Env ρ) (block : ρ) {u : ρ}
    (hlen : (username u).length ≤ usernameCapacity) :
    username (reload env block u) = username u := by
  have hinit := terminated_initUser env block hlen
  have hhash := terminated_strcpyHash (hash u) _ hinit
  rw [reload, username_setDays _ hhash, username_strcpyHash _ _ hinit,
    username_initUser env block hlen]

theorem parseLine_deparseUser (env : Env ρ) {sf : List ρ} {u block : ρ}
    (hu : Printable u) (hnew : findUser sf (username u) = none)
    (hblock : env.block = some block) :
    parseLine env sf (deparseUser u) = .ok (.next (sf ++ [reload env block u])) := by
  have hhashTok : strtok colon ((hash u).bytes ++ colon :: (dayText u ++ [newline])) =
      some ((hash u).bytes, dayText u ++ [newline]) :=
    strtok_field _ hu.hash.nonempty hu.hash.colonFree
  have hline := parseLine_of_new (strtok_lineString hu) hhashTok
    hu.name.nonempty hu.nameFits hu.hash.nonempty hu.hashFits hnew hblock
  exact hline

/-- Induction over the records: `acc` holds what the lines before have built. -/
theorem parseLines_deparse (load : LoadEnv ρ) (block : Nat -> ρ)
    (hblock : forall k, (load.line k).block = some (block k))
    (sf : List ρ) (k : Nat) (acc : List ρ)
    (hprint : forall u, u ∈ sf -> Printable u)
    (hnodup : (sf.map username).Nodup)
    (hfresh : forall u, u ∈ sf -> findUser acc (username u) = none) :
    parseLines load k (sf.map deparseUser) acc =
      .ok (acc ++ reloadFrom load block k sf) := by
  induction sf generalizing k acc with
  | nil => simp [parseLines, reloadFrom]
  | cons u sf ih =>
      have hu : Printable u := hprint u (by simp)
      have hline := parseLine_deparseUser (load.line k) hu (hfresh u (by simp)) (hblock k)
      rw [List.map_cons, List.nodup_cons] at hnodup
      -- The record just added is not the one any later line looks for.
      have hfresh' : forall v, v ∈ sf ->
          findUser (acc ++ [reload (load.line k) (block k) u]) (username v) = none := by
        intro v hv
        have hold := hfresh v (List.mem_cons_of_mem u hv)
        rw [findUser_eq_none_iff] at hold ⊢
        apply forall_mem_append_singleton hold
        rw [username_reload _ _ hu.nameFits]
        intro heq
        exact hnodup.1 (heq ▸ List.mem_map_of_mem hv)
      have hrest := ih (k + 1) _ (fun v hv => hprint v (by simp [hv])) hnodup.2 hfresh'
      rw [List.map_cons, parseLines, hline]
      simp only [hrest, reloadFrom, List.append_assoc, List.singleton_append]

theorem initParse_sfDeparse (load : LoadEnv ρ) (block : Nat -> ρ)
    (hhead : load.head = [])
    (hblock : forall k, (load.line k).block = some (block k))
    (sf : List ρ) (hprint : forall u, u ∈ sf -> Printable u)
    (hnodup : (sf.map username).Nodup) :
    initParse load (sfDeparse sf) = .ok (reloadFrom load block 0 sf) := by
  have hfresh : forall u, u ∈ sf -> findUser ([] : List ρ) (username u) = none :=
    fun _ _ => rfl
  have h := parseLines_deparse load block hblock sf 0 [] hprint hnodup hfresh
  rw [initParse, readLines_sfDeparse hprint, sfTreeInit, hhead, h, List.nil_append]

theorem reloadFrom_map {α : Type} (load : LoadEnv ρ) (block : Nat -> ρ)
    (f : ρ -> α) (sf : List ρ) (k : Nat)
    (h : forall env b u, u ∈ sf -> f (reload env b u) = f u) :
    (reloadFrom load block k sf).map f = sf.map f := by
  induction sf generalizing k with
  | nil => rfl
  | cons u sf ih =>
      have hrest := ih (k + 1) (fun env b v hv => h env b v (by simp [hv]))
      rw [reloadFrom, List.map_cons, List.map_cons, hrest, h _ _ u (by simp)]

end Lines

/-!
## The numbers of a line
-/

theorem nextInt_field {field : List Byte} (hne : field ≠ []) (hfree : colon ∉ field)
    (rest : List Byte) : nextInt (field ++ colon :: rest) = (atoi field, rest) := by
  rw [nextInt, strtok_field rest hne hfree]

theorem nextInt_intText (v : Int32) (rest : List Byte) :
    nextInt (intText v.toInt ++ colon :: rest) = (v, rest) := by
  rw [nextInt_field (intText_ne_nil _) (colon_not_mem_intText _), atoi_intText]

theorem nextInt_colon_cons (s : List Byte) : nextInt (colon :: s) = nextInt s := by
  simp [nextInt]

theorem intsFrom_colon_cons (n : Nat) (s : List Byte) :
    intsFrom n (colon :: s) = intsFrom n s := by
  cases n with
  | zero => rfl
  | succ n => rw [intsFrom, intsFrom, nextInt_colon_cons]

theorem intsFrom_nil (n : Nat) : intsFrom n [] = List.replicate n 0 := by
  induction n with
  | zero => rfl
  | succ n ih =>
      rw [intsFrom, List.replicate_succ]
      simp [nextInt, ih]

theorem intsFrom_last (n : Nat) {tail : List Byte} (hne : tail ≠ [])
    (hfree : colon ∉ tail) :
    intsFrom n tail = (atoi tail :: List.replicate n 0).take n := by
  cases n with
  | zero => rfl
  | succ n =>
      have hlast : nextInt tail = (atoi tail, []) := by
        rw [nextInt, strtok_last hne hfree]
      rw [intsFrom, hlast, intsFrom_nil, List.take_succ_cons, List.take_replicate]
      simp

theorem take_append_zeros (vs : List Int32) (v : Int32) (n : Nat) :
    (vs ++ v :: List.replicate (n + 1) 0).take n =
      (vs ++ v :: List.replicate n 0).take n := by
  have hcons : vs ++ v :: List.replicate (n + 1) 0 =
      (vs ++ v :: List.replicate n 0) ++ [0] := by
    simp [List.replicate_succ']
  rw [hcons]
  exact List.take_append_of_le_length (by simp; lia)

/-- Empty fields vanish: the numbers read are those of the other fields, then that of
the text behind the last colon, then zeros. -/
theorem intsFrom_fields (n : Nat) (fs : List (List Byte))
    (hfs : forall f, f ∈ fs -> colon ∉ f) {tail : List Byte} (hne : tail ≠ [])
    (hfree : colon ∉ tail) :
    intsFrom n (fs.flatMap (fun f => f ++ [colon]) ++ tail) =
      ((fs.filter (fun f => f ≠ [])).map atoi ++ atoi tail :: List.replicate n 0).take n := by
  induction fs generalizing n with
  | nil => exact intsFrom_last n hne hfree
  | cons f fs ih =>
      have hrest := fun n => ih n (fun g hg => hfs g (by simp [hg]))
      by_cases hf : f = []
      · have htext : (f :: fs).flatMap (fun f => f ++ [colon]) ++ tail =
            colon :: (fs.flatMap (fun f => f ++ [colon]) ++ tail) := by
          simp [hf]
        rw [htext, intsFrom_colon_cons, hrest]
        simp [hf]
      · have htext : (f :: fs).flatMap (fun f => f ++ [colon]) ++ tail =
            f ++ colon :: (fs.flatMap (fun f => f ++ [colon]) ++ tail) := by
          simp
        cases n with
        | zero => simp [intsFrom]
        | succ n =>
            rw [htext, intsFrom, nextInt_field hf (hfs f (by simp)), hrest]
            simp only [hf, ne_eq, not_false_eq_true, decide_true, List.filter_cons_of_pos,
              List.map_cons, List.cons_append, List.take_succ_cons, take_append_zeros]

/-- The field of a number that is left blank for zero. -/
def blankField (v : Int32) : List Byte :=
  if v = 0 then [] else intText v.toInt

theorem blankIfZero_eq (v : Int32) : blankIfZero v = blankField v ++ [colon] := by
  by_cases hv : v = 0 <;> simp [blankIfZero, blankField, hv]

theorem colon_not_mem_blankField (v : Int32) : colon ∉ blankField v := by
  unfold blankField
  split
  · simp
  · exact colon_not_mem_intText v.toInt

theorem atoi_blankFields (vs : List Int32) :
    ((vs.map blankField).filter (fun f => f ≠ [])).map atoi =
      vs.filter (fun v => v ≠ 0) := by
  induction vs with
  | nil => rfl
  | cons v vs ih =>
      by_cases hv : v = 0
      · simpa [blankField, hv] using ih
      · have hne := intText_ne_nil v.toInt
        simpa [blankField, hv, hne, atoi_intText] using ih

theorem intsFrom_blankIfZero (n : Nat) (vs : List Int32) {tail : List Byte}
    (hne : tail ≠ []) (hfree : colon ∉ tail) :
    intsFrom n (vs.flatMap blankIfZero ++ tail) =
      (vs.filter (fun v => v ≠ 0) ++ atoi tail :: List.replicate n 0).take n := by
  have htext : vs.flatMap blankIfZero =
      (vs.map blankField).flatMap (fun f => f ++ [colon]) := by
    rw [List.flatMap_map]
    exact List.flatMap_congr (fun v _ => blankIfZero_eq v)
  have hcolon : forall f, f ∈ vs.map blankField -> colon ∉ f := by
    intro f hf
    rcases List.mem_map.mp hf with ⟨v, _, rfl⟩
    exact colon_not_mem_blankField v
  rw [htext, intsFrom_fields n _ hcolon hne hfree, atoi_blankFields]

end ShadowFs

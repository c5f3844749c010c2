import ShadowFs.CLib.Stream
import ShadowFs.Tree.Users

/-!
# The backing file: `parse.h`

`sf_deparse` writes one line per record; `init_parse` reads the file in chunks
of at most 255 bytes and handles each chunk as one line.  The fields of a line
are separated by colons on the way out and split by `strtok` on the way in.

Two things can go wrong inside `init_parse` before it reports anything: a
missing token is a null pointer handed to `strcpy`, and a token longer than the
local array it is copied to overflows it.  Both end the run with a `Fault`.
-/

namespace ShadowFs

open CLib UserRep

section Functions

variable {ρ : Type} [UserRep ρ]

/-!
## Writing
-/

/-- `":"` for zero, `"%d:"` otherwise. -/
def blankIfZero (v : Int32) : List Byte :=
  if v = 0 then [colon] else intText v.toInt ++ [colon]

def deparseUser (u : ρ) : List Byte :=
  (username u).bytes ++ [colon] ++ (hash u).bytes ++ [colon] ++
    intText (day .dsc u).toInt ++ [colon] ++
    (if day .dcc u = 0 then ascii "0:"
      else intText (day .dcc u).toInt ++ [colon]) ++
    blankIfZero (day .dmc u) ++
    blankIfZero (day .dw u) ++
    blankIfZero (day .de u) ++
    blankIfZero (day .dd u) ++
    (match reserved u with
      | none => [newline]
      | some r => r.bytes ++ [newline])

/-- The text `sf_deparse` writes. -/
def sfDeparse (sf : List ρ) : List Byte :=
  sf.flatMap deparseUser

/-!
## Reading
-/

/-- What the loading run obtains from `malloc`: the user list behind the `head`
that `sf_tree_init` leaves unassigned, and the environment of each line. -/
structure LoadEnv (ρ : Type) where
  head : List ρ
  line : Nat -> Env ρ

/-- Only `path` is assigned; `head` keeps what the block contained. -/
def sfTreeInit (load : LoadEnv ρ) : List ρ :=
  load.head

/-- `token = strtok(NULL, ":")`, read as `(token==NULL)? 0: atoi(token)`. -/
def nextInt (s : List Byte) : Int32 × List Byte :=
  match strtok colon s with
  | none => (0, [])
  | some (token, rest) => (atoi token, rest)

def parseDays (sf : List ρ) (user : CString) (s : List Byte) : List ρ :=
  let dsc := nextInt s
  let sf := (updateDaysSinceChanged sf user dsc.1).2
  let dcc := nextInt dsc.2
  let sf := (updateDaysUntilCanChange sf user dcc.1).2
  let dmc := nextInt dcc.2
  let sf := (updateDaysUntilMustChange sf user dmc.1).2
  let warn := nextInt dmc.2
  let sf := (updateDaysBeforeWarning sf user warn.1).2
  let expire := nextInt warn.2
  let sf := (updateDaysUntilExpiration sf user expire.1).2
  let dse := nextInt expire.2
  (updateDaysSinceDeactivation sf user dse.1).2

/-- What the loop body does with the list: go on, or return it. -/
inductive LineOutcome (ρ : Type) where
  | next (sf : List ρ)
  | stop (sf : List ρ)

def LineOutcome.list : LineOutcome ρ -> List ρ
  | .next sf => sf
  | .stop sf => sf

/-- The loop body of `init_parse`, with `user[16]` and `hash[33]`. -/
def parseLine (env : Env ρ) (sf : List ρ) (line : List Byte) :
    Except Fault (LineOutcome ρ) :=
  match strtok colon (CString.ofBytes line).bytes with
  | none => .error .nullPointer
  | some (userToken, rest) =>
      if userToken.length ≥ 16 then .error .bufferOverflow
      else
        let user := CString.ofBytes userToken
        if user = CString.lit "" then .ok (.stop sf)
        else
          let sf := (sfTreeAddUser env sf user).2
          match strtok colon rest with
          | none => .error .nullPointer
          | some (hashToken, rest) =>
              if hashToken.length ≥ 33 then .error .bufferOverflow
              else
                let hash := CString.ofBytes hashToken
                if hash = CString.lit "" then .ok (.stop sf)
                else
                  let sf := (updateHash sf user hash).2
                  .ok (.next (parseDays sf user rest))

/-- The `while` loop, `k` counting the lines read so far. -/
def parseLines (load : LoadEnv ρ) :
    Nat -> List (List Byte) -> List ρ -> Except Fault (List ρ)
  | _, [], sf => .ok sf
  | k, line :: lines, sf =>
      match parseLine (load.line k) sf line with
      | .error fault => .error fault
      | .ok (.stop sf') => .ok sf'
      | .ok (.next sf') => parseLines load (k + 1) lines sf'

def initParse (load : LoadEnv ρ) (file : List Byte) : Except Fault (List ρ) :=
  parseLines load 0 (readLines 256 file) (sfTreeInit load)

end Functions

/-- A loading run in which every allocation succeeds. -/
def plainLoad : LoadEnv User :=
  { head := [], line := fun _ => plainEnv }

/-!
## Effect of one line

The seven updates of a line all find the record that carries its user name.
-/

section Line

variable {ρ : Type} [UserRep ρ]

/-- The first `n` numbers of the rest of a line. -/
def intsFrom : Nat -> List Byte -> List Int32
  | 0, _ => []
  | n + 1, s => (nextInt s).1 :: intsFrom n (nextInt s).2

/-- The six day assignments of a line, in the order of the source. -/
def setDays (vs : List Int32) (u : ρ) : ρ :=
  setDay .dd (vs.getD 5 0)
    (setDay .de (vs.getD 4 0)
      (setDay .dw (vs.getD 3 0)
        (setDay .dmc (vs.getD 2 0)
          (setDay .dcc (vs.getD 1 0)
            (setDay .dsc (vs.getD 0 0) u)))))

theorem username_setDays (vs : List Int32) {u : ρ} (hu : terminated u) :
    username (setDays vs u) = username u := by
  have h1 := terminated_setDay .dsc (vs.getD 0 0) u hu
  have h2 := terminated_setDay .dcc (vs.getD 1 0) _ h1
  have h3 := terminated_setDay .dmc (vs.getD 2 0) _ h2
  have h4 := terminated_setDay .dw (vs.getD 3 0) _ h3
  have h5 := terminated_setDay .de (vs.getD 4 0) _ h4
  rw [setDays, username_setDay _ _ _ h5, username_setDay _ _ _ h4,
    username_setDay _ _ _ h3, username_setDay _ _ _ h2, username_setDay _ _ _ h1,
    username_setDay _ _ _ hu]

/-- One day assignment at the matched record, as a new match. -/
theorem FirstMatch.setDay_step {sf front back : List ρ} {name : CString} {u : ρ}
    (h : FirstMatch sf name front u back) (hu : terminated u)
    (d : DayField) (v : Int32) :
    FirstMatch (updateField sf name (setDay d v)).2 name front
      (setDay d v u) back := by
  rw [h.updateField_eq]
  exact h.update (username_setDay d v u hu)

theorem parseDays_of_firstMatch {sf front back : List ρ} {name : CString} {u : ρ}
    (h : FirstMatch sf name front u back) (hu : terminated u) (s : List Byte) :
    parseDays sf name s = front ++ setDays (intsFrom 6 s) u :: back := by
  have t1 := terminated_setDay .dsc (nextInt s).1 u hu
  have t2 := terminated_setDay .dcc (nextInt (nextInt s).2).1 _ t1
  have t3 := terminated_setDay .dmc
    (nextInt (nextInt (nextInt s).2).2).1 _ t2
  have t4 := terminated_setDay .dw
    (nextInt (nextInt (nextInt (nextInt s).2).2).2).1 _ t3
  have t5 := terminated_setDay .de
    (nextInt (nextInt (nextInt (nextInt (nextInt s).2).2).2).2).1 _ t4
  have h1 := h.setDay_step hu .dsc (nextInt s).1
  have h2 := h1.setDay_step t1 .dcc (nextInt (nextInt s).2).1
  have h3 := h2.setDay_step t2 .dmc (nextInt (nextInt (nextInt s).2).2).1
  have h4 := h3.setDay_step t3 .dw
    (nextInt (nextInt (nextInt (nextInt s).2).2).2).1
  have h5 := h4.setDay_step t4 .de
    (nextInt (nextInt (nextInt (nextInt (nextInt s).2).2).2).2).1
  have h6 := h5.setDay_step t5 .dd
    (nextInt (nextInt (nextInt (nextInt (nextInt (nextInt s).2).2).2).2).2).1
  exact h6.split

/-- What a line that raises no fault does: it ends the loading run at a missing
name or hash, or stores its fields. -/
inductive LineEffect (env : Env ρ) (sf : List ρ) (line : List Byte) :
    LineOutcome ρ -> Prop where
  | noName {userToken rest : List Byte} :
      strtok colon (CString.ofBytes line).bytes = some (userToken, rest) ->
      userToken.length < 16 -> CString.ofBytes userToken = CString.lit "" ->
      LineEffect env sf line (.stop sf)
  | noHash {userToken rest hashToken rest' : List Byte} :
      strtok colon (CString.ofBytes line).bytes = some (userToken, rest) ->
      userToken.length < 16 -> CString.ofBytes userToken ≠ CString.lit "" ->
      strtok colon rest = some (hashToken, rest') -> hashToken.length < 33 ->
      CString.ofBytes hashToken = CString.lit "" ->
      LineEffect env sf line (.stop (sfTreeAddUser env sf (CString.ofBytes userToken)).2)
  | record {userToken rest hashToken rest' : List Byte} :
      strtok colon (CString.ofBytes line).bytes = some (userToken, rest) ->
      userToken.length < 16 -> CString.ofBytes userToken ≠ CString.lit "" ->
      strtok colon rest = some (hashToken, rest') -> hashToken.length < 33 ->
      CString.ofBytes hashToken ≠ CString.lit "" ->
      LineEffect env sf line
        (.next (parseDays
          (updateHash (sfTreeAddUser env sf (CString.ofBytes userToken)).2
            (CString.ofBytes userToken) (CString.ofBytes hashToken)).2
          (CString.ofBytes userToken) rest'))

theorem parseLine_effect {env : Env ρ} {sf : List ρ} {line : List Byte}
    {outcome : LineOutcome ρ} (h : parseLine env sf line = .ok outcome) :
    LineEffect env sf line outcome := by
  unfold parseLine at h
  split at h
  · cases h
  · rename_i userToken rest huserTok
    split at h
    · cases h
    · rename_i hfitUser
      have huserLen := Nat.not_le.mp hfitUser
      dsimp only at h
      split at h
      · rename_i hempty
        cases h
        exact LineEffect.noName huserTok huserLen hempty
      · rename_i huser
        split at h
        · cases h
        · rename_i hashToken rest' hhashTok
          split at h
          · cases h
          · rename_i hfitHash
            have hhashLen := Nat.not_le.mp hfitHash
            split at h
            · rename_i hempty
              cases h
              exact LineEffect.noHash huserTok huserLen huser hhashTok hhashLen hempty
            · rename_i hhash
              cases h
              exact LineEffect.record huserTok huserLen huser hhashTok hhashLen hhash

theorem ne_empty_of_bytes {s : CString} (h : s.bytes ≠ []) : s ≠ CString.lit "" := by
  have hempty : (CString.lit "").bytes = [] := by decide
  intro hs
  rw [hs] at h
  exact h hempty

/-- A line with a user name and a hash, both fitting their arrays: the record
that carries the name after `sf_tree_add_user` gets the fields of the line. -/
theorem parseLine_of_tokens {env : Env ρ} {sf : List ρ} {line : CString}
    {user hash : CString} {rest1 rest2 : List Byte}
    (huserTok : strtok colon line.bytes = some (user.bytes, rest1))
    (hhashTok : strtok colon rest1 = some (hash.bytes, rest2))
    (huser : user.bytes ≠ []) (huserLen : user.length ≤ usernameCapacity)
    (hhash : hash.bytes ≠ []) (hhashLen : hash.length ≤ 32)
    {front back : List ρ} {u : ρ}
    (hmatch : FirstMatch (sfTreeAddUser env sf user).2 user front u back)
    (hu : terminated u) :
    parseLine env sf line.bytes =
      .ok (.next (front ++ setDays (intsFrom 6 rest2) (strcpyHash hash u) :: back)) := by
  have huser' := ne_empty_of_bytes huser
  have hhash' := ne_empty_of_bytes hhash
  have hfitUser : ¬ user.bytes.length ≥ 16 := by
    have : user.bytes.length ≤ 15 := huserLen
    lia
  have hfitHash : ¬ hash.bytes.length ≥ 33 := by
    have : hash.bytes.length ≤ 32 := hhashLen
    lia
  have hstep : FirstMatch (updateHash (sfTreeAddUser env sf user).2 user hash).2
      user front (strcpyHash hash u) back := by
    rw [updateHash_eq_updateField _ _ hhashLen, hmatch.updateField_eq]
    exact hmatch.update (username_strcpyHash hash u hu)
  have hdays := parseDays_of_firstMatch hstep
    (terminated_strcpyHash hash u hu) rest2
  simp only [parseLine, CString.ofBytes_bytes, huserTok, hhashTok,
    if_neg hfitUser, if_neg hfitHash, if_neg huser', if_neg hhash', hdays]

theorem parseLine_of_new {env : Env ρ} {sf : List ρ} {line : CString}
    {user hash : CString} {rest1 rest2 : List Byte} {block : ρ}
    (huserTok : strtok colon line.bytes = some (user.bytes, rest1))
    (hhashTok : strtok colon rest1 = some (hash.bytes, rest2))
    (huser : user.bytes ≠ []) (huserLen : user.length ≤ usernameCapacity)
    (hhash : hash.bytes ≠ []) (hhashLen : hash.length ≤ 32)
    (hnew : findUser sf user = none) (hblock : env.block = some block) :
    parseLine env sf line.bytes =
      .ok (.next (sf ++
        [setDays (intsFrom 6 rest2) (strcpyHash hash (initUser env user block))])) := by
  have hlen16 : user.length ≤ 16 := Nat.le_succ_of_le huserLen
  have hadd := sfTreeAddUser_of_new hnew hblock hlen16
  have hmatch : FirstMatch (sfTreeAddUser env sf user).2 user sf
      (initUser env user block) [] := by
    rw [hadd]
    exact ⟨rfl, username_initUser env block huserLen,
      findUser_eq_none_iff.mp hnew⟩
  exact parseLine_of_tokens huserTok hhashTok huser huserLen hhash hhashLen
    hmatch (terminated_initUser env block huserLen)

/-!
## Lines one after the other

Both tests for an empty string look at a copied token, and tokens are not empty, so
the loading run never stops before the end of the file.
-/

theorem ofBytes_ne_empty {token : List Byte} (hne : token ≠ [])
    (hnul : (0 : Byte) ∉ token) : CString.ofBytes token ≠ CString.lit "" := by
  rw [CString.ofBytes_of_nulFree hnul]
  exact ne_empty_of_bytes hne

/-- The tokens of a line are not empty as strings. -/
theorem ofBytes_token_ne_empty {s token rest : List Byte} (hs : (0 : Byte) ∉ s)
    (h : strtok colon s = some (token, rest)) :
    CString.ofBytes token ≠ CString.lit "" ∧ (0 : Byte) ∉ rest := by
  constructor
  · exact ofBytes_ne_empty (strtok_eq_some h).1
      (fun hnul => hs (mem_of_mem_strtok h (Or.inl hnul)))
  · exact fun hnul => hs (mem_of_mem_strtok h (Or.inr hnul))

theorem parseLine_next {env : Env ρ} {sf : List ρ} {line : List Byte}
    {outcome : LineOutcome ρ} (h : parseLine env sf line = .ok outcome) :
    outcome = .next outcome.list := by
  have hline := (CString.ofBytes line).nulFree
  cases parseLine_effect h with
  | noName huser _ hempty =>
      exact absurd hempty (ofBytes_token_ne_empty hline huser).1
  | noHash huser _ _ hhash _ hempty =>
      have hrest := (ofBytes_token_ne_empty hline huser).2
      exact absurd hempty (ofBytes_token_ne_empty hrest hhash).1
  | record _ _ _ _ _ _ => rfl

theorem parseLines_cons_ok {load : LoadEnv ρ} {line : List Byte} {lines : List (List Byte)}
    {k : Nat} {sf sf' : List ρ} (h : parseLines load k (line :: lines) sf = .ok sf') :
    exists outcome, parseLine (load.line k) sf line = .ok outcome ∧
      parseLines load (k + 1) lines outcome.list = .ok sf' := by
  rw [parseLines] at h
  cases hline : parseLine (load.line k) sf line with
  | error fault =>
      rw [hline] at h
      cases h
  | ok outcome =>
      rw [hline, parseLine_next hline] at h
      exact ⟨outcome, rfl, h⟩

theorem parseLines_invariant {I : List ρ -> Prop} {load : LoadEnv ρ}
    {lines : List (List Byte)} {k : Nat} {sf sf' : List ρ}
    (hstep : forall env sf line outcome, line ∈ lines -> I sf ->
      parseLine env sf line = .ok outcome -> I outcome.list)
    (hs : I sf) (h : parseLines load k lines sf = .ok sf') : I sf' := by
  induction lines generalizing k sf with
  | nil =>
      cases h
      exact hs
  | cons line lines ih =>
      rcases parseLines_cons_ok h with ⟨outcome, hline, hrest⟩
      have hnext := hstep _ sf line outcome List.mem_cons_self hs hline
      refine ih ?_ hnext hrest
      intro env sf line outcome hmem
      exact hstep env sf line outcome (List.mem_cons_of_mem _ hmem)

theorem parseLines_append {load : LoadEnv ρ} {lines : List (List Byte)} {k : Nat}
    {sf sf' : List ρ} (h : parseLines load k lines sf = .ok sf')
    (more : List (List Byte)) :
    parseLines load k (lines ++ more) sf =
      parseLines load (k + lines.length) more sf' := by
  induction lines generalizing k sf with
  | nil =>
      cases h
      rfl
  | cons line lines ih =>
      rcases parseLines_cons_ok h with ⟨outcome, hline, hrest⟩
      have hcount : k + (line :: lines).length = k + 1 + lines.length := by
        rw [List.length_cons]
        lia
      rw [List.cons_append, parseLines, hline, parseLine_next hline, hcount]
      exact ih hrest

/-!
## A user that could not be added

Nothing is found to assign to, and the line is read without an effect.
-/

theorem parseDays_of_none {sf : List ρ} {name : CString} (hnone : findUser sf name = none)
    (s : List Byte) : parseDays sf name s = sf := by
  have hkept : forall d v, (updateField sf name (setDay d v)).2 = sf := by
    intro d v
    rw [updateField_of_none hnone]
  simp only [parseDays, updateDaysSinceChanged, updateDaysUntilCanChange,
    updateDaysUntilMustChange, updateDaysBeforeWarning, updateDaysUntilExpiration,
    updateDaysSinceDeactivation, hkept]

theorem parseLine_of_none {env : Env ρ} {sf : List ρ} {line : List Byte}
    {outcome : LineOutcome ρ} {user : CString} {rest : List Byte}
    (huser : strtok colon (CString.ofBytes line).bytes = some (user.bytes, rest))
    (hnone : findUser (sfTreeAddUser env sf user).2 user = none)
    (h : parseLine env sf line = .ok outcome) :
    outcome.list = (sfTreeAddUser env sf user).2 := by
  have hnext := parseLine_next h
  cases parseLine_effect h with
  | noName _ _ _ => cases hnext
  | noHash _ _ _ _ _ _ => cases hnext
  | record huser' _ _ _ _ _ =>
      rw [huser] at huser'
      cases huser'
      rw [CString.ofBytes_bytes]
      have hhash : forall hash, (updateHash (sfTreeAddUser env sf user).2 user hash).2 =
          (sfTreeAddUser env sf user).2 := by
        intro hash
        simp only [updateHash, hnone]
      rw [hhash]
      exact parseDays_of_none hnone _

end Line

end ShadowFs

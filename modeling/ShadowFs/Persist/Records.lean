import ShadowFs.Persist.Parse

/-!
# What a file is loaded as

`init_parse` ignores the result of `sf_tree_add_user` and then looks the user up seven
times, once for each field of the line.  A line about a user who is already there
therefore overwrites all fields of the one record, and the loaded list has one record
for each user, in the order in which the users first occur, with the fields of the last
line about each of them.

`Gathers` states this for the lines read so far.  It is kept by each line and so
holds at the end of the file.
-/

namespace ShadowFs

open CLib UserRep

/-!
## Lines as records
-/

def lineTokens (line : List Byte) : List (List Byte) :=
  tokens colon (CString.ofBytes line).bytes

/-- A token as a number, 0 where it is missing. -/
def tokenInt (ts : List (List Byte)) (i : Nat) : Int32 :=
  match ts[i]? with
  | none => 0
  | some token => atoi token

/-- The record a line describes by its first eight tokens. -/
def lineUser (line : List Byte) : User :=
  let ts := lineTokens line
  { username := CString.ofBytes (ts.getD 0 []), hash := CString.ofBytes (ts.getD 1 []),
    dsc := tokenInt ts 2, dcc := tokenInt ts 3, dmc := tokenInt ts 4, dw := tokenInt ts 5,
    de := tokenInt ts 6, dd := tokenInt ts 7, reserved := none }

def lastUser (us : List User) (name : CString) : Option User :=
  us.reverse.find? (fun u => u.username = name)

/-- A line with a name that fits its array and a hash of at most `cap` bytes. -/
structure HasRecord (cap : Nat) (line : List Byte) : Prop where
  twoTokens : 2 ≤ (lineTokens line).length
  nameFits : ((lineTokens line).getD 0 []).length ≤ usernameCapacity
  hashFits : ((lineTokens line).getD 1 []).length ≤ cap

instance (cap : Nat) (line : List Byte) : Decidable (HasRecord cap line) :=
  decidable_of_iff
    (2 ≤ (lineTokens line).length ∧
      ((lineTokens line).getD 0 []).length ≤ usernameCapacity ∧
      ((lineTokens line).getD 1 []).length ≤ cap)
    ⟨fun h => ⟨h.1, h.2.1, h.2.2⟩, fun h => ⟨h.twoTokens, h.nameFits, h.hashFits⟩⟩

theorem lastUser_concat (us : List User) (e : User) (name : CString) :
    lastUser (us ++ [e]) name = if e.username = name then some e else lastUser us name := by
  simp only [lastUser, List.reverse_append, List.reverse_singleton, List.singleton_append,
    List.find?_cons]
  by_cases hname : e.username = name <;> simp [hname]

theorem eraseDups_concat {α : Type} [DecidableEq α] (as : List α) (a : α) :
    (as ++ [a]).eraseDups = if a ∈ as then as.eraseDups else as.eraseDups ++ [a] := by
  rw [List.eraseDups_append]
  by_cases ha : a ∈ as <;> simp [List.removeAll, ha, List.eraseDups_cons]

theorem nodup_eraseDups {α : Type} [DecidableEq α] (as : List α) : as.eraseDups.Nodup := by
  induction as using List.reverseRecOn with
  | nil => simp
  | append_singleton as a ih =>
      rw [eraseDups_concat]
      split
      · exact ih
      · rename_i ha
        rw [← List.concat_eq_append]
        exact ih.concat (fun hmem => ha (List.mem_eraseDups.mp hmem))

theorem intsFrom_getD {n i : Nat} (hi : i < n) (s : List Byte) :
    (intsFrom n s).getD i 0 = tokenInt (tokens colon s) i := by
  induction n generalizing s i with
  | zero => cases hi
  | succ n ih =>
      cases htok : strtok colon s with
      | none =>
          have hnext : nextInt s = (0, []) := by
            rw [nextInt, htok]
          have hnil : tokens colon [] = [] := rfl
          rw [intsFrom, hnext, tokens_of_none htok]
          cases i with
          | zero => rfl
          | succ i =>
              have hrest := ih (Nat.lt_of_succ_lt_succ hi) []
              rw [hnil] at hrest
              exact hrest
      | some found =>
          rcases found with ⟨token, rest⟩
          have hnext : nextInt s = (atoi token, rest) := by
            rw [nextInt, htok]
          rw [intsFrom, hnext, tokens_of_some htok]
          cases i with
          | zero => rfl
          | succ i => exact ih (Nat.lt_of_succ_lt_succ hi) rest

/-!
## The invariant
-/

section Gathers

variable {ρ : Type} [UserRep ρ]

/-- One record for each name, in the order of first occurrence, with the fields of the
last record given for the name. -/
structure Gathers (us : List User) (sf : List ρ) : Prop where
  names : sf.map username = (us.map User.username).eraseDups
  fields : forall u, u ∈ sf -> lastUser us (username u) = some (toUser u)
  terminated : forall u, u ∈ sf -> terminated u

theorem gathers_nil : Gathers [] ([] : List ρ) where
  names := rfl
  fields := fun _ hu => absurd hu List.not_mem_nil
  terminated := fun _ hu => absurd hu List.not_mem_nil

theorem Gathers.mem_names_iff {us : List User} {sf : List ρ} (h : Gathers us sf)
    (name : CString) : name ∈ us.map User.username <-> findUser sf name ≠ none := by
  rw [← List.mem_eraseDups, ← h.names, ne_eq, findUser_eq_none_iff]
  simp

theorem Gathers.append {us : List User} {sf : List ρ} (h : Gathers us sf) {v : ρ}
    (hnew : findUser sf (username v) = none) (hv : UserRep.terminated v) :
    Gathers (us ++ [toUser v]) (sf ++ [v]) where
  names := by
    have hname : (toUser v).username ∉ us.map User.username := by
      rw [h.mem_names_iff, not_not]
      exact hnew
    rw [List.map_append, List.map_append, List.map_singleton, List.map_singleton,
      eraseDups_concat, if_neg hname, h.names]
    rfl
  fields := by
    apply forall_mem_append_singleton
    · intro u hu
      have hne : ¬ (toUser v).username = username u :=
        fun heq => findUser_eq_none_iff.mp hnew u hu heq.symm
      rw [lastUser_concat, if_neg hne]
      exact h.fields u hu
    · rw [lastUser_concat]
      exact if_pos rfl
  terminated := forall_mem_append_singleton h.terminated hv

theorem Gathers.replace {us : List User} {sf front back : List ρ} (h : Gathers us sf)
    {u v : ρ} (hm : FirstMatch sf (username v) front u back) (hv : UserRep.terminated v) :
    Gathers (us ++ [toUser v]) (front ++ v :: back) where
  names := by
    have hname : (toUser v).username ∈ us.map User.username := by
      rw [h.mem_names_iff]
      exact hm.ne_none
    have hnames : ((us ++ [toUser v]).map User.username).eraseDups = sf.map username := by
      rw [List.map_append, List.map_singleton, eraseDups_concat, if_pos hname, h.names]
    rw [hnames, hm.split]
    simp [hm.found]
  fields := by
    have hnodup : (sf.map username).Nodup := by
      rw [h.names]
      exact nodup_eraseDups _
    rw [hm.split, List.map_append, List.map_cons, List.nodup_middle, hm.found,
      List.nodup_cons, ← List.map_append] at hnodup
    have hothers : forall w, w ∈ front ++ back ->
        lastUser (us ++ [toUser v]) (username w) = some (toUser w) := by
      intro w hw
      have hne : ¬ (toUser v).username = username w := by
        intro heq
        exact hnodup.1 (List.mem_map.mpr ⟨w, hw, heq.symm⟩)
      have hmem : w ∈ sf := by
        rw [hm.split]
        rcases List.mem_append.mp hw with hfront | hback
        · simp [hfront]
        · simp [hback]
      rw [lastUser_concat, if_neg hne]
      exact h.fields w hmem
    have hself : lastUser (us ++ [toUser v]) (username v) = some (toUser v) := by
      rw [lastUser_concat]
      exact if_pos rfl
    intro w hw
    rw [List.mem_append, List.mem_cons] at hw
    rcases hw with hfront | hw | hback
    · exact hothers w (List.mem_append_left back hfront)
    · rw [hw]
      exact hself
    · exact hothers w (List.mem_append_right front hback)
  terminated := by
    have hall := h.terminated
    rw [hm.split] at hall
    exact forall_mem_replace hall hv

/-!
## One line
-/

theorem toUser_setDay (d : DayField) (v : Int32) {u : ρ} (hu : UserRep.terminated u)
    (hhash : (hash u).length ≤ hashCapacity) :
    toUser (setDay d v u) = User.setDay d v (toUser u) := by
  have hself := day_setDay_self d v u
  have hother := fun e h => day_setDay_of_ne e d v u h
  cases d <;>
    simp [toUser, User.setDay, username_setDay _ _ _ hu, UserRep.hash_setDay _ _ _ hhash,
      reserved_setDay, hself, hother]

theorem toUser_setDays (vs : List Int32) {u : ρ} (hu : UserRep.terminated u)
    (hhash : (hash u).length ≤ hashCapacity) :
    toUser (setDays vs u) = setDays vs (toUser u) := by
  have hkept : forall d v {w : ρ}, UserRep.terminated w ∧ (hash w).length ≤ hashCapacity ->
      UserRep.terminated (setDay d v w) ∧ (hash (setDay d v w)).length ≤ hashCapacity := by
    intro d v w hw
    rw [UserRep.hash_setDay d v w hw.2]
    exact ⟨terminated_setDay d v w hw.1, hw.2⟩
  have h0 := And.intro hu hhash
  have h1 := hkept .dsc (vs.getD 0 0) h0
  have h2 := hkept .dcc (vs.getD 1 0) h1
  have h3 := hkept .dmc (vs.getD 2 0) h2
  have h4 := hkept .dw (vs.getD 3 0) h3
  have h5 := hkept .de (vs.getD 4 0) h4
  rw [setDays, toUser_setDay _ _ h5.1 h5.2, toUser_setDay _ _ h4.1 h4.2,
    toUser_setDay _ _ h3.1 h3.2, toUser_setDay _ _ h2.1 h2.2, toUser_setDay _ _ h1.1 h1.2,
    toUser_setDay _ _ h0.1 h0.2]
  rfl

/-- A record keeps a hash of at most `cap` bytes apart from the days assigned after it. -/
def KeepsHash (ρ : Type) [UserRep ρ] (cap : Nat) : Prop :=
  forall (h : CString) (vs : List Int32) (u : ρ), h.length ≤ cap -> UserRep.terminated u ->
    toUser (setDays vs (strcpyHash h u)) = setDays vs (strcpyHash h (toUser u))

theorem keepsHash_hashCapacity : KeepsHash ρ hashCapacity := by
  intro h vs u hfits hu
  have hhash := hash_strcpyHash h u hfits
  have hstored : toUser (strcpyHash h u) =
      { toUser (strcpyHash h u) with
        username := username u, hash := h, reserved := reserved u } := by
    simp [toUser, hhash, username_strcpyHash _ _ hu,
      reserved_strcpyHash _ _ (Nat.le_succ_of_le hfits)]
  rw [toUser_setDays _ (terminated_strcpyHash _ u hu) (by rw [hhash]; exact hfits), hstored]
  rfl

theorem keepsHash_user (cap : Nat) : KeepsHash User cap :=
  fun _ _ _ _ _ => rfl

theorem terminated_setDays (vs : List Int32) {u : ρ} (hu : UserRep.terminated u) :
    UserRep.terminated (setDays vs u) := by
  unfold setDays
  repeat apply terminated_setDay
  exact hu

theorem HasRecord.tokens_eq {cap : Nat} {line : List Byte} (h : HasRecord cap line) :
    exists (user hash : CString) (rest rest' : List Byte),
      strtok colon (CString.ofBytes line).bytes = some (user.bytes, rest) ∧
      strtok colon rest = some (hash.bytes, rest') ∧
      lineTokens line = user.bytes :: hash.bytes :: tokens colon rest' := by
  have hnul := (CString.ofBytes line).nulFree
  have htwo := h.twoTokens
  cases huser : strtok colon (CString.ofBytes line).bytes with
  | none =>
      rw [lineTokens, tokens_of_none huser] at htwo
      cases htwo
  | some first =>
      rcases first with ⟨user, rest⟩
      have hnulUser : (0 : Byte) ∉ user :=
        fun hmem => hnul (mem_of_mem_strtok huser (Or.inl hmem))
      have hnulRest : (0 : Byte) ∉ rest :=
        fun hmem => hnul (mem_of_mem_strtok huser (Or.inr hmem))
      rw [lineTokens, tokens_of_some huser] at htwo
      cases hhash : strtok colon rest with
      | none =>
          rw [tokens_of_none hhash, List.length_singleton] at htwo
          cases htwo with
          | step hle => cases hle
      | some second =>
          rcases second with ⟨hash, rest'⟩
          have hnulHash : (0 : Byte) ∉ hash :=
            fun hmem => hnulRest (mem_of_mem_strtok hhash (Or.inl hmem))
          refine ⟨⟨user, hnulUser⟩, ⟨hash, hnulHash⟩, rest, rest', rfl, hhash, ?_⟩
          rw [lineTokens, tokens_of_some huser, tokens_of_some hhash]

theorem HasRecord.lengths {cap : Nat} {line : List Byte} (h : HasRecord cap line)
    {user hash : CString} {others : List (List Byte)}
    (htokens : lineTokens line = user.bytes :: hash.bytes :: others) :
    user.length ≤ usernameCapacity ∧ hash.length ≤ cap := by
  have hname := h.nameFits
  have hhash := h.hashFits
  rw [htokens, List.getD_cons_zero] at hname
  rw [htokens, List.getD_cons_succ, List.getD_cons_zero] at hhash
  exact ⟨hname, hhash⟩

theorem intsFrom_getD_eq_tokenInt {line rest : List Byte} {user hash : CString}
    (htokens : lineTokens line = user.bytes :: hash.bytes :: tokens colon rest) {i : Nat}
    (hi : i < 6) : (intsFrom 6 rest).getD i 0 = tokenInt (lineTokens line) (i + 2) := by
  rw [intsFrom_getD hi, htokens]
  rfl

theorem parseLine_string (env : Env ρ) (sf : List ρ) (line : List Byte) :
    parseLine env sf line = parseLine env sf (CString.ofBytes line).bytes := by
  rw [parseLine, parseLine, CString.ofBytes_bytes]

theorem HasRecord.parseLine_eq {cap : Nat} (hkeeps : KeepsHash ρ cap) (hcap : cap ≤ 32)
    {line : List Byte} (h : HasRecord cap line) (env : Env ρ) (sf : List ρ) :
    exists user : CString, user.length ≤ usernameCapacity ∧
      (lineUser line).username = user ∧
      forall {front back : List ρ} {u : ρ},
        FirstMatch (sfTreeAddUser env sf user).2 user front u back ->
        UserRep.terminated u -> reserved u = none ->
        exists v : ρ, toUser v = lineUser line ∧ UserRep.terminated v ∧
          parseLine env sf line = .ok (.next (front ++ v :: back)) := by
  rcases h.tokens_eq with ⟨user, hash, rest, rest', huser, hhash, htokens⟩
  rcases h.lengths htokens with ⟨hnameFits, hhashFits⟩
  have hname : (lineUser line).username = user := by
    simp [lineUser, htokens]
  have hints : forall i, i < 6 ->
      (intsFrom 6 rest').getD i 0 = tokenInt (lineTokens line) (i + 2) :=
    fun i hi => intsFrom_getD_eq_tokenInt htokens hi
  refine ⟨user, hnameFits, hname, ?_⟩
  intro front back u hm hu hres
  refine ⟨setDays (intsFrom 6 rest') (strcpyHash hash u), ?_, ?_, ?_⟩
  · have hfields : toUser u =
        { toUser u with username := user, reserved := none } := by
      simp [toUser, hm.found, hres]
    rw [hkeeps hash _ u hhashFits hu, hfields]
    simp only [setDays, hints 0 (by decide), hints 1 (by decide), hints 2 (by decide),
      hints 3 (by decide), hints 4 (by decide), hints 5 (by decide), lineUser]
    simp [htokens, User.setDay]
  · exact terminated_setDays _ (terminated_strcpyHash hash u hu)
  · rw [parseLine_string]
    exact parseLine_of_tokens huser hhash (strtok_eq_some huser).1 hnameFits
      (strtok_eq_some hhash).1 (Nat.le_trans hhashFits hcap) hm hu

theorem Gathers.reserved_eq_none {lines : List (List Byte)} {sf : List ρ}
    (h : Gathers (lines.map lineUser) sf) {u : ρ} (hu : u ∈ sf) : reserved u = none := by
  have hmem := List.mem_of_find?_eq_some (h.fields u hu)
  rw [List.mem_reverse, List.mem_map] at hmem
  rcases hmem with ⟨line, _, hline⟩
  exact (congrArg User.reserved hline).symm

theorem Gathers.line {cap : Nat} (hkeeps : KeepsHash ρ cap) (hcap : cap ≤ 32)
    {lines : List (List Byte)} {sf : List ρ} (h : Gathers (lines.map lineUser) sf)
    {line : List Byte} (hline : HasRecord cap line) {env : Env ρ}
    (hblock : env.block ≠ none) :
    exists sf', parseLine env sf line = .ok (.next sf') ∧
      Gathers ((lines ++ [line]).map lineUser) sf' := by
  rcases hline.parseLine_eq hkeeps hcap env sf with ⟨user, hlen, hname, hparse⟩
  have hcarries : forall {v : ρ}, toUser v = lineUser line -> username v = user :=
    fun hv => (congrArg User.username hv).trans hname
  rw [List.map_append, List.map_singleton]
  rcases findUser_cases sf user with hnew | ⟨front, u, back, hm⟩
  · -- a new user: the record is built on the one just appended
    rcases Option.ne_none_iff_exists'.mp hblock with ⟨block, hblock⟩
    have hm : FirstMatch (sfTreeAddUser env sf user).2 user sf (initUser env user block) [] := by
      rw [sfTreeAddUser_of_new hnew hblock (Nat.le_succ_of_le hlen)]
      exact ⟨rfl, username_initUser env block hlen, findUser_eq_none_iff.mp hnew⟩
    rcases hparse hm (terminated_initUser env block hlen) (reserved_setReserved_none _) with
      ⟨v, hv, hterm, hnext⟩
    refine ⟨sf ++ [v], hnext, ?_⟩
    rw [← hv]
    exact h.append (by rw [hcarries hv]; exact hnew) hterm
  · -- a user who is already there: the list is unchanged before the fields are assigned
    have hm' : FirstMatch (sfTreeAddUser env sf user).2 user front u back := by
      rw [sfTreeAddUser_of_found env hm.ne_none]
      exact hm
    rcases hparse hm' (h.terminated u hm.mem) (h.reserved_eq_none hm.mem) with
      ⟨v, hv, hterm, hnext⟩
    refine ⟨front ++ v :: back, hnext, ?_⟩
    rw [← hv]
    exact h.replace (by rw [hcarries hv]; exact hm) hterm

/-!
## The whole file
-/

theorem Gathers.lines {cap : Nat} (hkeeps : KeepsHash ρ cap) (hcap : cap ≤ 32)
    {load : LoadEnv ρ} (hblocks : forall k, (load.line k).block ≠ none)
    {front lines : List (List Byte)} {sf : List ρ} (h : Gathers (front.map lineUser) sf)
    (hlines : forall line, line ∈ lines -> HasRecord cap line) (k : Nat) :
    exists sf', parseLines load k lines sf = .ok sf' ∧
      Gathers ((front ++ lines).map lineUser) sf' := by
  induction lines generalizing front sf k with
  | nil =>
      rw [List.append_nil]
      exact ⟨sf, rfl, h⟩
  | cons line lines ih =>
      rw [List.forall_mem_cons] at hlines
      rcases h.line hkeeps hcap hlines.1 (hblocks k) with ⟨sf', hparse, hsf'⟩
      rcases ih hsf' hlines.2 (k + 1) with ⟨sf'', hrest, hsf''⟩
      refine ⟨sf'', ?_, ?_⟩
      · rw [parseLines, hparse]
        exact hrest
      · rw [List.append_assoc, List.singleton_append] at hsf''
        exact hsf''

/-- Lines with a record, read into an empty list. -/
theorem parseLines_gathers {cap : Nat} (hkeeps : KeepsHash ρ cap) (hcap : cap ≤ 32)
    {load : LoadEnv ρ} (hhead : load.head = [])
    (hblocks : forall k, (load.line k).block ≠ none) {lines : List (List Byte)}
    (hlines : forall line, line ∈ lines -> HasRecord cap line) :
    exists sf, parseLines load 0 lines (sfTreeInit load) = .ok sf ∧
      Gathers (lines.map lineUser) sf := by
  have hstart : Gathers (([] : List (List Byte)).map lineUser) (sfTreeInit load) := by
    rw [sfTreeInit, hhead]
    exact gathers_nil
  exact hstart.lines hkeeps hcap hblocks hlines 0

/-- A file whose lines fit the buffer and begin with a name and a hash that fit the record
is loaded as one record for each user, in the order of first occurrence, with the fields
of the last line about the user. -/
theorem initParse_gathers (load : LoadEnv ρ) (hhead : load.head = [])
    (hblocks : forall k, (load.line k).block ≠ none) (file : List Byte)
    (hfits : forall line, line ∈ wholeLines file -> line.length ≤ 255)
    (hlines : forall line, line ∈ wholeLines file -> HasRecord hashCapacity line) :
    exists sf, initParse load file = .ok sf ∧
      sf.map username =
        (((wholeLines file).map lineUser).map User.username).eraseDups ∧
      forall u, u ∈ sf ->
        lastUser ((wholeLines file).map lineUser) (username u) = some (toUser u) := by
  rcases parseLines_gathers keepsHash_hashCapacity (by decide) hhead hblocks hlines with
    ⟨sf, hparse, hsf⟩
  refine ⟨sf, ?_, hsf.names, hsf.fields⟩
  rw [initParse, readLines_eq_wholeLines (by decide) file hfits]
  exact hparse

end Gathers

def repeatedFile : List Byte :=
  ascii "bin:*:1\nsys:!:2\nbin:x:3:4\n"

theorem initParse_gathers_repeatedFile :
    (forall line, line ∈ wholeLines repeatedFile -> HasRecord hashCapacity line) ∧
      exists sf, initParse plainLoad repeatedFile = .ok sf ∧
        sf.map User.username = [CString.lit "bin", CString.lit "sys"] ∧
        forall u, u ∈ sf ->
          lastUser ((wholeLines repeatedFile).map lineUser) u.username = some u := by
  have hfits : forall line, line ∈ wholeLines repeatedFile -> line.length ≤ 255 := by decide
  have hlines : forall line, line ∈ wholeLines repeatedFile -> HasRecord hashCapacity line := by
    decide
  have hnames : (((wholeLines repeatedFile).map lineUser).map User.username).eraseDups =
      [CString.lit "bin", CString.lit "sys"] := by decide
  refine ⟨hlines, ?_⟩
  have h := initParse_gathers plainLoad rfl (fun _ => nofun) repeatedFile hfits hlines
  rw [hnames] at h
  exact h

end ShadowFs

import ShadowFs.Persist.Loader
import ShadowFs.System.Formats

/-!
# What memory contained before

Two loading runs of one file, in memory with different contents.  Line by line they store
the same fields: a new record is assigned as a whole, and what is left of its block lies
behind the terminators of its strings.  The one word that counts is the `head` of the root,
which `sf_tree_init` leaves as it is.

A null pointer there gives the records of the file, whatever else memory contains.  Any
other value is followed by the first `find_user`, to where there need not be a record at all.
-/

namespace ShadowFs

open CLib UserRep Library

/-!
## One line, two records
-/

theorem day_setDays_congr (vs : List Int32) (u v : UserImage) (d : DayField) :
    day d (setDays vs u) = day d (setDays vs v) := by
  cases d <;> simp [setDays, day_setDay_self, day_setDay_of_ne]

theorem username_line {h : CString} (vs : List Int32) {u : UserImage} (hu : terminated u) :
    username (setDays vs (strcpyHash h u)) = username u := by
  rw [username_setDays vs (terminated_strcpyHash h u hu), username_strcpyHash h u hu]

theorem reserved_line {h : CString} (hlen : h.length ≤ 32) (vs : List Int32) (u : UserImage) :
    reserved (setDays vs (strcpyHash h u)) = reserved u := by
  simp only [setDays, reserved_setDay]
  exact reserved_strcpyHash h u hlen

/-- A hash that fills its array is followed by the days, and those are assigned too. -/
theorem hash_line_congr {h : CString} (hlen : h.length = 32) (vs : List Int32)
    (u v : UserImage) :
    UserImage.hash (setDays vs (strcpyHash h u)) =
      UserImage.hash (setDays vs (strcpyHash h v)) := by
  have harray : forall w : UserImage,
      UserImage.hashArray (setDays vs (strcpyHash h w)) = h.bytes := by
    intro w
    rw [UserImage.hashArray_setDays]
    exact UserImage.hashArray_strcpyHash w hlen
  have hfull : forall w : UserImage,
      (0 : Byte) ∉ UserImage.hashArray (setDays vs (strcpyHash h w)) := by
    intro w
    rw [harray]
    exact h.nulFree
  have hday : forall d, UserImage.day d (setDays vs (strcpyHash h u)) =
      UserImage.day d (setDays vs (strcpyHash h v)) := day_setDays_congr vs _ _
  ext1
  rw [UserImage.hash_bytes_of_full (hfull u), UserImage.hash_bytes_of_full (hfull v), harray,
    harray, UserImage.drop_days, UserImage.drop_days]
  simp only [hday]

theorem toUser_line_congr {h : CString} (hlen : h.length ≤ 32) (vs : List Int32)
    {u v : UserImage} (hu : terminated u) (hv : terminated v)
    (hname : username u = username v) (hres : reserved u = reserved v) :
    toUser (setDays vs (strcpyHash h u)) = toUser (setDays vs (strcpyHash h v)) := by
  have hhash : hash (setDays vs (strcpyHash h u)) = hash (setDays vs (strcpyHash h v)) := by
    rcases Nat.lt_or_eq_of_le hlen with hshort | hfull
    · have hkept : forall {w : UserImage}, terminated w ->
          hash (setDays vs (strcpyHash h w)) = h := by
        intro w hw
        have hfields := keepsHash_hashCapacity h vs w (Nat.le_of_lt_succ hshort) hw
        calc hash (setDays vs (strcpyHash h w)) =
              (toUser (setDays vs (strcpyHash h w))).hash := rfl
          _ = (setDays vs (strcpyHash h (toUser w))).hash := by rw [hfields]
          _ = h := rfl
      rw [hkept hu, hkept hv]
    · exact hash_line_congr hfull vs u v
  simp only [toUser, username_line vs hu, username_line vs hv, hname, hhash,
    reserved_line hlen vs, hres, day_setDays_congr vs (strcpyHash h u) (strcpyHash h v)]

/-!
## One file, two lists
-/

structure Alike (sf sf' : List UserImage) : Prop where
  same : sf.map toUser = sf'.map toUser
  left : forall u, u ∈ sf -> terminated u
  right : forall u, u ∈ sf' -> terminated u

theorem Alike.findUser_eq_none {sf sf' : List UserImage} (h : Alike sf sf') {name : CString}
    (hnone : findUser sf name = none) : findUser sf' name = none := by
  rw [findUser_eq_none_iff] at hnone ⊢
  intro v hv
  have hmem := List.mem_map_of_mem hv (f := toUser)
  rw [← h.same] at hmem
  rcases List.mem_map.mp hmem with ⟨u, hu, huv⟩
  have hname : username v = username u := (congrArg User.username huv).symm
  rw [hname]
  exact hnone u hu

theorem Alike.exists_firstMatch {sf sf' front back : List UserImage} {name : CString}
    {u : UserImage} (h : Alike sf sf') (hm : FirstMatch sf name front u back) :
    exists front' u' back', FirstMatch sf' name front' u' back' ∧
      front.map toUser = front'.map toUser ∧ toUser u = toUser u' ∧
      back.map toUser = back'.map toUser := by
  have hsplit := h.same.symm
  rw [hm.split, List.map_append, List.map_cons] at hsplit
  rcases List.map_eq_append_iff.mp hsplit with ⟨front', rest', hsf', hfront, hrest⟩
  rcases List.map_eq_cons_iff.mp hrest with ⟨u', back', hrest', hu, hback⟩
  refine ⟨front', u', back', ⟨?_, ?_, ?_⟩, hfront.symm, hu.symm, hback.symm⟩
  · rw [hsf', hrest']
  · exact (congrArg User.username hu).trans hm.found
  · intro v hv
    have hmem := List.mem_map_of_mem hv (f := toUser)
    rw [hfront] at hmem
    rcases List.mem_map.mp hmem with ⟨w, hw, hvw⟩
    have hname : username v = username w := (congrArg User.username hvw).symm
    rw [hname]
    exact hm.first w hw

theorem alike_append {sf sf' : List UserImage} (h : Alike sf sf') {u u' : UserImage}
    (hsame : toUser u = toUser u') (hu : terminated u) (hu' : terminated u') :
    Alike (sf ++ [u]) (sf' ++ [u']) where
  same := by
    rw [List.map_append, List.map_append, h.same, List.map_singleton, List.map_singleton, hsame]
  left := forall_mem_append_singleton h.left hu
  right := forall_mem_append_singleton h.right hu'

/-- The step: the same line on lists with the same fields, with any two blocks. -/
theorem Alike.line {sf sf' : List UserImage} (h : Alike sf sf') {line : List Byte}
    (hline : HasRecord 32 line) {env env' : Env UserImage} (hblock : env.block ≠ none)
    (hblock' : env'.block ≠ none) :
    exists t t', parseLine env sf line = .ok (.next t) ∧
      parseLine env' sf' line = .ok (.next t') ∧ Alike t t' := by
  rcases hline.tokens_eq with ⟨user, pass, rest, rest', huser, hpass, htokens⟩
  rcases hline.lengths htokens with ⟨hname, hhash⟩
  have hneUser := (strtok_eq_some huser).1
  have hnePass := (strtok_eq_some hpass).1
  have hstored : forall {u : UserImage}, terminated u ->
      terminated (setDays (intsFrom 6 rest') (strcpyHash pass u)) := fun hu =>
    terminated_setDays _ (terminated_strcpyHash pass _ hu)
  rw [parseLine_string, parseLine_string env' sf' line]
  rcases findUser_cases sf user with hnew | ⟨front, u, back, hm⟩
  · -- a new user: both records are built in a block of unknown contents
    rcases Option.ne_none_iff_exists'.mp hblock with ⟨block, hblock⟩
    rcases Option.ne_none_iff_exists'.mp hblock' with ⟨block', hblock'⟩
    have hnew' := h.findUser_eq_none hnew
    have hterm := terminated_initUser env block hname
    have hterm' := terminated_initUser env' block' hname
    have hsame : username (initUser env user block) = username (initUser env' user block') := by
      rw [username_initUser env block hname, username_initUser env' block' hname]
    have hres : reserved (initUser env user block) = reserved (initUser env' user block') := by
      rw [initUser, initUser, reserved_setReserved_none, reserved_setReserved_none]
    refine ⟨_, _, parseLine_of_new huser hpass hneUser hname hnePass hhash hnew hblock,
      parseLine_of_new huser hpass hneUser hname hnePass hhash hnew' hblock', ?_⟩
    exact alike_append h (toUser_line_congr hhash _ hterm hterm' hsame hres) (hstored hterm)
      (hstored hterm')
  · -- a user who is already there
    rcases h.exists_firstMatch hm with ⟨front', u', back', hm', hfront, hu, hback⟩
    have hterm := h.left u hm.mem
    have hterm' := h.right u' hm'.mem
    have hadd := sfTreeAddUser_of_found env hm.ne_none
    have hadd' := sfTreeAddUser_of_found env' hm'.ne_none
    refine ⟨_, _, parseLine_of_tokens huser hpass hneUser hname hnePass hhash
      (by rw [hadd]; exact hm) hterm, parseLine_of_tokens huser hpass hneUser hname hnePass
      hhash (by rw [hadd']; exact hm') hterm', ?_⟩
    have hsame := toUser_line_congr hhash (intsFrom 6 rest') hterm hterm'
      (congrArg User.username hu) (congrArg User.reserved hu)
    have hleft := h.left
    have hright := h.right
    rw [hm.split] at hleft
    rw [hm'.split] at hright
    constructor
    · rw [List.map_append, List.map_append, List.map_cons, List.map_cons, hfront, hback, hsame]
    · exact forall_mem_replace hleft (hstored hterm)
    · exact forall_mem_replace hright (hstored hterm')

theorem Alike.lines {load load' : LoadEnv UserImage}
    (hblocks : forall k, (load.line k).block ≠ none)
    (hblocks' : forall k, (load'.line k).block ≠ none) {lines : List (List Byte)}
    (hlines : forall line, line ∈ lines -> HasRecord 32 line) {sf sf' : List UserImage}
    (h : Alike sf sf') (k : Nat) :
    exists t t', parseLines load k lines sf = .ok t ∧ parseLines load' k lines sf' = .ok t' ∧
      Alike t t' := by
  induction lines generalizing sf sf' k with
  | nil => exact ⟨sf, sf', rfl, rfl, h⟩
  | cons line lines ih =>
      rw [List.forall_mem_cons] at hlines
      rcases h.line hlines.1 (hblocks k) (hblocks' k) with ⟨t, t', hline, hline', hnext⟩
      rcases ih hlines.2 hnext (k + 1) with ⟨r, r', hrest, hrest', hlast⟩
      refine ⟨r, r', ?_, ?_, hlast⟩
      · rw [parseLines, hline]
        exact hrest
      · rw [parseLines, hline']
        exact hrest'

/-!
## One file, two memories
-/

/-- The loading run returns after a number of rounds, and every traversal of its list passes
through these records. -/
def Loads (m : Malloc UserImage) (file : List Byte) (users : List User) : Prop :=
  exists n, forall rounds, n < rounds ->
    exists sf, SfRoot.initParse rounds m file = some (.ok sf) ∧ sf.Shows users

def LoadsAlike (m m' : Malloc UserImage) (file : List Byte) : Prop :=
  exists users, Loads m file users ∧ Loads m' file users

/-- Any two runs of the file load the same records, as long as `malloc` leaves one of the
given words where the `head` of the root is. -/
def DependsOnFileOnly (heads : Option Nat -> Prop) (file : List Byte) : Prop :=
  forall m m', heads m.head -> heads m'.head -> LoadsAlike m m' file

theorem Loads.unique {m : Malloc UserImage} {file : List Byte} {users users' : List User}
    (h : Loads m file users) (h' : Loads m file users') : users = users' := by
  rcases h with ⟨n, hn⟩
  rcases h' with ⟨n', hn'⟩
  have hn := hn (n + n' + users.length + users'.length + 1) (by lia)
  have hn' := hn' (n + n' + users.length + users'.length + 1) (by lia)
  rcases hn with ⟨sf, hparse, hshows⟩
  rcases hn' with ⟨sf', hparse', hshows'⟩
  rw [hparse] at hparse'
  cases hparse'
  have hvisited := hshows.visits (users.length + users'.length + 1) (by lia)
  rw [hshows'.visits (users.length + users'.length + 1) (by lia)] at hvisited
  exact (Option.some.inj hvisited).symm

/-- The run in memory, given the run on lists. -/
theorem loads_of_initParse {m : Malloc UserImage} {old : List UserImage}
    (hold : (SfRoot.sfTreeInit m).Represents old) {file : List Byte} {sf : List UserImage}
    (hparse : initParse { head := old, line := m.env } file = .ok sf) :
    Loads m file (sf.map toUser) := by
  refine ⟨old.length + (readLines 256 file).length, ?_⟩
  intro rounds hrounds
  rcases SfRoot.initParse_represents hold (fun _ => rfl) hparse hrounds with
    ⟨root, hload, hroot⟩
  exact ⟨root, hload, hroot.shows⟩

theorem represents_nil {m : Malloc UserImage} (hhead : m.head = none) :
    (SfRoot.sfTreeInit m).Represents [] :=
  ⟨[], ⟨hhead, List.nodup_nil⟩, rfl⟩

theorem loadsAlike_of_null {m m' : Malloc UserImage} (hhead : m.head = none)
    (hhead' : m'.head = none) {file : List Byte}
    (hlines : forall line, line ∈ readLines 256 file -> HasRecord 32 line) :
    LoadsAlike m m' file := by
  have hnil : Alike [] [] :=
    ⟨rfl, fun _ hu => absurd hu List.not_mem_nil, fun _ hu => absurd hu List.not_mem_nil⟩
  have hblocks : forall (m : Malloc UserImage) k, (m.env k).block ≠ none :=
    fun m k => Option.some_ne_none _
  have hruns : exists t t', initParse { head := [], line := m.env } file = .ok t ∧
      initParse { head := [], line := m'.env } file = .ok t' ∧ Alike t t' :=
    Alike.lines (hblocks m) (hblocks m') hlines hnil 0
  rcases hruns with ⟨sf, sf', hparse, hparse', halike⟩
  refine ⟨sf.map toUser, loads_of_initParse (represents_nil hhead) hparse, ?_⟩
  rw [halike.same]
  exact loads_of_initParse (represents_nil hhead') hparse'

/-!
## Other words at the head
-/

/-- A pointer to where there is no record. -/
def wildMemory (a : Nat) : Malloc UserImage where
  head := some a
  heap := fun _ => none
  addr := fun k => k
  block := fun _ => ⟨UserImage.blank, none⟩
  time := fun _ => 0
  fresh := fun _ => rfl
  apart := fun _ _ h => h

theorem findUser_wildMemory (a rounds : Nat) (name : CString) :
    (SfRoot.sfTreeInit (wildMemory a)).findUser rounds name = none := by
  cases rounds <;> rfl

/-- The first line already looks for its user. -/
theorem parseLine_wildMemory (a rounds : Nat) {line : List Byte} (hline : HasRecord 32 line)
    (env : Env UserImage) (addr : Nat) (link : Option Nat) :
    (SfRoot.sfTreeInit (wildMemory a)).parseLine rounds env addr link line = none := by
  rcases hline.tokens_eq with ⟨user, pass, rest, rest', huser, _, htokens⟩
  have hname : user.bytes.length ≤ usernameCapacity := (hline.lengths htokens).1
  have hfits : ¬ user.bytes.length ≥ 16 := Nat.not_le.mpr (Nat.lt_succ_of_le hname)
  have hne := (ofBytes_token_ne_empty (CString.ofBytes line).nulFree huser).1
  simp only [SfRoot.parseLine, huser, if_neg hfits, if_neg hne, SfRoot.addUser,
    findUser_wildMemory]

theorem not_loads_wildMemory (a : Nat) {file : List Byte}
    (hlines : forall line, line ∈ readLines 256 file -> HasRecord 32 line)
    (users : List User) : ¬ Loads (wildMemory a) file users := by
  rintro ⟨n, hn⟩
  rcases hn (n + 1) (Nat.lt_succ_self n) with ⟨sf, hparse, hshows⟩
  unfold SfRoot.initParse at hparse
  cases hread : readLines 256 file with
  | nil =>
      -- nothing is read, and the first traversal follows the pointer
      rw [hread] at hparse
      cases hparse
      have hvisits := hshows.visits (users.length + 1) (Nat.lt_succ_self _)
      cases hvisits
  | cons line lines =>
      have hline := hlines line (by rw [hread]; exact List.mem_cons_self)
      rw [hread, SfRoot.parseLines, parseLine_wildMemory a (n + 1) hline] at hparse
      cases hparse

/-- What is loaded depends on the file only if and only if the word that `sf_tree_init`
leaves at `head` is a null pointer. -/
theorem dependsOnFileOnly_iff (heads : Option Nat -> Prop) (file : List Byte)
    (hlines : forall line, line ∈ readLines 256 file -> HasRecord 32 line) :
    DependsOnFileOnly heads file <-> forall head, heads head -> head = none := by
  constructor
  · intro h head hhead
    cases head with
    | none => rfl
    | some a =>
        rcases h (wildMemory a) (wildMemory a) hhead hhead with ⟨users, hloads, _⟩
        exact absurd hloads (not_loads_wildMemory a hlines users)
  · intro hnull m m' hm hm'
    exact loadsAlike_of_null (hnull _ hm) (hnull _ hm') hlines

theorem hasRecord_binFile : forall line, line ∈ readLines 256 binFile -> HasRecord 32 line := by
  rw [readLines_binFile, List.forall_mem_singleton]
  decide

theorem dependsOnFileOnly_binFile : DependsOnFileOnly (fun head => head = none) binFile :=
  (dependsOnFileOnly_iff _ binFile hasRecord_binFile).mpr (fun _ hhead => hhead)

def staleUser : UserImage :=
  initUser UserImage.calmEnv (CString.lit "sys") UserImage.blank

/-- Memory with that record in it, and a word where `head` will be. -/
def usedMemory (head : Option Nat) : Malloc UserImage where
  head := head
  heap := fun a => if a = 7 then some ⟨staleUser, none⟩ else none
  addr := fun k => k + 8
  block := fun _ => ⟨UserImage.blank, none⟩
  time := fun _ => 0
  fresh := fun k => if_neg (Nat.ne_of_gt (Nat.lt_of_lt_of_le (Nat.lt_succ_self 7)
    (Nat.le_add_left 8 k)))
  apart := fun _ _ h => Nat.add_right_cancel h

theorem loads_usedMemory_null :
    Loads (usedMemory none) binFile (binUsers.map toUser) :=
  loads_of_initParse (represents_nil rfl) initParse_binFile

theorem loads_usedMemory_stale :
    Loads (usedMemory (some 7)) binFile ((staleUser :: binUsers).map toUser) := by
  have hstale : (SfRoot.sfTreeInit (usedMemory (some 7))).Represents [staleUser] :=
    ⟨[(7, staleUser)], ⟨⟨rfl, none, rfl, rfl⟩, List.nodup_singleton 7⟩, rfl⟩
  exact loads_of_initParse hstale rfl

/-- With the word 7 at `head` the record of the earlier use comes first. -/
theorem not_dependsOnFileOnly_stale :
    (forall line, line ∈ readLines 256 binFile -> HasRecord 32 line) ∧
      Loads (usedMemory none) binFile (binUsers.map toUser) ∧
      Loads (usedMemory (some 7)) binFile ((staleUser :: binUsers).map toUser) ∧
      ¬ LoadsAlike (usedMemory none) (usedMemory (some 7)) binFile ∧
      ¬ DependsOnFileOnly (fun _ => True) binFile := by
  have hdiffer : ¬ LoadsAlike (usedMemory none) (usedMemory (some 7)) binFile := by
    rintro ⟨users, hnull, hstale⟩
    have hone := congrArg List.length (hnull.unique loads_usedMemory_null)
    have htwo := congrArg List.length (hstale.unique loads_usedMemory_stale)
    rw [hone] at htwo
    cases htwo
  refine ⟨hasRecord_binFile, loads_usedMemory_null, loads_usedMemory_stale, hdiffer, ?_⟩
  intro h
  exact hdiffer (h _ _ trivial trivial)

end ShadowFs

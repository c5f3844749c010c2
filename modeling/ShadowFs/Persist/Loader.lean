import ShadowFs.Persist.Records
import ShadowFs.Tree.Pointers

/-!
# Loading into memory

`init_parse` on the linked structure, with memory as `malloc` returns it.  The block of the
root has a word where `head` is, the block of a new record has contents and a link, and none
of them means anything before it is assigned.  `sf_tree_add_user` assigns every field of a
record; `sf_tree_init` does not assign `head`.

If what is behind that word is a linked list of records, the loader does to it what the
loader of `ShadowFs.Persist.Parse` does to the list.  The traversals of the result pass
through its records in order and end.
-/

namespace ShadowFs

open CLib UserRep Library

/-- What the loading run finds: the word at `head` in the block of the root, the records
that memory holds, and the block it obtains at each line, with the time of the line.
Blocks lie outside the records and apart from each other. -/
structure Malloc (ρ : Type) where
  head : Option Nat
  heap : Heap ρ
  addr : Nat -> Nat
  block : Nat -> Cell ρ
  time : Nat -> Int
  fresh : forall k, heap (addr k) = none
  apart : forall k l, addr k = addr l -> k = l

/-- The environment of a line, whose block is not null. -/
def Malloc.env {ρ : Type} (m : Malloc ρ) (k : Nat) : Env ρ :=
  { time := m.time k, block := some (m.block k).value, buffer := true }

namespace SfRoot

variable {ρ : Type} [UserRep ρ]

/-!
## The loader
-/

/-- Only `path` is assigned. -/
def sfTreeInit (m : Malloc ρ) : SfRoot ρ :=
  { head := m.head, heap := m.heap }

/-- Assignments to the record at an address. -/
def assign (sf : SfRoot ρ) (addr : Nat) (f : Cell ρ -> Cell ρ) : SfRoot ρ :=
  { sf with heap := sf.heap.put addr ((sf.heap addr).map f) }

/-- `sf_tree_add_user`, from the block as it is returned: `link` is the word at `next`. -/
def addUser (rounds : Nat) (env : Env ρ) (addr : Nat) (link : Option Nat) (sf : SfRoot ρ)
    (name : CString) : Option (Int × SfRoot ρ) :=
  match sf.findUser rounds name with
  | none => none
  | some (some _) => some (-3, sf)
  | some none =>
      match env.block with
      | none => some (-1, sf)
      | some u =>
          let sf : SfRoot ρ := { sf with heap := sf.heap.put addr (some ⟨u, link⟩) }
          if name.length > 16 then some (-2, sf)
          else
            let sf := sf.assign addr (fun cell => ⟨initUser env name cell.value, none⟩)
            (linkLast rounds sf addr).map (fun sf => (0, sf))

def updateHash (rounds : Nat) (sf : SfRoot ρ) (name newhash : CString) :
    Option (Int × SfRoot ρ) :=
  match sf.findUser rounds name with
  | none => none
  | some none => some (-1, sf)
  | some (some cuser) =>
      if newhash.length > 32 then some (-1, sf)
      else some (0, sf.assign cuser (fun cell => ⟨strcpyHash newhash cell.value, cell.next⟩))

def parseDays (rounds : Nat) (sf : SfRoot ρ) (user : CString) (s : List Byte) :
    Option (SfRoot ρ) := do
  let dsc := nextInt s
  let (_, sf) ← sf.updateField rounds user (setDay .dsc dsc.1)
  let dcc := nextInt dsc.2
  let (_, sf) ← sf.updateField rounds user (setDay .dcc dcc.1)
  let dmc := nextInt dcc.2
  let (_, sf) ← sf.updateField rounds user (setDay .dmc dmc.1)
  let warn := nextInt dmc.2
  let (_, sf) ← sf.updateField rounds user (setDay .dw warn.1)
  let expire := nextInt warn.2
  let (_, sf) ← sf.updateField rounds user (setDay .de expire.1)
  let dse := nextInt expire.2
  let (_, sf) ← sf.updateField rounds user (setDay .dd dse.1)
  some sf

/-- What the loop body does with the root: go on, or return it. -/
inductive Outcome (ρ : Type) where
  | next (sf : SfRoot ρ)
  | stop (sf : SfRoot ρ)

/-- The loop body of `init_parse`, with `user[16]` and `hash[33]`. -/
def parseLine (rounds : Nat) (env : Env ρ) (addr : Nat) (link : Option Nat) (sf : SfRoot ρ)
    (line : List Byte) : Option (Except Fault (Outcome ρ)) :=
  match strtok colon (CString.ofBytes line).bytes with
  | none => some (.error .nullPointer)
  | some (userToken, rest) =>
      if userToken.length ≥ 16 then some (.error .bufferOverflow)
      else
        let user := CString.ofBytes userToken
        if user = CString.lit "" then some (.ok (.stop sf))
        else
          match sf.addUser rounds env addr link user with
          | none => none
          | some (_, sf) =>
              match strtok colon rest with
              | none => some (.error .nullPointer)
              | some (hashToken, rest) =>
                  if hashToken.length ≥ 33 then some (.error .bufferOverflow)
                  else
                    let hash := CString.ofBytes hashToken
                    if hash = CString.lit "" then some (.ok (.stop sf))
                    else
                      match sf.updateHash rounds user hash with
                      | none => none
                      | some (_, sf) =>
                          (sf.parseDays rounds user rest).map (fun sf => .ok (.next sf))

/-- The `while` loop, `k` counting the lines read so far. -/
def parseLines (rounds : Nat) (m : Malloc ρ) :
    Nat -> List (List Byte) -> SfRoot ρ -> Option (Except Fault (SfRoot ρ))
  | _, [], sf => some (.ok sf)
  | k, line :: lines, sf =>
      match sf.parseLine rounds (m.env k) (m.addr k) (m.block k).next line with
      | none => none
      | some (.error fault) => some (.error fault)
      | some (.ok (.stop sf')) => some (.ok sf')
      | some (.ok (.next sf')) => parseLines rounds m (k + 1) lines sf'

/-- `none` stands for a loop that is still running or has followed a pointer to no record. -/
def initParse (rounds : Nat) (m : Malloc ρ) (file : List Byte) :
    Option (Except Fault (SfRoot ρ)) :=
  parseLines rounds m 0 (readLines 256 file) (sfTreeInit m)

/-!
## Traversals
-/

/-- `while(current) { ...; current = current->next; }`, with what is put out for each record. -/
def traverse {β : Type} (visit : ρ -> List β) (heap : Heap ρ) :
    Nat -> Option Nat -> Option (List β)
  | 0, _ => none
  | _ + 1, none => some []
  | rounds + 1, some current =>
      match heap current with
      | none => none
      | some cell =>
          (traverse visit heap rounds cell.next).map (fun rest => visit cell.value ++ rest)

/-- The text `sf_deparse` writes. -/
def sfDeparse (rounds : Nat) (sf : SfRoot ρ) : Option (List Byte) :=
  traverse deparseUser sf.heap rounds sf.head

/-- The names `sh_readdir` passes to `filler` for the root directory. -/
def shReaddir (rounds : Nat) (sf : SfRoot ρ) : Option (List CString) :=
  (traverse (fun user => [username user]) sf.heap rounds sf.head).map
    (fun names => [CString.lit ".", CString.lit "..", CString.lit "sh_file"] ++ names)

/-- The records a traversal passes through. -/
def visited (rounds : Nat) (sf : SfRoot ρ) : Option (List User) :=
  traverse (fun user => [toUser user]) sf.heap rounds sf.head

/-!
## One assignment
-/

omit [UserRep ρ] in
theorem assign_put (sf : SfRoot ρ) (addr : Nat) (cell : Cell ρ) (f : Cell ρ -> Cell ρ) :
    assign { sf with heap := sf.heap.put addr (some cell) } addr f =
      { sf with heap := sf.heap.put addr (some (f cell)) } := by
  simp only [assign, Heap.put_self, Option.map_some]
  simp only [Heap.put, Function.update_idem]

omit [UserRep ρ] in
theorem assign_heap_none {sf : SfRoot ρ} {a addr : Nat} (h : sf.heap a = none)
    (f : Cell ρ -> Cell ρ) : (sf.assign addr f).heap a = none := by
  by_cases ha : a = addr
  · subst ha
    simp [assign, Heap.put_self, h]
  · simp [assign, Heap.put_of_ne _ ha, h]

/-- For a name that is not too long the link in the block does not matter. -/
theorem addUser_eq {name : CString} (hlen : name.length ≤ 16) (rounds : Nat) (env : Env ρ)
    (addr : Nat) (link : Option Nat) (sf : SfRoot ρ) :
    sf.addUser rounds env addr link name = sf.sfTreeAddUser rounds env addr name := by
  have hfits : ¬ name.length > 16 := Nat.not_lt.mpr hlen
  cases hfind : sf.findUser rounds name with
  | none => simp only [addUser, sfTreeAddUser, hfind]
  | some found =>
      cases found with
      | some _ => simp only [addUser, sfTreeAddUser, hfind]
      | none =>
          cases hblock : env.block <;>
            simp only [addUser, sfTreeAddUser, hfind, hblock, if_neg hfits, assign_put]

theorem updateHash_eq {newhash : CString} (hlen : newhash.length ≤ 32) (rounds : Nat)
    (sf : SfRoot ρ) (name : CString) :
    sf.updateHash rounds name newhash = sf.updateField rounds name (strcpyHash newhash) := by
  have hfits : ¬ newhash.length > 32 := Nat.not_lt.mpr hlen
  cases hfind : sf.findUser rounds name with
  | none => simp only [updateHash, updateField, hfind]
  | some found =>
      cases found <;> simp only [updateHash, updateField, hfind, if_neg hfits, assign]

/-!
## Records in memory

The invariant of the loop: the structure is a linked list of the users read so far, every
walk through it fits the rounds, and the blocks still to come are outside.
-/

structure Holds (rounds : Nat) (free : Nat -> Prop) (sf : SfRoot ρ) (users : List ρ) :
    Prop where
  represents : sf.Represents users
  rounds : users.length < rounds
  free : forall a, free a -> sf.heap a = none

omit [UserRep ρ] in
theorem linkLast_heap_none {sf sf' : SfRoot ρ} {rounds addr a : Nat}
    (h : sf.linkLast rounds addr = some sf') (ha : sf.heap a = none) : sf'.heap a = none := by
  unfold linkLast at h
  split at h
  · cases h
    exact ha
  · split at h
    · cases h
    · cases h
      exact assign_heap_none ha (fun cell => ⟨cell.value, some addr⟩)

theorem sfTreeAddUser_heap_none {sf sf' : SfRoot ρ} {rounds addr a : Nat} {env : Env ρ}
    {name : CString} {result : Int}
    (h : sf.sfTreeAddUser rounds env addr name = some (result, sf')) (ha : sf.heap a = none)
    (hne : a ≠ addr) : sf'.heap a = none := by
  have hput : forall c, (sf.heap.put addr c) a = none := by
    intro c
    rw [Heap.put_of_ne _ hne]
    exact ha
  unfold sfTreeAddUser at h
  split at h
  · cases h
  · cases h
    exact ha
  · split at h
    · cases h
      exact ha
    · split at h
      · cases h
        exact hput _
      · rcases Option.map_eq_some_iff.mp h with ⟨sf1, hlink, heq⟩
        cases heq
        exact linkLast_heap_none hlink (hput _)

theorem updateField_heap_none {sf sf' : SfRoot ρ} {rounds a : Nat} {name : CString}
    {f : ρ -> ρ} {result : Int} (h : sf.updateField rounds name f = some (result, sf'))
    (ha : sf.heap a = none) : sf'.heap a = none := by
  unfold updateField at h
  split at h
  · cases h
  · cases h
    exact ha
  · cases h
    exact assign_heap_none ha (fun cell => ⟨f cell.value, cell.next⟩)

theorem length_updateField (users : List ρ) (name : CString) (f : ρ -> ρ) :
    (ShadowFs.updateField users name f).2.length = users.length := by
  unfold ShadowFs.updateField
  split
  · exact List.length_modify f users _
  · rfl

theorem length_sfTreeAddUser_le (env : Env ρ) (users : List ρ) (name : CString) :
    (ShadowFs.sfTreeAddUser env users name).2.length ≤ users.length + 1 := by
  rcases sfTreeAddUser_cases env users name with ⟨code, _, hadd⟩ | ⟨u, _, _, _, hadd⟩
  · rw [hadd]
    exact Nat.le_succ _
  · rw [hadd, List.length_append, List.length_singleton]

theorem length_parseLine_le {env : Env ρ} {users : List ρ} {line : List Byte}
    {outcome : LineOutcome ρ} (hline : ShadowFs.parseLine env users line = .ok outcome) :
    outcome.list.length ≤ users.length + 1 := by
  have hnext := parseLine_next hline
  cases parseLine_effect hline with
  | noName _ _ _ => cases hnext
  | noHash _ _ _ _ _ _ => cases hnext
  | record _ _ _ _ hhashLen _ =>
      have hpass := (CString.ofBytes_length_le _).trans (Nat.le_of_lt_succ hhashLen)
      simp only [LineOutcome.list, ShadowFs.parseDays, updateDaysSinceChanged,
        updateDaysUntilCanChange, updateDaysUntilMustChange, updateDaysBeforeWarning,
        updateDaysUntilExpiration, updateDaysSinceDeactivation, length_updateField,
        updateHash_eq_updateField _ _ hpass]
      exact length_sfTreeAddUser_le env users _

section Holds

variable {rounds : Nat} {free : Nat -> Prop} {sf : SfRoot ρ} {users : List ρ}

theorem holds_updateField (h : Holds rounds free sf users) (name : CString) (f : ρ -> ρ) :
    exists sf', sf.updateField rounds name f =
        some ((ShadowFs.updateField users name f).1, sf') ∧
      Holds rounds free sf' (ShadowFs.updateField users name f).2 := by
  rcases updateField_represents h.represents h.rounds name f with ⟨sf', hupdate, hsf'⟩
  refine ⟨sf', hupdate, hsf', ?_, ?_⟩
  · rw [length_updateField]
    exact h.rounds
  · exact fun a ha => updateField_heap_none hupdate (h.free a ha)

theorem holds_addUser (h : Holds rounds free sf users) (hrounds : users.length + 1 < rounds)
    (env : Env ρ) {addr : Nat} (haddr : free addr) (link : Option Nat) {name : CString}
    (hlen : name.length ≤ 16) :
    exists sf', sf.addUser rounds env addr link name =
        some ((ShadowFs.sfTreeAddUser env users name).1, sf') ∧
      Holds rounds (fun a => free a ∧ a ≠ addr) sf'
        (ShadowFs.sfTreeAddUser env users name).2 := by
  rcases sfTreeAddUser_represents h.represents h.rounds env (h.free addr haddr) name with
    ⟨sf', hadd, hsf'⟩
  refine ⟨sf', ?_, hsf', ?_, ?_⟩
  · rw [addUser_eq hlen]
    exact hadd
  · exact Nat.lt_of_le_of_lt (length_sfTreeAddUser_le env users name) hrounds
  · exact fun a ha => sfTreeAddUser_heap_none hadd (h.free a ha.1) ha.2

theorem holds_updateHash (h : Holds rounds free sf users) (name : CString) {newhash : CString}
    (hlen : newhash.length ≤ 32) :
    exists sf', sf.updateHash rounds name newhash =
        some ((ShadowFs.updateHash users name newhash).1, sf') ∧
      Holds rounds free sf' (ShadowFs.updateHash users name newhash).2 := by
  rw [updateHash_eq hlen, updateHash_eq_updateField users name hlen]
  exact holds_updateField h name _

theorem holds_parseDays (h : Holds rounds free sf users) (user : CString) (s : List Byte) :
    exists sf', sf.parseDays rounds user s = some sf' ∧
      Holds rounds free sf' (ShadowFs.parseDays users user s) := by
  rcases holds_updateField h user (setDay .dsc (nextInt s).1) with ⟨sf1, h1, hold1⟩
  rcases holds_updateField hold1 user (setDay .dcc (nextInt (nextInt s).2).1) with
    ⟨sf2, h2, hold2⟩
  rcases holds_updateField hold2 user (setDay .dmc (nextInt (nextInt (nextInt s).2).2).1) with
    ⟨sf3, h3, hold3⟩
  rcases holds_updateField hold3 user
    (setDay .dw (nextInt (nextInt (nextInt (nextInt s).2).2).2).1) with ⟨sf4, h4, hold4⟩
  rcases holds_updateField hold4 user
    (setDay .de (nextInt (nextInt (nextInt (nextInt (nextInt s).2).2).2).2).1) with
    ⟨sf5, h5, hold5⟩
  rcases holds_updateField hold5 user
    (setDay .dd (nextInt (nextInt (nextInt (nextInt (nextInt (nextInt s).2).2).2).2).2).1) with
    ⟨sf6, h6, hold6⟩
  refine ⟨sf6, ?_, hold6⟩
  simp only [parseDays, h1, h2, h3, h4, h5, h6, Option.bind_eq_bind, Option.bind_some]

theorem holds_parseLine (h : Holds rounds free sf users) (hrounds : users.length + 1 < rounds)
    {env : Env ρ} {addr : Nat} (haddr : free addr) (link : Option Nat) {line : List Byte}
    {outcome : LineOutcome ρ} (hline : ShadowFs.parseLine env users line = .ok outcome) :
    exists sf', sf.parseLine rounds env addr link line = some (.ok (.next sf')) ∧
      Holds rounds (fun a => free a ∧ a ≠ addr) sf' outcome.list := by
  have hnext := parseLine_next hline
  cases parseLine_effect hline with
  | noName _ _ _ => cases hnext
  | noHash _ _ _ _ _ _ => cases hnext
  | record huserTok huserLen huser hhashTok hhashLen hhash =>
      rename_i userToken rest hashToken rest'
      have hfitUser : ¬ userToken.length ≥ 16 := Nat.not_le.mpr huserLen
      have hfitHash : ¬ hashToken.length ≥ 33 := Nat.not_le.mpr hhashLen
      have hname : (CString.ofBytes userToken).length ≤ 16 :=
        (CString.ofBytes_length_le userToken).trans (Nat.le_of_lt huserLen)
      have hpass : (CString.ofBytes hashToken).length ≤ 32 :=
        (CString.ofBytes_length_le hashToken).trans (Nat.le_of_lt_succ hhashLen)
      rcases holds_addUser h hrounds env haddr link hname with ⟨sf1, hadd, hold1⟩
      rcases holds_updateHash hold1 (CString.ofBytes userToken) hpass with
        ⟨sf2, hupdate, hold2⟩
      rcases holds_parseDays hold2 (CString.ofBytes userToken) rest' with
        ⟨sf3, hdays, hold3⟩
      refine ⟨sf3, ?_, hold3⟩
      simp only [parseLine, huserTok, if_neg hfitUser, if_neg huser, hadd, hhashTok,
        if_neg hfitHash, if_neg hhash, hupdate, hdays, Option.map_some]

end Holds

/-- The run: the addresses of the lines to come stay free. -/
theorem holds_parseLines {rounds : Nat} {m : Malloc ρ} {lines : List (List Byte)} {k : Nat}
    {sf : SfRoot ρ} {users users' : List ρ} {load : LoadEnv ρ}
    (hload : forall l, load.line l = m.env l)
    (h : Holds rounds (fun a => exists l, k ≤ l ∧ a = m.addr l) sf users)
    (hrounds : users.length + lines.length < rounds)
    (hlines : ShadowFs.parseLines load k lines users = .ok users') :
    exists sf', parseLines rounds m k lines sf = some (.ok sf') ∧ sf'.Represents users' := by
  induction lines generalizing k sf users with
  | nil =>
      cases hlines
      exact ⟨sf, rfl, h.represents⟩
  | cons line lines ih =>
      rw [List.length_cons] at hrounds
      rcases parseLines_cons_ok hlines with ⟨outcome, hline, hrest⟩
      rw [hload k] at hline
      have hgrowth := length_parseLine_le hline
      rcases holds_parseLine h (by lia) ⟨k, Nat.le_refl k, rfl⟩ (m.block k).next hline with
        ⟨sf1, hparse, hold⟩
      have hnext : Holds rounds (fun a => exists l, k + 1 ≤ l ∧ a = m.addr l) sf1
          outcome.list := by
        refine ⟨hold.represents, hold.rounds, ?_⟩
        rintro a ⟨l, hl, ha⟩
        refine hold.free a ⟨⟨l, Nat.le_of_succ_le hl, ha⟩, ?_⟩
        intro hsame
        have hkl := m.apart l k (ha.symm.trans hsame)
        lia
      rcases ih hnext (by lia) hrest with ⟨sf', hloop, hsf'⟩
      refine ⟨sf', ?_, hsf'⟩
      rw [parseLines, hparse]
      exact hloop

/-- With a list of records behind the word at `head`, the loader in memory follows the
loader of lists that starts from them. -/
theorem initParse_represents {m : Malloc ρ} {load : LoadEnv ρ}
    (hhead : (sfTreeInit m).Represents load.head) (hload : forall k, load.line k = m.env k)
    {file : List Byte} {users : List ρ} (hparse : ShadowFs.initParse load file = .ok users)
    {rounds : Nat} (hrounds : load.head.length + (readLines 256 file).length < rounds) :
    exists sf, initParse rounds m file = some (.ok sf) ∧ sf.Represents users := by
  refine holds_parseLines hload ⟨hhead, by lia, ?_⟩ hrounds hparse
  rintro a ⟨l, _, ha⟩
  rw [ha]
  exact m.fresh l

/-!
## Traversals of the loaded list
-/

omit [UserRep ρ] in
theorem traverse_eq {β : Type} (visit : ρ -> List β) {heap : Heap ρ} {head : Option Nat}
    {cells : List (Nat × ρ)} (h : Linked heap head cells) {rounds : Nat}
    (hrounds : cells.length < rounds) :
    traverse visit heap rounds head = some ((cells.map Prod.snd).flatMap visit) := by
  induction cells generalizing head rounds with
  | nil =>
      cases rounds with
      | zero => cases hrounds
      | succ rounds =>
          cases h.chain
          rfl
  | cons e cells ih =>
      cases rounds with
      | zero => cases hrounds
      | succ rounds =>
          rcases h.tail with ⟨next, hhead, hcell, hrest⟩
          have hloop := ih hrest (Nat.lt_of_succ_lt_succ hrounds)
          simp [traverse, hhead, hcell, hloop]

/-- The traversals pass through exactly these records and end: a full one puts out
something for each of them in order, and `find_user` returns the first with the name. -/
structure Shows (sf : SfRoot ρ) (users : List User) : Prop where
  visits : forall rounds, users.length < rounds -> sf.visited rounds = some users
  readdir : forall rounds, users.length < rounds ->
    sf.shReaddir rounds = some ([CString.lit ".", CString.lit "..", CString.lit "sh_file"] ++
      users.map User.username)
  deparse : forall rounds, users.length < rounds ->
    sf.sfDeparse rounds = some (ShadowFs.sfDeparse users)
  find : forall name rounds, users.length < rounds -> exists found,
    sf.findUser rounds name = some found ∧
      (found.bind sf.heap).map (fun cell => toUser cell.value) =
        users.find? (fun u => u.username = name)

theorem find?_map_toUser (users : List ρ) (name : CString) :
    (users.map toUser).find? (fun u => u.username = name) =
      (findRecord users name).map toUser := by
  rw [findRecord_eq_find?, List.find?_map]
  rfl

theorem Represents.shows {sf : SfRoot ρ} {users : List ρ} (h : sf.Represents users) :
    sf.Shows (users.map toUser) := by
  rcases h with ⟨cells, hlinked, rfl⟩
  have hlength : forall {rounds}, ((cells.map Prod.snd).map toUser).length < rounds ->
      cells.length < rounds := by
    intro rounds hrounds
    simpa using hrounds
  constructor
  · intro rounds hrounds
    rw [visited, traverse_eq _ hlinked (hlength hrounds), ← List.map_eq_flatMap]
  · intro rounds hrounds
    have hnames : ((cells.map Prod.snd).map toUser).map User.username =
        (cells.map Prod.snd).map username := by
      rw [List.map_map]
      rfl
    rw [shReaddir, traverse_eq _ hlinked (hlength hrounds), ← List.map_eq_flatMap, hnames]
    rfl
  · intro rounds hrounds
    have htext : ShadowFs.sfDeparse ((cells.map Prod.snd).map toUser) =
        (cells.map Prod.snd).flatMap deparseUser := by
      rw [ShadowFs.sfDeparse, List.flatMap_map]
      rfl
    rw [sfDeparse, traverse_eq _ hlinked (hlength hrounds), htext]
  · intro name rounds hrounds
    rcases findFrom_cases hlinked name (hlength hrounds) with
      ⟨hnone, hfind⟩ | ⟨front, p, u, back, hsplit, hm, hfind⟩
    · refine ⟨none, hfind, ?_⟩
      rw [find?_map_toUser, findRecord, hnone]
      rfl
    · refine ⟨some p, hfind, ?_⟩
      rw [find?_map_toUser, hm.findRecord_eq]
      subst hsplit
      rcases hlinked.chain.split with ⟨_, _, _, next, hcell, _⟩
      rw [Option.bind_some, hcell]
      rfl

end SfRoot

end ShadowFs

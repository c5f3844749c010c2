import ShadowFs.Library.Blocks
import ShadowFs.Persist.Loader

/-!
# The blocks behind the user list

The functions of `shadowTree.h` once more, with an eye on the blocks they use.  In a
memory whose cells in use are those of the list and some lost ones, an update changes no
block, a new user takes the block `malloc` returned to the end of the list, a deleted user
gives its block back, and a name that is too long loses the block.
-/

namespace ShadowFs
namespace SfRoot

open CLib UserRep Library

variable {ρ : Type}

/-- The cells of the structure that are in use. -/
def Occupies (sf : SfRoot ρ) (cells : List (Nat × ρ)) (lost : List Nat) : Prop :=
  Occupied sf.heap sf.head cells lost

theorem assign_heap_none_iff (sf : SfRoot ρ) (addr a : Nat) (f : Cell ρ -> Cell ρ) :
    (sf.assign addr f).heap a = none <-> sf.heap a = none := by
  by_cases ha : a = addr
  · subst ha
    simp [assign, Heap.put_self]
  · simp [assign, Heap.put_of_ne _ ha]

theorem linkLast_heap_none_iff {sf sf' : SfRoot ρ} {rounds addr : Nat}
    (h : sf.linkLast rounds addr = some sf') (a : Nat) :
    sf'.heap a = none <-> sf.heap a = none := by
  unfold linkLast at h
  split at h
  · cases h
    exact Iff.rfl
  · split at h
    · cases h
    · cases h
      exact assign_heap_none_iff sf _ a (fun cell => ⟨cell.value, some addr⟩)

variable [UserRep ρ]

/-!
## Lookups
-/

/-- The record behind the pointer that `find_user` returns. -/
def recordOf (rounds : Nat) (sf : SfRoot ρ) (name : CString) : Option (Option ρ) :=
  match sf.findUser rounds name with
  | none => none
  | some none => some none
  | some (some current) =>
      match sf.heap current with
      | none => none
      | some cell => some (some cell.value)

section Occupies

variable {sf : SfRoot ρ} {cells : List (Nat × ρ)} {lost : List Nat}

theorem Occupies.findUser_cases (h : sf.Occupies cells lost) {rounds : Nat}
    (hrounds : cells.length < rounds) (name : CString) :
    (ShadowFs.findUser (cells.map Prod.snd) name = none ∧
        sf.findUser rounds name = some none) ∨
      (exists front p u back next, cells = front ++ (p, u) :: back ∧
        FirstMatch (cells.map Prod.snd) name (front.map Prod.snd) u (back.map Prod.snd) ∧
        sf.heap p = some ⟨u, next⟩ ∧ sf.findUser rounds name = some (some p)) := by
  rcases findFrom_cases h.linked name hrounds with
    ⟨hnone, hfind⟩ | ⟨front, p, u, back, hsplit, hm, hfind⟩
  · exact Or.inl ⟨hnone, hfind⟩
  · have hlinked := h.linked
    rw [hsplit] at hlinked
    rcases hlinked.chain.split with ⟨_, _, _, next, hcell, _⟩
    exact Or.inr ⟨front, p, u, back, next, hsplit, hm, hcell, hfind⟩

theorem Occupies.exists_found (h : sf.Occupies cells lost) {rounds : Nat}
    (hrounds : cells.length < rounds) (name : CString) :
    exists found, sf.findUser rounds name = some found ∧
      (found = none <-> ShadowFs.findUser (cells.map Prod.snd) name = none) := by
  rcases h.findUser_cases hrounds name with
    ⟨hnone, hfind⟩ | ⟨front, p, u, back, next, _, hm, _, hfind⟩
  · exact ⟨none, hfind, by simp [hnone]⟩
  · exact ⟨some p, hfind, by simp [hm.findUser_eq]⟩

theorem Occupies.recordOf_eq (h : sf.Occupies cells lost) {rounds : Nat}
    (hrounds : cells.length < rounds) (name : CString) :
    sf.recordOf rounds name = some (findRecord (cells.map Prod.snd) name) := by
  rcases h.findUser_cases hrounds name with
    ⟨hnone, hfind⟩ | ⟨front, p, u, back, next, _, hm, hcell, hfind⟩
  · rw [findRecord_of_none hnone]
    simp only [recordOf, hfind]
  · rw [hm.findRecord_eq]
    simp only [recordOf, hfind, hcell]

omit [UserRep ρ] in
theorem Occupies.traverse_eq {β : Type} (h : sf.Occupies cells lost) {rounds : Nat}
    (hrounds : cells.length < rounds) (visit : ρ -> List β) :
    traverse visit sf.heap rounds sf.head = some ((cells.map Prod.snd).flatMap visit) :=
  SfRoot.traverse_eq visit h.linked hrounds

/-!
## Updates
-/

omit [UserRep ρ] in
theorem Occupies.assign {front back : List (Nat × ρ)} {p : Nat} {u : ρ}
    {next : Option Nat} (h : sf.Occupies (front ++ (p, u) :: back) lost)
    (hcell : sf.heap p = some ⟨u, next⟩) (f : ρ -> ρ) :
    (sf.assign p (fun cell => ⟨f cell.value, cell.next⟩)).Occupies
      (front ++ (p, f u) :: back) lost := by
  have hlinked := h.linked.assign hcell (f u)
  refine Occupied.same h ?_ (by simp) (fun a => assign_heap_none_iff sf p a _)
  simp only [SfRoot.assign, hcell, Option.map_some]
  exact hlinked

theorem Occupies.updateField (h : sf.Occupies cells lost) {rounds : Nat}
    (hrounds : cells.length < rounds) (name : CString) (f : ρ -> ρ) :
    exists sf' cells', sf.updateField rounds name f =
        some ((ShadowFs.updateField (cells.map Prod.snd) name f).1, sf') ∧
      sf'.Occupies cells' lost ∧
      cells'.map Prod.snd = (ShadowFs.updateField (cells.map Prod.snd) name f).2 ∧
      cells'.length = cells.length := by
  rcases h.findUser_cases hrounds name with
    ⟨hnone, hfind⟩ | ⟨front, p, u, back, next, hsplit, hm, hcell, hfind⟩
  · rw [updateField_of_none hnone]
    exact ⟨sf, cells, by simp only [SfRoot.updateField, hfind], h, rfl, rfl⟩
  · rw [hm.updateField_eq]
    subst hsplit
    refine ⟨_, _, ?_, h.assign hcell f, by simp, by simp⟩
    simp only [SfRoot.updateField, hfind, SfRoot.assign]

/-!
## Adding
-/

theorem Occupies.addUser (h : sf.Occupies cells lost) {rounds : Nat}
    (hrounds : cells.length < rounds) (env : Env ρ) {addr : Nat}
    (hfresh : sf.heap addr = none) (link : Option Nat) (name : CString) :
    exists sf' cells', sf.addUser rounds env addr link name =
        some ((ShadowFs.sfTreeAddUser env (cells.map Prod.snd) name).1, sf') ∧
      sf'.Occupies cells' (lost ++
        if ShadowFs.findUser (cells.map Prod.snd) name = none ∧ env.block ≠ none ∧
          name.length > 16 then [addr] else []) ∧
      cells'.map Prod.snd = (ShadowFs.sfTreeAddUser env (cells.map Prod.snd) name).2 ∧
      cells'.length ≤ cells.length + 1 := by
  rcases h.findUser_cases hrounds name with
    ⟨hnone, hfind⟩ | ⟨front, p, u, back, next, hsplit, hm, hcell, hfind⟩
  · cases hblock : env.block with
    | none =>
        refine ⟨sf, cells, ?_, ?_, ?_, Nat.le_succ _⟩
        · simp [SfRoot.addUser, hfind, hblock, ShadowFs.sfTreeAddUser, hnone]
        · simpa using h
        · simp [ShadowFs.sfTreeAddUser, hnone, hblock]
    | some u =>
        by_cases hlen : name.length > 16
        · -- the block is left behind
          refine ⟨{ sf with heap := sf.heap.put addr (some ⟨u, link⟩) }, cells, ?_, ?_, ?_,
            Nat.le_succ _⟩
          · simp [SfRoot.addUser, hfind, hblock, hlen, ShadowFs.sfTreeAddUser, hnone]
          · rw [if_pos ⟨hnone, Option.some_ne_none u, hlen⟩]
            exact Occupied.lose h hfresh ⟨u, link⟩
          · simp [ShadowFs.sfTreeAddUser, hnone, hblock, hlen]
        · have hfits : name.length ≤ 16 := Nat.not_lt.mp hlen
          let sf₁ : SfRoot ρ :=
            ⟨sf.head, sf.heap.put addr (some ⟨initUser env name u, none⟩)⟩
          have hnot := not_mem_of_fresh h.linked hfresh
          have hput : Linked sf₁.heap sf₁.head cells := linked_put_fresh h.linked hfresh _
          rcases linkLast_linked hput hnot (sf.heap.put_self _ _) hrounds with
            ⟨sf', hlink, hlinked⟩
          refine ⟨sf', cells ++ [(addr, initUser env name u)], ?_, ?_, ?_, by simp⟩
          · rw [addUser_eq hfits, sfTreeAddUser_of_new hnone hblock hfits]
            simp only [SfRoot.sfTreeAddUser, hfind, hblock, if_neg hlen]
            exact congrArg (Option.map (fun sf => (0, sf))) hlink
          · rw [if_neg (fun hlost => hlen hlost.2.2), List.append_nil]
            refine Occupied.snoc h hfresh hlinked ?_
            intro a
            rw [linkLast_heap_none_iff hlink a]
            by_cases ha : a = addr
            · subst ha
              simp [sf₁, Heap.put_self]
            · simp [sf₁, Heap.put_of_ne _ ha, ha]
          · rw [sfTreeAddUser_of_new hnone hblock hfits]
            simp
  · have hfound := hm.ne_none
    refine ⟨sf, cells, ?_, ?_, ?_, Nat.le_succ _⟩
    · rw [sfTreeAddUser_of_found env hfound]
      simp only [SfRoot.addUser, hfind]
    · rw [if_neg (fun hlost => hfound hlost.1), List.append_nil]
      exact h
    · rw [sfTreeAddUser_of_found env hfound]

/-!
## Deleting
-/

/-- The loop, started at a record before the match, bypasses the match and frees it. -/
theorem unlinkFrom_match {heap : Heap ρ} {name : CString} {d : Nat} {v : ρ}
    {front back : List (Nat × ρ)} {p : Nat} {u : ρ} (before : List (Nat × ρ))
    {head : Option Nat} (h : Linked heap head (before ++ (d, v) :: (front ++ (p, u) :: back)))
    (hfound : username u = name) (hfirst : forall e, e ∈ front -> username e.2 ≠ name)
    {rounds : Nat} (hrounds : front.length < rounds) :
    exists heap', unlinkFrom heap name rounds d = some (0, heap') ∧
      Linked heap' head (before ++ (d, v) :: (front ++ back)) ∧
      forall a, heap' a = none <-> heap a = none ∨ a = p := by
  induction front generalizing before d v rounds with
  | nil =>
      cases rounds with
      | zero => cases hrounds
      | succ rounds =>
          rcases h.chain.split with ⟨_, _, _, next, hcell, hnext, next', hcell', _⟩
          cases hnext
          have hgone := h.unlink hcell'
          refine ⟨_, by simp [unlinkFrom, hcell, hcell', hfound], hgone, ?_⟩
          intro a
          by_cases hp : a = p
          · subst hp
            simp [Heap.put_self]
          · rw [Heap.put_of_ne _ hp]
            by_cases hd : a = d
            · subst hd
              simp [Heap.put_self, hcell, hp]
            · simp [Heap.put_of_ne _ hd, hp]
  | cons e front ih =>
      cases rounds with
      | zero => cases hrounds
      | succ rounds =>
          rcases e with ⟨q, w⟩
          rcases h.chain.split with ⟨_, _, _, next, hcell, hnext, next', hcell', _⟩
          cases hnext
          have hw : username w ≠ name := hfirst (q, w) List.mem_cons_self
          have hmove : before ++ (d, v) :: ((q, w) :: front ++ (p, u) :: back) =
              (before ++ [(d, v)]) ++ (q, w) :: (front ++ (p, u) :: back) := by
            simp
          rw [hmove] at h
          rcases ih (before ++ [(d, v)]) h (fun e he => hfirst e (List.mem_cons_of_mem _ he))
            (Nat.lt_of_succ_lt_succ hrounds) with ⟨heap', hloop, hlinked, hlive⟩
          refine ⟨heap', ?_, by simpa using hlinked, hlive⟩
          simpa [unlinkFrom, hcell, hcell', hw] using hloop

theorem Occupies.sfTreeDeleteUser (h : sf.Occupies cells lost) {rounds : Nat}
    (hrounds : cells.length < rounds) {name : CString} {front back : List (Nat × ρ)}
    {p : Nat} {u : ρ} (hsplit : cells = front ++ (p, u) :: back)
    (hfound : username u = name) (hfirst : forall e, e ∈ front -> username e.2 ≠ name) :
    exists sf', sf.sfTreeDeleteUser rounds name = some (0, sf') ∧
      sf'.Occupies (front ++ back) lost := by
  subst hsplit
  cases front with
  | nil =>
      rcases h.linked.tail with ⟨next, hhead, hcell, hrest⟩
      refine ⟨⟨next, sf.heap.put p none⟩, ?_, ?_⟩
      · simp [SfRoot.sfTreeDeleteUser, hhead, hcell, hfound]
      · refine Occupied.remove h ?_ ?_
        · exact ⟨hrest.chain.put_of_not_mem h.linked.of_nodup _, hrest.nodup⟩
        · intro a
          by_cases hp : a = p
          · subst hp
            simp [Heap.put_self]
          · simp [Heap.put_of_ne _ hp, hp]
  | cons e front =>
      rcases e with ⟨del, v⟩
      rcases h.linked.tail with ⟨next, hhead, hcell, _⟩
      have hv : username v ≠ name := hfirst (del, v) List.mem_cons_self
      have hlength : front.length < rounds := by
        simp only [List.length_append, List.length_cons] at hrounds
        lia
      rcases unlinkFrom_match [] h.linked hfound
        (fun e he => hfirst e (List.mem_cons_of_mem _ he)) hlength with
        ⟨heap', hloop, hlinked, hlive⟩
      refine ⟨{ sf with heap := heap' }, ?_, Occupied.remove h hlinked hlive⟩
      simp [SfRoot.sfTreeDeleteUser, hhead, hcell, hv, hloop]

end Occupies

/-!
## Users in memory
-/

/-- The structure holds the given users, and the blocks in use are theirs and the lost ones. -/
def Stores (sf : SfRoot ρ) (users : List ρ) (lost : List Nat) : Prop :=
  exists cells, sf.Occupies cells lost ∧ cells.map Prod.snd = users

section Stores

variable {sf : SfRoot ρ} {users : List ρ} {lost : List Nat}

omit [UserRep ρ] in
theorem Stores.represents (h : sf.Stores users lost) : sf.Represents users := by
  rcases h with ⟨cells, hcells, husers⟩
  exact ⟨cells, hcells.linked, husers⟩

theorem Stores.exists_found (h : sf.Stores users lost) {rounds : Nat}
    (hrounds : users.length < rounds) (name : CString) :
    exists found, sf.findUser rounds name = some found ∧
      (found = none <-> ShadowFs.findUser users name = none) := by
  rcases h with ⟨cells, hcells, rfl⟩
  rw [List.length_map] at hrounds
  exact hcells.exists_found hrounds name

theorem Stores.recordOf_eq (h : sf.Stores users lost) {rounds : Nat}
    (hrounds : users.length < rounds) (name : CString) :
    sf.recordOf rounds name = some (findRecord users name) := by
  rcases h with ⟨cells, hcells, rfl⟩
  rw [List.length_map] at hrounds
  exact hcells.recordOf_eq hrounds name

omit [UserRep ρ] in
theorem Stores.traverse_eq {β : Type} (h : sf.Stores users lost) {rounds : Nat}
    (hrounds : users.length < rounds) (visit : ρ -> List β) :
    traverse visit sf.heap rounds sf.head = some (users.flatMap visit) := by
  rcases h with ⟨cells, hcells, rfl⟩
  rw [List.length_map] at hrounds
  exact hcells.traverse_eq hrounds visit

theorem Stores.updateField (h : sf.Stores users lost) {rounds : Nat}
    (hrounds : users.length < rounds) (name : CString) (f : ρ -> ρ) :
    exists sf', sf.updateField rounds name f =
        some ((ShadowFs.updateField users name f).1, sf') ∧
      sf'.Stores (ShadowFs.updateField users name f).2 lost := by
  rcases h with ⟨cells, hcells, rfl⟩
  rw [List.length_map] at hrounds
  rcases hcells.updateField hrounds name f with ⟨sf', cells', hupdate, hcells', husers, _⟩
  exact ⟨sf', hupdate, cells', hcells', husers⟩

theorem Stores.updateHash (h : sf.Stores users lost) {rounds : Nat}
    (hrounds : users.length < rounds) (name : CString) {newhash : CString}
    (hlen : newhash.length ≤ 32) :
    exists sf', sf.updateHash rounds name newhash =
        some ((ShadowFs.updateHash users name newhash).1, sf') ∧
      sf'.Stores (ShadowFs.updateHash users name newhash).2 lost := by
  rw [updateHash_eq hlen, updateHash_eq_updateField users name hlen]
  exact h.updateField hrounds name _

theorem Stores.assign (h : sf.Stores users lost) {rounds : Nat}
    (hrounds : users.length < rounds) {name : CString} {current : Nat}
    (hfind : sf.findUser rounds name = some (some current)) (f : ρ -> ρ) :
    (sf.assign current (fun cell => ⟨f cell.value, cell.next⟩)).Stores
      (ShadowFs.updateField users name f).2 lost := by
  rcases h.updateField hrounds name f with ⟨sf', hupdate, hstores⟩
  simp only [SfRoot.updateField, hfind, Option.some.injEq, Prod.mk.injEq] at hupdate
  rw [← hupdate.2] at hstores
  exact hstores

/-- The block that `sf_tree_add_user` leaves behind for a name that is too long. -/
def lostBlock (env : Env ρ) (users : List ρ) (name : CString) (addr : Nat) : List Nat :=
  if ShadowFs.findUser users name = none ∧ env.block ≠ none ∧ name.length > 16 then [addr]
  else []

theorem Stores.addUser (h : sf.Stores users lost) {rounds : Nat}
    (hrounds : users.length < rounds) (env : Env ρ) {addr : Nat}
    (hfresh : sf.heap addr = none) (link : Option Nat) (name : CString) :
    exists sf', sf.addUser rounds env addr link name =
        some ((ShadowFs.sfTreeAddUser env users name).1, sf') ∧
      sf'.Stores (ShadowFs.sfTreeAddUser env users name).2
        (lost ++ lostBlock env users name addr) := by
  rcases h with ⟨cells, hcells, rfl⟩
  rw [List.length_map] at hrounds
  rcases hcells.addUser hrounds env hfresh link name with
    ⟨sf', cells', hadd, hcells', husers, _⟩
  exact ⟨sf', hadd, cells', hcells', husers⟩

theorem Stores.sfTreeDeleteUser (h : sf.Stores users lost) {rounds : Nat}
    (hrounds : users.length < rounds) {name : CString} {front back : List ρ} {u : ρ}
    (hm : FirstMatch users name front u back) :
    exists sf', sf.sfTreeDeleteUser rounds name = some (0, sf') ∧
      sf'.Stores (front ++ back) lost := by
  rcases h with ⟨cells, hcells, rfl⟩
  rw [List.length_map] at hrounds
  rcases List.map_eq_append_iff.mp hm.split with ⟨front', rest', hsplit, hfront, hrest⟩
  rcases List.map_eq_cons_iff.mp hrest with ⟨e, back', hrest', hu, hback⟩
  have hfirst : forall e, e ∈ front' -> username e.2 ≠ name := by
    intro e he
    have hmem := List.mem_map_of_mem he (f := Prod.snd)
    rw [hfront] at hmem
    exact hm.first e.2 hmem
  have hfound : username e.2 = name := by
    rw [hu]
    exact hm.found
  rw [hrest'] at hsplit
  rcases hcells.sfTreeDeleteUser hrounds hsplit hfound hfirst with ⟨sf', hdelete, hcells'⟩
  refine ⟨sf', hdelete, front' ++ back', hcells', ?_⟩
  rw [List.map_append, hfront, hback]

end Stores

/-!
## Loading
-/

section Loading

variable {sf : SfRoot ρ} {users : List ρ} {lost : List Nat} {rounds : Nat}

theorem Stores.parseDays (h : sf.Stores users lost) (hrounds : users.length < rounds)
    (user : CString) (s : List Byte) :
    exists sf', sf.parseDays rounds user s = some sf' ∧
      sf'.Stores (ShadowFs.parseDays users user s) lost := by
  have hsame : forall {users : List ρ} (f : ρ -> ρ), users.length < rounds ->
      (ShadowFs.updateField users user f).2.length < rounds := by
    intro users f hlen
    rw [length_updateField]
    exact hlen
  have hrounds1 := hsame (setDay .dsc (nextInt s).1) hrounds
  have hrounds2 := hsame (setDay .dcc (nextInt (nextInt s).2).1) hrounds1
  have hrounds3 := hsame (setDay .dmc (nextInt (nextInt (nextInt s).2).2).1) hrounds2
  have hrounds4 := hsame
    (setDay .dw (nextInt (nextInt (nextInt (nextInt s).2).2).2).1) hrounds3
  have hrounds5 := hsame
    (setDay .de (nextInt (nextInt (nextInt (nextInt (nextInt s).2).2).2).2).1) hrounds4
  rcases h.updateField hrounds user (setDay .dsc (nextInt s).1) with ⟨sf1, h1, hold1⟩
  rcases hold1.updateField hrounds1 user (setDay .dcc (nextInt (nextInt s).2).1) with
    ⟨sf2, h2, hold2⟩
  rcases hold2.updateField hrounds2 user
    (setDay .dmc (nextInt (nextInt (nextInt s).2).2).1) with ⟨sf3, h3, hold3⟩
  rcases hold3.updateField hrounds3 user
    (setDay .dw (nextInt (nextInt (nextInt (nextInt s).2).2).2).1) with ⟨sf4, h4, hold4⟩
  rcases hold4.updateField hrounds4 user
    (setDay .de (nextInt (nextInt (nextInt (nextInt (nextInt s).2).2).2).2).1) with
    ⟨sf5, h5, hold5⟩
  rcases hold5.updateField hrounds5 user
    (setDay .dd (nextInt (nextInt (nextInt (nextInt (nextInt (nextInt s).2).2).2).2).2).1) with
    ⟨sf6, h6, hold6⟩
  refine ⟨sf6, ?_, hold6⟩
  simp only [SfRoot.parseDays, h1, h2, h3, h4, h5, h6, Option.bind_eq_bind, Option.bind_some]

theorem Stores.parseLine (h : sf.Stores users lost) (hrounds : users.length + 1 < rounds)
    {env : Env ρ} {addr : Nat} (hfresh : sf.heap addr = none) (link : Option Nat)
    {line : List Byte} {outcome : LineOutcome ρ}
    (hline : ShadowFs.parseLine env users line = .ok outcome) :
    exists sf', sf.parseLine rounds env addr link line = some (.ok (.next sf')) ∧
      sf'.Stores outcome.list lost := by
  have hnext := parseLine_next hline
  cases parseLine_effect hline with
  | noName _ _ _ => cases hnext
  | noHash _ _ _ _ _ _ => cases hnext
  | record huserTok huserLen huser hhashTok hhashLen hhash =>
      rename_i userToken rest hashToken rest'
      have hfitUser : ¬ userToken.length ≥ 16 := Nat.not_le.mpr huserLen
      have hfitHash : ¬ hashToken.length ≥ 33 := Nat.not_le.mpr hhashLen
      have hname : (CString.ofBytes userToken).length ≤ 16 :=
        (CString.ofBytes_length_le userToken).trans (Nat.le_of_lt huserLen)
      have hpass : (CString.ofBytes hashToken).length ≤ 32 :=
        (CString.ofBytes_length_le hashToken).trans (Nat.le_of_lt_succ hhashLen)
      rcases h.addUser (Nat.lt_of_succ_lt hrounds) env hfresh link
        (CString.ofBytes userToken) with ⟨sf1, hadd, h1⟩
      rw [lostBlock, if_neg (fun hlost => absurd hlost.2.2 (Nat.not_lt.mpr hname)),
        List.append_nil] at h1
      have hgrowth := length_sfTreeAddUser_le env users (CString.ofBytes userToken)
      have hrounds1 := Nat.lt_of_le_of_lt hgrowth hrounds
      rcases h1.updateHash hrounds1 (CString.ofBytes userToken) hpass with
        ⟨sf2, hupdate, h2⟩
      have hrounds2 : (ShadowFs.updateHash (ShadowFs.sfTreeAddUser env users
          (CString.ofBytes userToken)).2 (CString.ofBytes userToken)
          (CString.ofBytes hashToken)).2.length < rounds := by
        rw [updateHash_eq_updateField _ _ hpass, length_updateField]
        exact hrounds1
      rcases h2.parseDays hrounds2 (CString.ofBytes userToken) rest' with ⟨sf3, hdays, h3⟩
      refine ⟨sf3, ?_, h3⟩
      simp only [SfRoot.parseLine, huserTok, if_neg hfitUser, if_neg huser, hadd, hhashTok,
        if_neg hfitHash, if_neg hhash, hupdate, hdays, Option.map_some]

end Loading

/-- The run: the blocks in use after loading are those of the users. -/
theorem stores_parseLines {rounds : Nat} {m : Malloc ρ} {lines : List (List Byte)} {k : Nat}
    {sf : SfRoot ρ} {users users' : List ρ} {lost : List Nat} {load : LoadEnv ρ}
    (hload : forall l, load.line l = m.env l)
    (h : Holds rounds (fun a => exists l, k ≤ l ∧ a = m.addr l) sf users)
    (hstores : sf.Stores users lost) (hrounds : users.length + lines.length < rounds)
    (hlines : ShadowFs.parseLines load k lines users = .ok users') :
    exists sf', parseLines rounds m k lines sf = some (.ok sf') ∧ sf'.Stores users' lost := by
  induction lines generalizing k sf users with
  | nil =>
      cases hlines
      exact ⟨sf, rfl, hstores⟩
  | cons line lines ih =>
      rw [List.length_cons] at hrounds
      rcases parseLines_cons_ok hlines with ⟨outcome, hline, hrest⟩
      rw [hload k] at hline
      have hgrowth := length_parseLine_le hline
      have haddr : exists l, k ≤ l ∧ m.addr k = m.addr l := ⟨k, Nat.le_refl k, rfl⟩
      have hroom : users.length + 1 < rounds := by lia
      rcases holds_parseLine h hroom haddr (m.block k).next hline with ⟨sf1, hparse, hold⟩
      rcases hstores.parseLine hroom (h.free _ haddr) (m.block k).next hline with
        ⟨sf2, hparse', hstores'⟩
      have hsame : sf1 = sf2 := by
        rw [hparse] at hparse'
        cases hparse'
        rfl
      subst hsame
      have hnext : Holds rounds (fun a => exists l, k + 1 ≤ l ∧ a = m.addr l) sf1
          outcome.list := by
        refine ⟨hold.represents, hold.rounds, ?_⟩
        rintro a ⟨l, hl, ha⟩
        refine hold.free a ⟨⟨l, Nat.le_of_succ_le hl, ha⟩, ?_⟩
        intro hsame
        have hkl := m.apart l k (ha.symm.trans hsame)
        lia
      rcases ih hnext hstores' (by lia) hrest with ⟨sf', hloop, hsf'⟩
      refine ⟨sf', ?_, hsf'⟩
      rw [parseLines, hparse]
      exact hloop

theorem stores_initParse {m : Malloc ρ} (hhead : m.head = none)
    (hheap : m.heap = fun _ => none) {load : LoadEnv ρ} (hnil : load.head = [])
    (hload : forall k, load.line k = m.env k) {file : List Byte} {users : List ρ}
    (hparse : ShadowFs.initParse load file = .ok users) {rounds : Nat}
    (hrounds : (readLines 256 file).length < rounds) :
    exists sf, initParse rounds m file = some (.ok sf) ∧ sf.Stores users [] := by
  have hempty : (sfTreeInit m).Occupies [] [] :=
    { linked := ⟨hhead, List.nodup_nil⟩
      live := by simp [sfTreeInit, hheap]
      apart := by simp }
  have hstart : (sfTreeInit m).Stores (ShadowFs.sfTreeInit load) [] := by
    rw [ShadowFs.sfTreeInit, hnil]
    exact ⟨[], hempty, rfl⟩
  have hlength : (ShadowFs.sfTreeInit load).length = 0 := by
    rw [ShadowFs.sfTreeInit, hnil]
    rfl
  refine stores_parseLines hload ⟨hstart.represents, by lia, ?_⟩ hstart (by lia) hparse
  rintro a ⟨l, _, ha⟩
  rw [ha]
  exact m.fresh l

/-!
## Destroying
-/

/-- The records are freed; the block of the root, which holds no record, is freed last. -/
def sfTreeDestroy (rounds : Nat) (sf : SfRoot ρ) : Option (Heap ρ) :=
  freeFrom sf.heap rounds sf.head

omit [UserRep ρ] in
theorem Stores.sfTreeDestroy {sf : SfRoot ρ} {users : List ρ} {lost : List Nat}
    (h : sf.Stores users lost) {rounds : Nat} (hrounds : users.length < rounds) :
    exists heap, sf.sfTreeDestroy rounds = some heap ∧
      forall a, heap a ≠ none <-> a ∈ lost := by
  rcases h with ⟨cells, hcells, rfl⟩
  rw [List.length_map] at hrounds
  exact Occupied.freeFrom hcells hrounds

end SfRoot
end ShadowFs

import ShadowFs.Library.Links
import ShadowFs.Tree.Users

/-!
# The user list in memory

The functions of `shadowTree.h` on the linked structure itself: `sf->head` points
to the first record and each record to the next one.  The loops take a number of
rounds; `none` stands for a loop that is still running or has followed a pointer
to no record.  On a structure that represents a list of users, and with more
rounds than users, each function returns and does to the structure what the
function of the same name in `ShadowFs.Tree.Users` does to the list.
-/

namespace ShadowFs

open CLib UserRep Library

structure SfRoot (ρ : Type) where
  head : Option Nat
  heap : Heap ρ

namespace SfRoot

variable {ρ : Type} [UserRep ρ]

/-- The loop of `find_user` from a given record on. -/
def findFrom (heap : Heap ρ) (name : CString) : Nat -> Option Nat -> Option (Option Nat)
  | 0, _ => none
  | _ + 1, none => some none
  | rounds + 1, some current =>
      match heap current with
      | none => none
      | some cell =>
          if username cell.value = name then some (some current)
          else findFrom heap name rounds cell.next

def findUser (rounds : Nat) (sf : SfRoot ρ) (name : CString) : Option (Option Nat) :=
  findFrom sf.heap name rounds sf.head

/-- `while(temp->next) temp = temp->next;` -/
def lastFrom (heap : Heap ρ) : Nat -> Nat -> Option Nat
  | 0, _ => none
  | rounds + 1, temp =>
      match heap temp with
      | none => none
      | some cell =>
          match cell.next with
          | none => some temp
          | some next => lastFrom heap rounds next

/-- The end of `sf_tree_add_user`: the new record becomes the last one. -/
def linkLast (rounds : Nat) (sf : SfRoot ρ) (addr : Nat) : Option (SfRoot ρ) :=
  match sf.head with
  | none => some { sf with head := some addr }
  | some first =>
      match lastFrom sf.heap rounds first with
      | none => none
      | some temp =>
          some { sf with
            heap := sf.heap.put temp
              ((sf.heap temp).map (fun cell => ⟨cell.value, some addr⟩)) }

/-- `addr` is the address of the block that `malloc` returns.  A name that is too
long leaves the block allocated and unlinked. -/
def sfTreeAddUser (rounds : Nat) (env : Env ρ) (addr : Nat) (sf : SfRoot ρ)
    (name : CString) : Option (Int × SfRoot ρ) :=
  match sf.findUser rounds name with
  | none => none
  | some (some _) => some (-3, sf)
  | some none =>
      match env.block with
      | none => some (-1, sf)
      | some u =>
          if name.length > 16 then
            some (-2, { sf with heap := sf.heap.put addr (some ⟨u, none⟩) })
          else
            let heap := sf.heap.put addr (some ⟨initUser env name u, none⟩)
            (linkLast rounds { sf with heap := heap } addr).map (fun sf => (0, sf))

def unlinkFrom (heap : Heap ρ) (name : CString) : Nat -> Nat -> Option (Int × Heap ρ)
  | 0, _ => none
  | rounds + 1, del =>
      match heap del with
      | none => none
      | some cell =>
          match cell.next with
          | none => some (-1, heap)
          | some temp =>
              match heap temp with
              | none => none
              | some victim =>
                  if username victim.value = name then
                    some (0, (heap.put del (some ⟨cell.value, victim.next⟩)).put temp none)
                  else unlinkFrom heap name rounds temp

/-- The head is dereferenced first: on an empty list nothing is returned. -/
def sfTreeDeleteUser (rounds : Nat) (sf : SfRoot ρ) (name : CString) :
    Option (Int × SfRoot ρ) :=
  match sf.head with
  | none => none
  | some del =>
      match sf.heap del with
      | none => none
      | some cell =>
          if username cell.value = name then
            some (0, { head := cell.next, heap := sf.heap.put del none })
          else
            match unlinkFrom sf.heap name rounds del with
            | none => none
            | some res => some (res.1, { sf with heap := res.2 })

/-- The common body of the `update_*` functions: find the user, assign. -/
def updateField (rounds : Nat) (sf : SfRoot ρ) (name : CString) (assign : ρ -> ρ) :
    Option (Int × SfRoot ρ) :=
  match sf.findUser rounds name with
  | none => none
  | some none => some (-1, sf)
  | some (some cuser) =>
      some (0, { sf with
        heap := sf.heap.put cuser
          ((sf.heap cuser).map (fun cell => ⟨assign cell.value, cell.next⟩)) })

/-- The structure is a linked list of the given users. -/
def Represents (sf : SfRoot ρ) (users : List ρ) : Prop :=
  exists cells, Linked sf.heap sf.head cells ∧ cells.map Prod.snd = users

/-!
## Looking up
-/

/-- The loop ends at the first match or at the null pointer. -/
theorem findFrom_cases {heap : Heap ρ} {head : Option Nat} {cells : List (Nat × ρ)}
    (h : Linked heap head cells) (name : CString) {rounds : Nat}
    (hrounds : cells.length < rounds) :
    (ShadowFs.findUser (cells.map Prod.snd) name = none ∧
        findFrom heap name rounds head = some none) ∨
      (exists front p u back, cells = front ++ (p, u) :: back ∧
        FirstMatch (cells.map Prod.snd) name (front.map Prod.snd) u (back.map Prod.snd) ∧
        findFrom heap name rounds head = some (some p)) := by
  induction cells generalizing head rounds with
  | nil =>
      cases rounds with
      | zero => cases hrounds
      | succ rounds =>
          cases h.chain
          exact Or.inl ⟨rfl, rfl⟩
  | cons e cells ih =>
      rcases e with ⟨p, u⟩
      cases rounds with
      | zero => cases hrounds
      | succ rounds =>
          rcases h.tail with ⟨next, hhead, hcell, hrest⟩
          by_cases hu : username u = name
          · refine Or.inr ⟨[], p, u, cells, rfl, ⟨rfl, hu, by simp⟩, ?_⟩
            simp [findFrom, hhead, hcell, hu]
          · have hstep : findFrom heap name (rounds + 1) head =
                findFrom heap name rounds next := by
              simp [findFrom, hhead, hcell, hu]
            rw [hstep]
            rcases ih hrest (Nat.lt_of_succ_lt_succ hrounds) with
              ⟨hnone, hfind⟩ | ⟨front, q, v, back, hsplit, hm, hfind⟩
            · refine Or.inl ⟨?_, hfind⟩
              rw [findUser_eq_none_iff] at hnone ⊢
              intro x hx
              cases hx with
              | head => exact hu
              | tail _ hmem => exact hnone x hmem
            · refine Or.inr ⟨(p, u) :: front, q, v, back, by rw [hsplit]; rfl, ?_, hfind⟩
              constructor
              · rw [List.map_cons, hm.split]
                rfl
              · exact hm.found
              · intro x hx
                cases hx with
                | head => exact hu
                | tail _ hmem => exact hm.first x hmem

/-!
## Adding
-/

omit [UserRep ρ] in
theorem lastFrom_eq {heap : Heap ρ} {first p : Nat} {v : ρ} {front : List (Nat × ρ)}
    (h : Linked heap (some first) (front ++ [(p, v)])) {rounds : Nat}
    (hrounds : front.length < rounds) : lastFrom heap rounds first = some p := by
  induction front generalizing first rounds with
  | nil =>
      cases rounds with
      | zero => cases hrounds
      | succ rounds =>
          rcases h.chain with ⟨hfirst, next, hcell, hnext⟩
          cases hfirst
          cases hnext
          simp [lastFrom, hcell]
  | cons e front ih =>
      cases rounds with
      | zero => cases hrounds
      | succ rounds =>
          rcases h.tail with ⟨next, hfirst, hcell, hrest⟩
          cases hfirst
          cases next with
          | none =>
              -- The last record is still to come, so the link is not null.
              cases front with
              | nil => cases hrest.chain.1
              | cons _ _ => cases hrest.chain.1
          | some q =>
              have hlast := ih hrest (Nat.lt_of_succ_lt_succ hrounds)
              simp [lastFrom, hcell, hlast]

omit [UserRep ρ] in
theorem not_mem_of_fresh {heap : Heap ρ} {head : Option Nat} {cells : List (Nat × ρ)}
    (h : Linked heap head cells) {addr : Nat} (hfresh : heap addr = none) :
    addr ∉ cells.map Prod.fst :=
  fun hmem => h.chain.mem_allocated hmem hfresh

omit [UserRep ρ] in
theorem linked_put_fresh {heap : Heap ρ} {head : Option Nat} {cells : List (Nat × ρ)}
    (h : Linked heap head cells) {addr : Nat} (hfresh : heap addr = none)
    (c : Option (Cell ρ)) : Linked (heap.put addr c) head cells :=
  ⟨h.chain.put_of_not_mem (not_mem_of_fresh h hfresh) c, h.nodup⟩

omit [UserRep ρ] in
theorem linkLast_linked {sf : SfRoot ρ} {cells : List (Nat × ρ)} {addr : Nat} {u : ρ}
    (h : Linked sf.heap sf.head cells) (hnew : addr ∉ cells.map Prod.fst)
    (hcell : sf.heap addr = some ⟨u, none⟩) {rounds : Nat}
    (hrounds : cells.length < rounds) :
    exists sf', sf.linkLast rounds addr = some sf' ∧
      Linked sf'.heap sf'.head (cells ++ [(addr, u)]) := by
  rcases List.eq_nil_or_concat cells with hnil | ⟨front, last, hlast⟩
  · subst hnil
    have hhead : sf.head = none := h.chain
    refine ⟨{ sf with head := some addr }, by simp [linkLast, hhead], ?_⟩
    exact ⟨⟨rfl, none, hcell, rfl⟩, by simp⟩
  · rcases last with ⟨p, v⟩
    rw [List.concat_eq_append] at hlast
    subst hlast
    obtain ⟨first, hhead⟩ : exists first, sf.head = some first := by
      cases front with
      | nil => exact ⟨_, h.chain.1⟩
      | cons _ _ => exact ⟨_, h.chain.1⟩
    rcases h.chain.split with ⟨_, _, _, next, hlastCell, _⟩
    rw [List.length_append, List.length_singleton] at hrounds
    have hfirst := h
    rw [hhead] at hfirst
    have hwalk := lastFrom_eq hfirst (Nat.lt_of_succ_lt hrounds)
    refine ⟨{ sf with heap := sf.heap.put p (some ⟨v, some addr⟩) }, ?_,
      h.snoc hnew hcell⟩
    simp [linkLast, hhead, hwalk, hlastCell]

theorem sfTreeAddUser_represents {sf : SfRoot ρ} {users : List ρ}
    (h : sf.Represents users) {rounds : Nat} (hrounds : users.length < rounds)
    (env : Env ρ) {addr : Nat} (hfresh : sf.heap addr = none) (name : CString) :
    exists sf', sf.sfTreeAddUser rounds env addr name =
        some ((ShadowFs.sfTreeAddUser env users name).1, sf') ∧
      sf'.Represents (ShadowFs.sfTreeAddUser env users name).2 := by
  rcases h with ⟨cells, hlinked, rfl⟩
  have hrounds' : cells.length < rounds := by simpa using hrounds
  rcases findFrom_cases hlinked name hrounds' with
    ⟨hnone, hfind⟩ | ⟨front, p, u, back, hsplit, hm, hfind⟩
  · cases hblock : env.block with
    | none =>
        refine ⟨sf, ?_, cells, hlinked, ?_⟩
        · simp [sfTreeAddUser, findUser, hfind, hblock, ShadowFs.sfTreeAddUser, hnone]
        · simp [hblock, ShadowFs.sfTreeAddUser, hnone]
    | some u =>
        by_cases hlen : name.length > 16
        · refine ⟨{ sf with heap := sf.heap.put addr (some ⟨u, none⟩) }, ?_, cells,
            linked_put_fresh hlinked hfresh _, ?_⟩
          · simp [sfTreeAddUser, findUser, hfind, hblock, hlen, ShadowFs.sfTreeAddUser,
              hnone]
          · simp [hblock, hlen, ShadowFs.sfTreeAddUser, hnone]
        · let sf₁ : SfRoot ρ :=
            ⟨sf.head, sf.heap.put addr (some ⟨initUser env name u, none⟩)⟩
          have hput : Linked sf₁.heap sf₁.head cells :=
            linked_put_fresh hlinked hfresh _
          rcases linkLast_linked hput (not_mem_of_fresh hlinked hfresh)
            (sf.heap.put_self _ _) hrounds' with ⟨sf', hlink, hlinked'⟩
          rw [sfTreeAddUser_of_new hnone hblock (Nat.not_lt.mp hlen)]
          refine ⟨sf', ?_, _, hlinked', by simp⟩
          simp only [sfTreeAddUser, findUser, hfind, hblock, if_neg hlen]
          exact congrArg (Option.map (fun sf => (0, sf))) hlink
  · rw [sfTreeAddUser_of_found env hm.ne_none]
    exact ⟨sf, by simp [sfTreeAddUser, findUser, hfind], cells, hlinked, rfl⟩

/-!
## Deleting
-/

/-- The loop, started at a record that does not match, unlinks the first match
behind it. -/
theorem unlinkFrom_spec {heap : Heap ρ} {head : Option Nat} (name : CString) {d : Nat}
    {v : ρ} (front : List (Nat × ρ)) {rest : List (Nat × ρ)}
    (h : Linked heap head (front ++ (d, v) :: rest)) {rounds : Nat}
    (hrounds : rest.length < rounds) :
    match deleteNext name (rest.map Prod.snd) with
    | none => unlinkFrom heap name rounds d = some (-1, heap)
    | some users =>
        exists heap' cells, unlinkFrom heap name rounds d = some (0, heap') ∧
          Linked heap' head (front ++ (d, v) :: cells) ∧ cells.map Prod.snd = users := by
  induction rest generalizing front d v rounds with
  | nil =>
      cases rounds with
      | zero => cases hrounds
      | succ rounds =>
          rcases h.chain.split with ⟨_, _, _, next, hcell, hnext⟩
          cases hnext
          simp [deleteNext, unlinkFrom, hcell]
  | cons e rest ih =>
      rcases e with ⟨q, w⟩
      cases rounds with
      | zero => cases hrounds
      | succ rounds =>
          rcases h.chain.split with ⟨_, _, _, next, hcell, hnext, next', hcell', _⟩
          cases hnext
          by_cases hw : username w = name
          · have hgone := h.unlink hcell'
            rw [List.map_cons, deleteNext, if_pos hw]
            refine ⟨_, rest, ?_, hgone, rfl⟩
            simp [unlinkFrom, hcell, hcell', hw]
          · have hmove : front ++ (d, v) :: (q, w) :: rest =
                (front ++ [(d, v)]) ++ (q, w) :: rest := by
              simp
            rw [hmove] at h
            have hrest := ih (front ++ [(d, v)]) h (Nat.lt_of_succ_lt_succ hrounds)
            have hstep : unlinkFrom heap name (rounds + 1) d =
                unlinkFrom heap name rounds q := by
              simp [unlinkFrom, hcell, hcell', hw]
            rw [List.map_cons, deleteNext, if_neg hw, hstep]
            cases hdelete : deleteNext name (rest.map Prod.snd) with
            | none =>
                rw [hdelete] at hrest
                exact hrest
            | some users =>
                rw [hdelete] at hrest
                rcases hrest with ⟨heap', cells, hunlink, hlinked, husers⟩
                refine ⟨heap', (q, w) :: cells, hunlink, ?_, by simp [husers]⟩
                simpa using hlinked

theorem sfTreeDeleteUser_represents {sf : SfRoot ρ} {users : List ρ}
    (h : sf.Represents users) {rounds : Nat} (hrounds : users.length < rounds)
    {name : CString} {res : Int × List ρ}
    (hdelete : ShadowFs.sfTreeDeleteUser users name = .ok res) :
    exists sf', sf.sfTreeDeleteUser rounds name = some (res.1, sf') ∧
      sf'.Represents res.2 := by
  rcases h with ⟨cells, hlinked, rfl⟩
  cases cells with
  | nil => cases hdelete
  | cons e cells =>
      rcases e with ⟨del, u⟩
      rcases hlinked.tail with ⟨next, hhead, hcell, hrest⟩
      rw [List.map_cons, ShadowFs.sfTreeDeleteUser] at hdelete
      by_cases hu : username u = name
      · rw [if_pos hu] at hdelete
        cases hdelete
        refine ⟨{ head := next, heap := sf.heap.put del none }, ?_, cells, ?_, rfl⟩
        · simp [sfTreeDeleteUser, hhead, hcell, hu]
        · exact ⟨hrest.chain.put_of_not_mem hlinked.of_nodup _, hrest.nodup⟩
      · rw [if_neg hu] at hdelete
        have hlength : cells.length < rounds := by
          rw [List.map_cons, List.length_cons, List.length_map] at hrounds
          exact Nat.lt_of_succ_lt hrounds
        have hloop := unlinkFrom_spec name [] hlinked hlength
        cases hnext : deleteNext name (cells.map Prod.snd) with
        | none =>
            rw [hnext] at hloop hdelete
            cases hdelete
            have hroot : (⟨some del, sf.heap⟩ : SfRoot ρ) = sf := by
              rw [← hhead]
            refine ⟨sf, ?_, (del, u) :: cells, hlinked, rfl⟩
            simp [sfTreeDeleteUser, hhead, hcell, hu, hloop, hroot]
        | some users =>
            rw [hnext] at hloop hdelete
            cases hdelete
            rcases hloop with ⟨heap', cells', hunlink, hlinked', husers⟩
            refine ⟨{ sf with heap := heap' }, ?_, (del, u) :: cells', hlinked', ?_⟩
            · simp [sfTreeDeleteUser, hhead, hcell, hu, hunlink]
            · simp [husers]

/-!
## Updating
-/

theorem updateField_represents {sf : SfRoot ρ} {users : List ρ}
    (h : sf.Represents users) {rounds : Nat} (hrounds : users.length < rounds)
    (name : CString) (assign : ρ -> ρ) :
    exists sf', sf.updateField rounds name assign =
        some ((ShadowFs.updateField users name assign).1, sf') ∧
      sf'.Represents (ShadowFs.updateField users name assign).2 := by
  rcases h with ⟨cells, hlinked, rfl⟩
  have hrounds' : cells.length < rounds := by simpa using hrounds
  rcases findFrom_cases hlinked name hrounds' with
    ⟨hnone, hfind⟩ | ⟨front, p, u, back, hsplit, hm, hfind⟩
  · rw [updateField_of_none hnone]
    exact ⟨sf, by simp [updateField, findUser, hfind], cells, hlinked, rfl⟩
  · rw [hm.updateField_eq]
    subst hsplit
    rcases hlinked.chain.split with ⟨_, _, _, next, hcell, _⟩
    refine ⟨{ sf with heap := sf.heap.put p (some ⟨assign u, next⟩) }, ?_, _,
      hlinked.assign hcell (assign u), ?_⟩
    · simp [updateField, findUser, hfind, hcell]
    · simp

/-- The functions of `shadowTree.h` return on the structure, with the results and
the effects they have on the list of users. -/
structure Simulates (sf : SfRoot ρ) (users : List ρ) : Prop where
  find : forall name rounds, users.length < rounds ->
    exists found, sf.findUser rounds name = some found ∧
      (found = none <-> ShadowFs.findUser users name = none)
  add : forall env addr name rounds, users.length < rounds -> sf.heap addr = none ->
    exists sf', sf.sfTreeAddUser rounds env addr name =
        some ((ShadowFs.sfTreeAddUser env users name).1, sf') ∧
      sf'.Represents (ShadowFs.sfTreeAddUser env users name).2
  delete : forall name res rounds, users.length < rounds ->
    ShadowFs.sfTreeDeleteUser users name = .ok res ->
    exists sf', sf.sfTreeDeleteUser rounds name = some (res.1, sf') ∧ sf'.Represents res.2
  update : forall name assign rounds, users.length < rounds ->
    exists sf', sf.updateField rounds name assign =
        some ((ShadowFs.updateField users name assign).1, sf') ∧
      sf'.Represents (ShadowFs.updateField users name assign).2

theorem Represents.simulates {sf : SfRoot ρ} {users : List ρ}
    (h : sf.Represents users) : sf.Simulates users where
  find := by
    intro name rounds hrounds
    rcases h with ⟨cells, hlinked, rfl⟩
    have hrounds' : cells.length < rounds := by simpa using hrounds
    rcases findFrom_cases hlinked name hrounds' with
      ⟨hnone, hfind⟩ | ⟨front, p, u, back, _, hm, hfind⟩
    · exact ⟨none, hfind, by simp [hnone]⟩
    · exact ⟨some p, hfind, by simp [hm.findUser_eq]⟩
  add := fun env _ name _ hrounds hfresh =>
    sfTreeAddUser_represents h hrounds env hfresh name
  delete := fun _ _ _ hrounds hdelete => sfTreeDeleteUser_represents h hrounds hdelete
  update := fun name assign _ hrounds => updateField_represents h hrounds name assign

end SfRoot

end ShadowFs

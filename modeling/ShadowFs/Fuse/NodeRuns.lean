import Mathlib.Data.Set.Card
import ShadowFs.Fuse.Waiting
import ShadowFs.Library.Run

/-!
# Runs of node operations

The kernel knows a node by the number that a lookup gave it, and it counts the lookups it
has not yet forgotten.  Requests are served at the same time: each locks its paths, works on
them and gives them back, and between these steps others take theirs or wait for them.  What
the kernel counts, the paths that are locked and the requests that wait are put beside the
state of the library.  As long as the kernel names only nodes it counts, and requests remove
and rename only what they have locked for writing, all of these agree, whatever the allocation
functions answer.
-/

namespace ShadowFs.Libfuse

open CLib Library LinearHash

/-!
## The kernel and the library
-/

inductive NodeCall
  | find (dir : Nat) (name : CString)
  | forget (id n : Nat)
  | remove (dir : Nat) (name : CString)
  | rename (olddir : Nat) (oldname : CString) (newdir : Nat) (newname : CString) (hide : Bool)
  | lock (room : Nat -> Option (Nat -> Byte)) (nodeid : Nat) (name : Option CString) (wr : Bool)
      (retry : Option Nat)
  | unlock (l : Lock)

def Fuse.nlookupAt (f : Fuse) (id : Nat) : Nat :=
  ((f.nodes id).map Node.nlookup).getD 0

/-- The library, the lookups that the kernel counts, the numbers and generations of all the
nodes that were made for it, the paths that are locked, and the requests that wait. -/
structure Exchange where
  fuse : Fuse
  held : Nat -> Nat
  made : List (Nat × Nat)
  locks : List Lock
  waiting : List Waiting

namespace Exchange

def start (f : Fuse) : Exchange :=
  { fuse := f, held := fun _ => 0, made := [], locks := [], waiting := [] }

/-- The kernel is told of a node. -/
def entry (s : Exchange) (id : Nat) (f : Fuse) : Exchange :=
  { s with
    fuse := f
    held := Function.update s.held id (s.held id + 1)
    made := if s.fuse.nodes id = none then (id, f.generation) :: s.made else s.made }

/-- The requests that wait, but for the one with the ticket. -/
def others (s : Exchange) (ticket : Nat) : List Waiting :=
  s.waiting.filter (fun w => w.ticket ≠ ticket)

/-- A step, with the answers of the allocation functions.  A forget that has to wait is tried
again later, and so is an attempt to lock a path that fails with `EAGAIN`. -/
def step (call : Supply × NodeCall) (s : Exchange) : Except Unit Exchange :=
  match call.2 with
  | .find dir name =>
      match findNode call.1 dir name s.fuse with
      | none => .error ()
      | some (none, f) => .ok { s with fuse := f }
      | some (some id, f) => .ok (s.entry id f)
  | .forget id n =>
      if id ≠ rootId ∧ forgetWaits s.fuse id n = true then .ok s
      else
        match forgetNode call.1 id n s.fuse with
        | none => .error ()
        | some f => .ok { s with fuse := f, held := Function.update s.held id (s.held id - n) }
  | .remove dir name =>
      match removeNode call.1 dir name s.fuse with
      | none => .error ()
      | some f => .ok { s with fuse := f }
  | .rename olddir oldname newdir newname hide =>
      match renameNode call.1 olddir oldname newdir newname hide s.fuse with
      | none => .error ()
      | some (_, f) => .ok { s with fuse := f }
  | .lock room nodeid name wr retry =>
      match tryGetPath room nodeid name wr (ticketFor retry s.fuse).1
        (ticketFor retry s.fuse).2 with
      | none => .error ()
      | some (.error err, f) =>
          .ok { s with
            fuse := f
            waiting := if err = -EAGAIN then
                ⟨(ticketFor retry s.fuse).1, nodeid, name, wr⟩ ::
                  s.others (ticketFor retry s.fuse).1
              else s.others (ticketFor retry s.fuse).1 }
      | some (.ok (path, wnode), f) =>
          .ok { s with
            fuse := f
            locks := ⟨nodeid, name, wnode, path⟩ :: s.locks
            waiting := s.others (ticketFor retry s.fuse).1 }
  | .unlock l =>
      match unlockPath l.nodeid l.wnode none 0 s.fuse with
      | none => .error ()
      | some f => .ok { s with fuse := f, locks := s.locks.erase l }

/-- The kernel may name the root and the nodes it counts. -/
def Knows (s : Exchange) (id : Nat) : Prop :=
  id = rootId ∨ 0 < s.held id

/-- A request has locked the entry of a directory: its path, and for writing the node of the
entry, if it has one. -/
def Claims (s : Exchange) (dir : Nat) (name : CString) : Prop :=
  exists l, l ∈ s.locks ∧ l.nodeid = dir ∧ l.name = some name ∧
    forall id, lookupNode s.fuse dir name = some (some id) -> l.wnode = some id

/-- The kernel counts the node of an entry, if it has one. -/
def Seen (s : Exchange) (dir : Nat) (name : CString) : Prop :=
  forall id, lookupNode s.fuse dir name = some (some id) -> 0 < s.held id

/-- What the kernel and the requests keep to.  The kernel names nodes it counts.  A lookup, and
the last node of a path that is locked for writing, is not a node that the kernel has
forgotten; there are numbers, generations and tickets left.  A request is not forgotten by the
kernel while it waits, and it comes back with what it asked for.  What is removed or renamed
has been locked for that, and a rename has two different entries.  A path is not longer than
the buffer can become. -/
def Allowed (call : Supply × NodeCall) (s : Exchange) : Prop :=
  match call.2 with
  | .find dir name => s.Knows dir ∧ s.Seen dir name ∧
      s.fuse.idTable.use + 2 < 2 ^ 32 ∧ s.fuse.generation + 1 < 2 ^ 32
  | .forget id n => id = rootId ∨ (0 < n ∧ n ≤ s.held id ∧
      forall w, w ∈ s.waiting -> w.nodeid = id -> n < s.held id)
  | .remove dir name => s.Claims dir name
  | .rename olddir oldname newdir newname _ => (olddir, oldname) ≠ (newdir, newname) ∧
      s.Claims olddir oldname ∧ s.Claims newdir newname
  | .lock _ nodeid name wr retry =>
      (match retry with
        | none => s.Knows nodeid ∧ s.fuse.currTicket + 1 < 2 ^ 31
        | some ticket => ⟨ticket, nodeid, name, wr⟩ ∈ s.waiting) ∧
      (wr = true -> exists n, name = some n ∧ s.Seen nodeid n) ∧
      forall line, Line s.fuse.parentOf nodeid line ->
        (ending name).length + 1 + s.fuse.spellSize line ≤ 0xffffffff
  | .unlock l => l ∈ s.locks

/-- The tables find each node, each node counts its references and its locks, and the kernel
and the library agree on the lookups. -/
structure Sound (s : Exchange) : Prop where
  byNumber : forall id, getNodeNocheck s.fuse id =
    some (if s.fuse.nodes id = none then none else some id)
  byName : forall dir name, exists found, lookupNode s.fuse dir name = some found ∧
    forall id, found = some id <-> s.fuse.key id = some (dir, name)
  parents : forall id dir name, s.fuse.key id = some (dir, name) -> s.fuse.nodes dir ≠ none
  lines : forall id, s.fuse.nodes id ≠ none -> exists line, Line s.fuse.parentOf id line
  counts : forall id node, s.fuse.nodes id = some node ->
    node.refctr = (if 0 < node.nlookup then 1 else 0) +
      { c | s.fuse.parentOf c = some id }.ncard
  root : s.fuse.Holds rootId
  lookups : forall id, id ≠ rootId -> s.held id = s.fuse.nlookupAt id
  used : forall id, s.fuse.nodes id ≠ none ->
    0 < s.fuse.nlookupAt id ∨ exists c, s.fuse.parentOf c = some id
  locked : Locked s.fuse s.locks

end Exchange

/-!
## What a step keeps
-/

section Lookups

variable {f f' : Fuse} {id : Nat} {node : Node}

theorem nlookupAt_eq (h : f.nodes id = some node) : f.nlookupAt id = node.nlookup := by
  rw [Fuse.nlookupAt, h, Option.map_some, Option.getD_some]

theorem nlookupAt_eq_zero (h : f.nodes id = none) : f.nlookupAt id = 0 := by
  rw [Fuse.nlookupAt, h, Option.map_none, Option.getD_none]

theorem holds_iff : f.Holds id <-> 0 < f.nlookupAt id := by
  rcases hnode : f.nodes id with _ | node
  · rw [nlookupAt_eq_zero hnode, Fuse.Holds, hnode]
    simp
  · rw [nlookupAt_eq hnode, Fuse.Holds, hnode]
    simp

theorem Relinked.nlookupAt {named named' gone : List Nat}
    (h : Relinked f f' named named' gone) (x : Nat) : f'.nlookupAt x = f.nlookupAt x := by
  rcases hnode' : f'.nodes x with _ | node'
  · rw [nlookupAt_eq_zero hnode']
    rcases hnode : f.nodes x with _ | node
    · rw [nlookupAt_eq_zero hnode]
    · rw [nlookupAt_eq hnode]
      by_contra hpos
      exact h.held x node hnode (Or.inl (Nat.pos_of_ne_zero (Ne.symm hpos))) hnode'
  · rcases h.alike x node' hnode' with ⟨node, hnode, _, hsame, _⟩
    rw [nlookupAt_eq hnode', nlookupAt_eq hnode, hsame]

theorem Relocked.nlookupAt (h : Relocked f f') (x : Nat) : f'.nlookupAt x = f.nlookupAt x := by
  rcases hnode : f.nodes x with _ | node
  · have hnone := h.nodes x
    rw [hnode, Option.map_none, Option.map_eq_none_iff] at hnone
    rw [nlookupAt_eq_zero hnode, nlookupAt_eq_zero hnone]
  · rcases h.exists_node hnode with ⟨node', hnode', hsame⟩
    rw [nlookupAt_eq hnode, nlookupAt_eq hnode', (unlocked_counts hsame).2]

theorem nlookupAt_put (x : Nat) :
    (f.put id (some node)).nlookupAt x = Function.update f.nlookupAt id node.nlookup x := by
  by_cases hx : x = id
  · rw [hx, nlookupAt_eq (put_nodes_self f id _), Function.update_self]
  · rw [Function.update_of_ne hx, Fuse.nlookupAt, put_nodes_of_ne f hx]
    rfl

theorem MadeBelow.nlookupAt {dir : Nat} {name : CString} (h : MadeBelow f f' dir name id) {x : Nat}
    (hx : x ≠ id) : f'.nlookupAt x = f.nlookupAt x := by
  rcases hold : f.nodes x with _ | old
  · rcases hnew : f'.nodes x with _ | new
    · rw [nlookupAt_eq_zero hold, nlookupAt_eq_zero hnew]
    · rcases h.node_cases hnew with ⟨heq, _⟩ | ⟨old, n, hsome, _⟩
      · exact absurd heq hx
      · rw [hold] at hsome
        cases hsome
  · rcases h.exists_node hold with ⟨_, n, _, hnew⟩
    rw [nlookupAt_eq hold, nlookupAt_eq hnew]

theorem Relinked.allUsed {named named' gone : List Nat} (h : Relinked f f' named named' gone)
    (hused : forall x node, f.nodes x = some node -> 0 < node.refctr) :
    forall x node', f'.nodes x = some node' -> 0 < node'.refctr := by
  intro x node' hnode'
  rcases h.alike x node' hnode' with ⟨node, hnode, _⟩
  exact h.used x node node' hnode hnode' (hused x node hnode)

theorem used_put (hnode : f.nodes id = some node) {n : Nat}
    (hused : forall x node, f.nodes x = some node -> 0 < node.refctr) :
    forall x node', (f.put id (some { node with nlookup := n })).nodes x = some node' ->
      0 < node'.refctr := by
  intro x node' hnode'
  rcases put_nodes_cases hnode hnode' with ⟨_, _, rfl⟩ | ⟨_, hold⟩
  · exact hused id node hnode
  · exact hused x node' hold

theorem stamp_of_counters (h : f'.counters = f.counters) (hctr : f.CtrValid) :
    f'.CtrValid ∧ f.stamp ≤ f'.stamp := by
  simp only [Fuse.counters, Prod.mk.injEq] at h
  rcases h with ⟨hlow, hhigh, _⟩
  rw [Fuse.CtrValid, Fuse.stamp, Fuse.stamp, hlow, hhigh]
  exact ⟨hctr, Nat.le_refl _⟩

end Lookups

namespace Exchange

/-- What every step keeps. -/
structure Kept (s : Exchange) (ids named : List Nat) : Prop where
  linked : Linked s.fuse ids named [] noExtra
  ctrValid : s.fuse.CtrValid
  locked : Locked s.fuse s.locks
  lookups : forall id, id ≠ rootId -> s.held id = s.fuse.nlookupAt id
  used : forall id node, s.fuse.nodes id = some node -> 0 < node.refctr
  stamped : forall pair, pair ∈ s.made -> pair.2 * 2 ^ 32 + pair.1 ≤ s.fuse.stamp
  distinct : s.made.Nodup
  counted : forall id, 0 < s.held id -> exists generation, (id, generation) ∈ s.made
  queued : Queued s.fuse s.waiting
  known : forall w, w ∈ s.waiting -> s.Knows w.nodeid

variable {s : Exchange} {ids named : List Nat}

theorem Kept.holds (h : Kept s ids named) {id : Nat} (hid : s.Knows id) : s.fuse.Holds id := by
  rcases hid with rfl | hpos
  · exact h.linked.rootHeld
  · by_cases hroot : id = rootId
    · rw [hroot]
      exact h.linked.rootHeld
    · rw [holds_iff, ← h.lookups id hroot]
      exact hpos

theorem Kept.next (h : Kept s ids named) {f' : Fuse} {ids' named' : List Nat}
    (hlinked : Linked f' ids' named' [] noExtra)
    (hctr : f'.CtrValid ∧ s.fuse.stamp ≤ f'.stamp) {held : Nat -> Nat} {locks : List Lock}
    {waiting : List Waiting} (hlocked : Locked f' locks)
    (hlookups : forall id, id ≠ rootId -> held id = f'.nlookupAt id)
    (hused : forall id node, f'.nodes id = some node -> 0 < node.refctr)
    (hcounted : forall id, 0 < held id -> 0 < s.held id) (hqueued : Queued f' waiting)
    (hknown : forall w, w ∈ waiting -> w.nodeid = rootId ∨ 0 < held w.nodeid) :
    Kept { s with fuse := f', held := held, locks := locks, waiting := waiting } ids'
      named' where
  linked := hlinked
  ctrValid := hctr.1
  locked := hlocked
  lookups := hlookups
  used := hused
  stamped := fun pair hpair => Nat.le_trans (h.stamped pair hpair) hctr.2
  distinct := h.distinct
  counted := fun id hid => h.counted id (hcounted id hid)
  queued := hqueued
  known := hknown

theorem currTicket_of_counters {f f' : Fuse} (h : f'.counters = f.counters) :
    f'.currTicket = f.currTicket :=
  congrArg (fun counters => counters.2.2) h

theorem Kept.relink (h : Kept s ids named) {f' : Fuse} {ids' named' gone : List Nat}
    (hlinked : Linked f' ids' named' [] noExtra) (hcounters : f'.counters = s.fuse.counters)
    (hrelinked : Relinked s.fuse f' named named' gone)
    (hexclusive : Exclusive s.fuse f' s.locks gone) : Kept { s with fuse := f' } ids' named' := by
  refine h.next hlinked (stamp_of_counters hcounters h.ctrValid)
    (h.locked.relinked h.linked.toShape hlinked.rootKey hrelinked
      (hexclusive.not_above h.locked h.linked.toShape)) ?_ (hrelinked.allUsed h.used)
    (fun _ hid => hid)
    (h.queued.relinked hexclusive h.locked h.linked.toShape hlinked.toShape hrelinked
      (currTicket_of_counters hcounters) (fun w hw => h.holds (h.known w hw)))
    h.known
  intro id hid
  rw [hrelinked.nlookupAt]
  exact h.lookups id hid

theorem Kept.relock (h : Kept s ids named) {f' : Fuse} (hrelocked : Relocked s.fuse f')
    {locks : List Lock} {waiting : List Waiting} (hlocked : Locked f' locks)
    (hqueued : Queued f' waiting) (hknown : forall w, w ∈ waiting -> s.Knows w.nodeid) :
    Kept { s with fuse := f', locks := locks, waiting := waiting } ids named := by
  have hshape : Shape f' ids named [] :=
    h.linked.toShape.congr hrelocked.idTable hrelocked.nameTable hrelocked.links
  have hcounters : f'.counters = s.fuse.counters := by
    rw [hrelocked.rest]
    rfl
  refine h.next (hrelocked.linked h.linked (hlocked.anchored hshape))
    (stamp_of_counters hcounters h.ctrValid) hlocked ?_ ?_ (fun _ hid => hid) hqueued hknown
  · intro id hid
    rw [hrelocked.nlookupAt]
    exact h.lookups id hid
  · intro id node' hnode'
    rcases hrelocked.symm.exists_node hnode' with ⟨node, hnode, hsame⟩
    rw [← (unlocked_counts hsame).1]
    exact h.used id node hnode

theorem le_entry_held (held : Nat -> Nat) (id : Nat) {x : Nat} :
    held x ≤ Function.update held id (held id + 1) x := by
  by_cases hx : x = id
  · rw [hx, Function.update_self]
    exact Nat.le_succ _
  · rw [Function.update_of_ne hx]

theorem Kept.known_entry (h : Kept s ids named) (id : Nat) : forall w, w ∈ s.waiting ->
    w.nodeid = rootId ∨ 0 < Function.update s.held id (s.held id + 1) w.nodeid :=
  fun w hw => (h.known w hw).imp_right (fun hpos => Nat.lt_of_lt_of_le hpos (le_entry_held _ _))

theorem Kept.seen (h : Kept s ids named) {id : Nat} {node : Node} (hid : id ≠ rootId)
    (hnode : s.fuse.nodes id = some node) (hheld : 0 < s.held id)
    (hlinked : Linked (s.fuse.put id (some { node with nlookup := node.nlookup + 1 })) ids named
      [] noExtra) :
    Kept (s.entry id (s.fuse.put id (some { node with nlookup := node.nlookup + 1 }))) ids
      named := by
  have hsome : s.fuse.nodes id ≠ none := by
    rw [hnode]
    exact Option.some_ne_none _
  rw [entry, if_neg hsome]
  refine h.next hlinked ⟨h.ctrValid, Nat.le_refl _⟩
    (h.locked.lookups h.linked.rootKey hnode hid (Or.inl (Nat.succ_pos _))) ?_
    (used_put hnode h.used) ?_ (h.queued.lookups hnode)
    (h.known_entry id)
  · intro x hx
    rw [nlookupAt_put]
    by_cases hxid : x = id
    · rw [hxid, Function.update_self, Function.update_self, h.lookups id hid, nlookupAt_eq hnode]
    · rw [Function.update_of_ne hxid, Function.update_of_ne hxid]
      exact h.lookups x hx
  · intro x hx
    by_cases hxid : x = id
    · rw [hxid]
      exact hheld
    · rw [Function.update_of_ne hxid] at hx
      exact hx

/-- The kernel is told of a new node.  Its number and generation are those of the counter,
which has never been as far. -/
theorem Kept.made (h : Kept s ids named) {f' : Fuse} {dir id : Nat} {name : CString}
    (hid : f'.ctr = id) (hlinked : Linked f' (id :: ids) (id :: named) [] noExtra)
    (hmade : MadeBelow s.fuse f' dir name id)
    (hctr : f'.CtrValid) (hlater : s.fuse.stamp < f'.stamp)
    (hcurr : f'.currTicket = s.fuse.currTicket) :
    Kept (s.entry id f') (id :: ids) (id :: named) := by
  have hstamp : f'.stamp = f'.generation * 2 ^ 32 + id := by
    rw [Fuse.stamp, hid]
  have hbefore : forall pair, pair ∈ s.made -> pair.2 * 2 ^ 32 + pair.1 < f'.stamp :=
    fun pair hpair => Nat.lt_of_le_of_lt (h.stamped pair hpair) hlater
  rw [entry, if_pos hmade.free]
  refine ⟨hlinked, hctr, h.locked.made h.linked.rootKey hlinked.rootKey hmade, ?_, ?_, ?_, ?_,
    ?_, h.queued.made h.linked hcurr hmade (fun w hw => h.holds (h.known w hw)),
    h.known_entry id⟩
  · intro x hx
    dsimp only
    by_cases hxid : x = id
    · rw [hxid, Function.update_self, nlookupAt_eq hmade.self, h.lookups id (hxid ▸ hx),
        nlookupAt_eq_zero hmade.free]
      rfl
    · rw [Function.update_of_ne hxid, hmade.nlookupAt hxid]
      exact h.lookups x hx
  · intro x xnode hx
    rcases hmade.node_cases hx with ⟨_, rfl⟩ | ⟨old, n, hold, _, hle, rfl⟩
    · exact Nat.one_pos
    · exact Nat.lt_of_lt_of_le (h.used x old hold) hle
  · intro pair hpair
    rcases List.mem_cons.mp hpair with rfl | hpair
    · exact Nat.le_of_eq hstamp.symm
    · exact Nat.le_of_lt (hbefore pair hpair)
  · refine List.nodup_cons.mpr ⟨?_, h.distinct⟩
    intro hmem
    exact Nat.lt_irrefl _ (hstamp ▸ hbefore _ hmem)
  · intro x hx
    by_cases hxid : x = id
    · rw [hxid]
      exact ⟨_, List.mem_cons_self⟩
    · dsimp only at hx
      rw [Function.update_of_ne hxid] at hx
      rcases h.counted x hx with ⟨generation, hmem⟩
      exact ⟨generation, List.mem_cons_of_mem _ hmem⟩

/-- A lookup finds a node that the kernel counts, or it makes one. -/
theorem Kept.find (h : Kept s ids named) (supply : Supply) {dir : Nat} {name : CString}
    (hallowed : Allowed (supply, .find dir name) s) :
    exists s' ids' named', step (supply, .find dir name) s = .ok s' ∧ Kept s' ids' named' := by
  rcases hallowed with ⟨hdir, hfound, huse, hgen⟩
  rcases h.holds hdir with ⟨dnode, hdnode, _⟩
  have hheld : forall id node, lookupNode s.fuse dir name = some (some id) ->
      s.fuse.nodes id = some node -> 0 < node.nlookup := by
    intro id node hid hnode
    rw [← nlookupAt_eq hnode, ← holds_iff]
    exact h.holds (Or.inr (hfound id hid))
  have hfew : ids.length + 2 < 2 ^ 32 := by
    rw [h.linked.idTable.use] at huse
    exact huse
  rcases findNode_spec supply h.linked h.ctrValid hgen hfew (h.linked.mem_of_node hdnode) hheld
    with ⟨out, f', hcall, hout, hctr, hstamp, hcurr⟩
  cases hout with
  | old hid hkey hnode hlinked =>
      have hroot : _ ≠ rootId := fun heq => h.linked.root.2 (heq ▸ hid)
      have hentry := h.linked.lookupNode_eq_some_iff.mpr ⟨hid, hkey⟩
      exact ⟨_, ids, named, by simp only [step, hcall],
        h.seen hroot hnode (hfound _ hentry) hlinked⟩
  | new hfree hnew =>
      cases hnew with
      | failed hlinked hnodes =>
          refine ⟨{ s with fuse := f' }, ids, named, by simp only [step, hcall], ?_⟩
          refine h.next hlinked ⟨hctr, hstamp⟩ ?_ ?_ ?_ (fun _ hid => hid)
            (h.queued.congr hcurr hnodes) h.known
          · exact h.locked.congr h.linked.rootKey hnodes
          · intro x hx
            rw [Fuse.nlookupAt, hnodes]
            exact h.lookups x hx
          · rw [hnodes]
            exact h.used
      | made hid hfresh hlinked hpnode hnodes hlater =>
          have hfree : s.fuse.nodes _ = none := h.linked.nodes_eq_none
            (fun hmem => hfresh (List.mem_cons_of_mem _ (List.mem_cons_of_mem _ hmem)))
          exact ⟨_, _, _, by simp only [step, hcall],
            h.made hid hlinked ⟨hfree, _, hpnode, hnodes⟩ hctr hlater hcurr⟩

theorem forget_held_le (held : Nat -> Nat) (id n : Nat) {x : Nat} :
    Function.update held id (held id - n) x ≤ held x := by
  by_cases hx : x = id
  · rw [hx, Function.update_self]
    exact Nat.sub_le _ _
  · rw [Function.update_of_ne hx]

theorem Kept.forget (h : Kept s ids named) (supply : Supply) {id n : Nat}
    (hallowed : Allowed (supply, .forget id n) s) :
    exists s' ids' named', step (supply, .forget id n) s = .ok s' ∧ Kept s' ids' named' := by
  by_cases hroot : id = rootId
  · have hnow : ¬ (id ≠ rootId ∧ forgetWaits s.fuse id n = true) := fun hwait => hwait.1 hroot
    refine ⟨{ s with held := Function.update s.held id (s.held id - n) }, ids, named, ?_, ?_⟩
    · simp only [step, forgetNode, if_neg hnow, if_pos hroot]
    · refine h.next h.linked ⟨h.ctrValid, Nat.le_refl _⟩ h.locked ?_ h.used
        (fun x hx => Nat.lt_of_lt_of_le hx (forget_held_le _ _ _)) h.queued ?_
      · intro x hx
        rw [Function.update_of_ne (fun heq => hx (heq.trans hroot))]
        exact h.lookups x hx
      · intro w hw
        by_cases hwid : w.nodeid = id
        · exact Or.inl (hwid.trans hroot)
        · rw [Function.update_of_ne hwid]
          exact h.known w hw
  by_cases hwait : id ≠ rootId ∧ forgetWaits s.fuse id n = true
  · exact ⟨s, ids, named, by simp only [step, if_pos hwait], h⟩
  · rcases hallowed.resolve_left hroot with ⟨hpos, hle, hwaits⟩
    rcases h.holds (Or.inr (Nat.lt_of_lt_of_le hpos hle)) with ⟨node, hnode, _⟩
    have hcount : s.held id = node.nlookup := (h.lookups id hroot).trans (nlookupAt_eq hnode)
    have hnow : forgetWaits s.fuse id n = false :=
      Bool.eq_false_iff.mpr (fun heq => hwait ⟨hroot, heq⟩)
    rw [hcount] at hle
    rcases forgetNode_spec supply h.linked hroot hnode hpos hle hnow with
      ⟨f', ids', named', hcall, hlinked, hcounters, hcut⟩
    refine ⟨{ s with fuse := f', held := Function.update s.held id (s.held id - n) }, ids',
      named', by simp only [step, if_neg hwait, hcall], ?_⟩
    have hless : 0 < node.nlookup - n ∨ node.treelock = 0 := by
      have hfree := (forgetWaits_eq_false_iff hnode n).mp hnow
      by_cases hlast : node.nlookup = n
      · exact Or.inr (hfree hlast)
      · left
        lia
    have hlocked := h.locked.lookups h.linked.rootKey hnode hroot hless
    have hlinks : (s.fuse.put id (some { node with nlookup := node.nlookup - n })).links =
        s.fuse.links := links_put hnode rfl rfl
    have hshape : Shape (s.fuse.put id (some { node with nlookup := node.nlookup - n })) ids
        named [] := h.linked.toShape.congr rfl rfl hlinks
    have hknown : forall w, w ∈ s.waiting ->
        w.nodeid = rootId ∨ 0 < Function.update s.held id (s.held id - n) w.nodeid := by
      intro w hw
      by_cases hwid : w.nodeid = id
      · right
        rw [hwid, Function.update_self]
        exact Nat.sub_pos_of_lt (hwaits w hw hwid)
      · rw [Function.update_of_ne hwid]
        exact h.known w hw
    refine h.next hlinked (stamp_of_counters hcounters h.ctrValid) ?_ ?_
      (hcut.allUsed (used_put hnode h.used))
      (fun x hx => Nat.lt_of_lt_of_le hx (forget_held_le _ _ _)) ?_ hknown
    · exact hlocked.relinked hshape hlinked.rootKey hcut.toRelinked
        (fun x _ hx => absurd hx List.not_mem_nil)
    · intro x hx
      rw [hcut.nlookupAt, nlookupAt_put, hcount]
      by_cases hxid : x = id
      · rw [hxid, Function.update_self, Function.update_self]
      · rw [Function.update_of_ne hxid, Function.update_of_ne hxid]
        exact h.lookups x hx
    · refine (h.queued.lookups hnode).relinked (exclusive_nil _ _ _) hlocked hshape
        hlinked.toShape hcut.toRelinked (currTicket_of_counters hcounters) ?_
      intro w hw
      rw [holds_iff, nlookupAt_put]
      by_cases hwid : w.nodeid = id
      · rw [hwid, Function.update_self]
        dsimp only
        rw [← hcount]
        exact Nat.sub_pos_of_lt (hwaits w hw hwid)
      · rw [Function.update_of_ne hwid, ← holds_iff]
        exact h.holds (h.known w hw)

theorem Kept.claims (h : Kept s ids named) {dir : Nat} {name : CString}
    (hclaims : s.Claims dir name) :
    s.fuse.Holds dir ∧ (exists l, l ∈ s.locks ∧ l.nodeid = dir) ∧
      forall id, lookupNode s.fuse dir name = some (some id) -> s.fuse.Holds id ∧
        forall node, s.fuse.nodes id = some node -> node.treelock = -1 := by
  rcases hclaims with ⟨l, hl, rfl, _, hnode⟩
  refine ⟨h.locked.held l hl, ⟨l, hl, rfl⟩, ?_⟩
  intro id hid
  refine ⟨h.locked.wheld l id hl (hnode id hid), ?_⟩
  intro node hidnode
  exact (h.locked.treelock_wnode hl (hnode id hid) hidnode).2.2

theorem parentOf_of_links {f : Fuse} {x dir : Nat} (h : f.parentOf x = some dir)
    {parent : Option Nat} {name : Option CString} (hlinks : f.links x = some (parent, name)) :
    parent = some dir := by
  rw [Fuse.parentOf, Option.map_eq_some_iff] at h
  rcases h with ⟨⟨dir', name'⟩, hkey, rfl⟩
  rw [key_eq_some_iff.mp hkey] at hlinks
  cases hlinks
  rfl

theorem live_of_parentOf {f : Fuse} {x dir : Nat} (h : f.parentOf x = some dir) :
    f.nodes x ≠ none := by
  intro hnone
  rw [Fuse.parentOf, Fuse.key, hnone] at h
  cases h

theorem Kept.remove (h : Kept s ids named) (supply : Supply) {dir : Nat} {name : CString}
    (hallowed : Allowed (supply, .remove dir name) s) :
    exists s' ids' named', step (supply, .remove dir name) s = .ok s' ∧
      Kept s' ids' named' := by
  rcases h.claims hallowed with ⟨hdir, _, hentry⟩
  rcases removeNode_spec supply h.linked name hdir with
    ⟨f', ids', named', hcall, hlinked, hcounters, gone, hcut, hgone⟩
  refine ⟨{ s with fuse := f' }, ids', named', by simp only [step, hcall],
    h.relink hlinked hcounters hcut.toRelinked ⟨?_, ?_⟩⟩
  · intro x node hx hnode
    exact (hentry x ((hgone x).mp hx)).2 node hnode
  · intro x parent hx hparent
    have hcleared := hcut.cleared x hx (live_of_parentOf hparent)
    exact absurd (parentOf_of_links hparent hcleared) (Option.some_ne_none parent).symm

theorem Kept.rename (h : Kept s ids named) (supply : Supply) {olddir newdir : Nat}
    {oldname newname : CString} {hide : Bool}
    (hallowed : Allowed (supply, .rename olddir oldname newdir newname hide) s) :
    exists s' ids' named', step (supply, .rename olddir oldname newdir newname hide) s = .ok s' ∧
      Kept s' ids' named' := by
  rcases hallowed with ⟨hdiffer, hclaims, hclaims'⟩
  rcases h.claims hclaims with ⟨hold, _, hsource⟩
  rcases h.claims hclaims' with ⟨hnew, ⟨l, hl, hdir⟩, htarget⟩
  -- The path of the new directory is locked, so the node is not above it.
  have hmoved : forall id, lookupNode s.fuse olddir oldname = some (some id) ->
      s.fuse.Holds id ∧ forall line, Line (s.fuse.up named) newdir line -> id ∉ line := by
    intro id hid
    rcases hsource id hid with ⟨hheld, hwritten⟩
    refine ⟨hheld, ?_⟩
    intro line hline hmem
    rcases hheld with ⟨node, hnode, _⟩
    rcases h.locked.reach l hl with ⟨below, text, hroute, _⟩
    rw [h.linked.up_eq, ← hdir] at hline
    rw [hline.unique (hroute.line h.linked.rootKey)] at hmem
    rcases List.mem_append.mp hmem with hbelow | hend
    · have hpos := (h.locked.treelock_pos hl ⟨below, text, hroute, hbelow⟩ hnode).2
      rw [hwritten node hnode] at hpos
      exact absurd hpos (by decide)
    · have hkey := (h.linked.lookupNode_eq_some_iff.mp hid).2
      rw [List.mem_singleton.mp hend, h.linked.rootKey] at hkey
      cases hkey
  rcases renameNode_spec supply h.linked hide hold hnew hdiffer hmoved with
    ⟨err, f', ids', named', gone, hcall, hlinked, hcounters, hrenamed⟩
  refine ⟨{ s with fuse := f' }, ids', named', by simp only [step, hcall],
    h.relink hlinked hcounters hrenamed.toRelinked ⟨?_, ?_⟩⟩
  · intro x node hx hnode
    rcases hrenamed.entries x hx with hfound | hfound
    · exact (hsource x hfound).2 node hnode
    · exact (htarget x hfound).2 node hnode
  · intro x parent hx hparent
    rcases hrenamed.outcome x hx (live_of_parentOf hparent) with
      ⟨_, hlinks⟩ | ⟨_, _, _, hlinks⟩
    · exact absurd (parentOf_of_links hparent hlinks) (Option.some_ne_none parent).symm
    · exact ⟨l, hl, hdir.trans (Option.some.inj (parentOf_of_links hparent hlinks))⟩

theorem Kept.ticketFor (h : Kept s ids named) (supply : Supply)
    {room : Nat -> Option (Nat -> Byte)} {nodeid : Nat} {name : Option CString} {wr : Bool}
    {retry : Option Nat} (hallowed : Allowed (supply, .lock room nodeid name wr retry) s) :
    exists ticket t, Libfuse.ticketFor retry s.fuse = (ticket, { s.fuse with currTicket := t }) ∧
      s.fuse.currTicket ≤ t ∧ ticket ≠ 0 ∧ ticket ≤ t ∧ Passable s.fuse nodeid ticket ∧
      s.Knows nodeid := by
  rcases hallowed with ⟨hretry, _⟩
  rcases retry with _ | ticket
  · rcases hretry with ⟨hknows, hleft⟩
    have hnext : (s.fuse.currTicket + 1) % 2 ^ 32 = s.fuse.currTicket + 1 :=
      Nat.mod_eq_of_lt (hleft.trans (by decide))
    refine ⟨s.fuse.currTicket + 1, s.fuse.currTicket + 1, ?_, Nat.le_succ _, Nat.succ_ne_zero _,
      Nat.le_refl _, ?_, hknows⟩
    · simp only [Libfuse.ticketFor, getTicket, hnext, if_neg (Nat.succ_ne_zero _)]
    · exact passable_of_fresh (fun x node hx => Nat.lt_succ_of_le (h.queued.tickets x node hx)) _
  · rcases h.queued.numbered _ hretry with ⟨hne, hle⟩
    exact ⟨ticket, s.fuse.currTicket, rfl, Nat.le_refl _, hne, hle, h.queued.passable _ hretry,
      h.known _ hretry⟩

theorem Kept.lock (h : Kept s ids named) (supply : Supply)
    {room : Nat -> Option (Nat -> Byte)} {nodeid : Nat} {name : Option CString} {wr : Bool}
    {retry : Option Nat} (hallowed : Allowed (supply, .lock room nodeid name wr retry) s) :
    exists s' ids' named', step (supply, .lock room nodeid name wr retry) s = .ok s' ∧
      Kept s' ids' named' := by
  rcases h.ticketFor supply hallowed with
    ⟨ticket, t, htaken, hle, hticket, hcurr, hpassable, hknows⟩
  rcases hallowed with ⟨_, hwr, hsize⟩
  have hlinked : Linked { s.fuse with currTicket := t } ids named [] noExtra :=
    h.linked.congr rfl rfl rfl h.linked.freed
  have hstart : Kept { s with fuse := { s.fuse with currTicket := t } } ids named :=
    h.next hlinked ⟨h.ctrValid, Nat.le_refl _⟩ (h.locked.congr h.linked.rootKey rfl) h.lookups
      h.used (fun _ hid => hid) (h.queued.advance hle) h.known
  have hname : wr = true -> exists n, name = some n ∧ forall w,
      lookupNode { s.fuse with currTicket := t } nodeid n = some (some w) ->
        Fuse.Holds { s.fuse with currTicket := t } w := by
    intro hw
    rcases hwr hw with ⟨n, hn, hseen⟩
    exact ⟨n, hn, fun w hfind => h.holds (Or.inr (hseen w hfind))⟩
  have hothers : forall w, w ∈ s.others ticket -> w ∈ s.waiting ∧ w.ticket ≠ ticket := by
    intro w hw
    rw [others, List.mem_filter] at hw
    exact ⟨hw.1, by simpa using hw.2⟩
  have hqueued : Queued { s.fuse with currTicket := t } (s.others ticket) :=
    hstart.queued.subset (fun w hw => (hothers w hw).1)
  have hknown : forall w, w ∈ s.others ticket -> s.Knows w.nodeid :=
    fun w hw => h.known w (hothers w hw).1
  rcases tryGetPath_spec hstart.linked hstart.locked room hticket hpassable
    (h.holds hknows) hname hsize with ⟨out, f', hcall, hattempted⟩
  cases hattempted with
  | @failed err _ hretagged =>
      have hlast : f'.currTicket = t := by
        rw [hretagged.rest]
      have hrest := hqueued.retag hretagged hcurr (fun w hw => (hothers w hw).2)
      refine ⟨{ s with fuse := f', waiting := if err = -EAGAIN then
        ⟨ticket, nodeid, name, wr⟩ :: s.others ticket else s.others ticket }, ids, named, ?_, ?_⟩
      · simp only [step, htaken, hcall]
      · refine hstart.relock hretagged.toRelocked (hretagged.locked hstart.locked) ?_ ?_
        · split
          · exact hrest.cons hticket (hcurr.trans (Nat.le_of_eq hlast.symm))
              (hretagged.passable hticket hpassable)
          · exact hrest
        · split
          · exact List.forall_mem_cons.mpr ⟨hknows, hknown⟩
          · exact hknown
  | done hrelocked hlocked hquiet =>
      refine ⟨_, ids, named, ?_, hstart.relock hrelocked hlocked
        (hqueued.relock hrelocked hquiet) hknown⟩
      simp only [step, htaken, hcall]

theorem Kept.unlock (h : Kept s ids named) (supply : Supply) {l : Lock}
    (hallowed : Allowed (supply, .unlock l) s) :
    exists s' ids' named', step (supply, .unlock l) s = .ok s' ∧ Kept s' ids' named' := by
  have hlocked : Locked s.fuse (l :: s.locks.erase l) :=
    h.locked.perm (List.perm_cons_erase hallowed).symm
  rcases unlockPath_spec h.linked hlocked with ⟨f', hcall, hrelocked, hless, hquiet⟩
  exact ⟨{ s with fuse := f', locks := s.locks.erase l }, ids, named,
    by simp only [step, hcall],
    h.relock hrelocked hless (h.queued.relock hrelocked hquiet) h.known⟩

/-- Every request that is allowed is served. -/
theorem Kept.step (h : Kept s ids named) (call : Supply × NodeCall)
    (hallowed : Allowed call s) :
    exists s' ids' named', Exchange.step call s = .ok s' ∧ Kept s' ids' named' := by
  rcases call with ⟨supply, call⟩
  cases call with
  | find dir name => exact h.find supply hallowed
  | forget id n => exact h.forget supply hallowed
  | remove dir name => exact h.remove supply hallowed
  | rename olddir oldname newdir newname hide => exact h.rename supply hallowed
  | lock room nodeid name wr retry => exact h.lock supply hallowed
  | unlock l => exact h.unlock supply hallowed

theorem Kept.run (h : Kept s ids named) {calls : List (Supply × NodeCall)}
    (hguard : Guarded Exchange.step Allowed calls s) :
    exists s' ids' named', Library.run Exchange.step calls s = .ok s' ∧ Kept s' ids' named' := by
  induction calls generalizing s ids named with
  | nil => exact ⟨s, ids, named, rfl, h⟩
  | cons call calls ih =>
      rcases h.step call hguard.1 with ⟨s1, ids1, named1, hstep, h1⟩
      rcases ih h1 (hguard.2 s1 hstep) with ⟨s', ids', named', hrun, h'⟩
      refine ⟨s', ids', named', ?_, h'⟩
      rw [Library.run, hstep]
      exact hrun

/-!
## Every run
-/

theorem Kept.ncard_children (h : Kept s ids named) (id : Nat) :
    { c | s.fuse.parentOf c = some id }.ncard = s.fuse.children named id := by
  have hset : { c | s.fuse.parentOf c = some id } =
      ((named.filter (fun c => (s.fuse.key c).map Prod.fst = some id)).toFinset : Set Nat) := by
    ext c
    rw [Set.mem_ofPred_eq, List.coe_toFinset, Set.mem_ofPred_eq, List.mem_filter,
      decide_eq_true_eq, Fuse.parentOf]
    refine ⟨fun hc => ⟨?_, hc⟩, fun hc => hc.2⟩
    rw [h.linked.mem_named_iff]
    intro hnone
    rw [hnone] at hc
    cases hc
  rw [hset, Set.ncard_coe_finset, List.toFinset_card_of_nodup (h.linked.namedNodup.filter _),
    Fuse.children, List.countP_eq_length_filter]

theorem Kept.exists_use (h : Kept s ids named) {id : Nat} (hid : s.fuse.nodes id ≠ none) :
    0 < s.fuse.nlookupAt id ∨ exists c, s.fuse.parentOf c = some id := by
  rcases Option.ne_none_iff_exists'.mp hid with ⟨node, hnode⟩
  have hpos := h.used id node hnode
  have hcount := h.linked.counted id node hnode
  rw [nlookupAt_eq hnode]
  by_cases hlookup : 0 < node.nlookup
  · exact Or.inl hlookup
  · right
    by_contra hnone
    have hzero : s.fuse.children named id = 0 := by
      refine children_eq_zero_iff.mpr ?_
      intro c _ hup
      rw [h.linked.up_eq] at hup
      exact hnone ⟨c, hup⟩
    rw [if_neg hlookup, hzero, noExtra] at hcount
    lia

/-- Below a node that nobody counts there are nodes at every depth. -/
theorem Kept.exists_below (h : Kept s ids named)
    (hforgotten : forall id, id ≠ rootId -> s.held id = 0) {id : Nat} (hid : id ≠ rootId)
    (hlive : s.fuse.nodes id ≠ none) (k : Nat) :
    exists x line, x ≠ rootId ∧ x ∈ ids ∧ Line s.fuse.parentOf x line ∧ k ≤ line.length := by
  induction k with
  | zero =>
      have hmem := (h.linked.live id).mpr (nodes_ne_none_iff_links.mp hlive)
      rcases h.linked.lines id hmem with ⟨line, hline⟩
      rw [h.linked.up_eq] at hline
      exact ⟨id, line, hid, hmem, hline, Nat.zero_le _⟩
  | succ k ih =>
      rcases ih with ⟨x, line, hx, hmem, hline, hlength⟩
      have hxlive := nodes_ne_none_iff_links.mpr ((h.linked.live x).mp hmem)
      rcases h.exists_use hxlive with hpos | ⟨c, hc⟩
      · rw [← h.lookups x hx, hforgotten x hx] at hpos
        exact absurd hpos (Nat.lt_irrefl 0)
      · have hkey : s.fuse.key c ≠ none := by
          intro hnone
          rw [Fuse.parentOf, hnone] at hc
          cases hc
        have hroot : c ≠ rootId := by
          rintro rfl
          exact hkey h.linked.rootKey
        refine ⟨c, c :: line, hroot, h.linked.mem_ids (h.linked.mem_named_iff.mpr hkey),
          Line.up hc hline, ?_⟩
        rw [List.length_cons]
        exact Nat.succ_le_succ hlength

theorem Kept.eq_root (h : Kept s ids named)
    (hforgotten : forall id, id ≠ rootId -> s.held id = 0) {id : Nat}
    (hlive : s.fuse.nodes id ≠ none) : id = rootId := by
  by_contra hid
  rcases h.exists_below hforgotten hid hlive (s.fuse.depth + 1) with
    ⟨x, line, _, hx, hline, hlong⟩
  rw [← h.linked.up_eq] at hline
  have hshort := h.linked.line_length_le hx hline
  lia

theorem Kept.sound (h : Kept s ids named) : s.Sound where
  byNumber := by
    intro id
    rw [getNodeNocheck_eq h.linked.idTable]
    by_cases hid : id ∈ ids
    · rcases h.linked.exists_node hid with ⟨node, hnode⟩
      rw [if_pos hid, hnode, if_neg (Option.some_ne_none _)]
    · rw [if_neg hid, if_pos (h.linked.nodes_eq_none hid)]
  byName := by
    intro dir name
    rcases h.linked.lookupNode dir name with ⟨found, hfound, _, _⟩
    refine ⟨found, hfound, ?_⟩
    intro id
    have hiff : lookupNode s.fuse dir name = some (some id) <->
        id ∈ named ∧ s.fuse.key id = some (dir, name) := h.linked.lookupNode_eq_some_iff
    rw [hfound, Option.some.injEq] at hiff
    rw [hiff]
    refine ⟨fun hid => hid.2, fun hkey => ⟨?_, hkey⟩⟩
    rw [h.linked.mem_named_iff, hkey]
    exact Option.some_ne_none _
  parents := by
    intro id dir name hkey
    have hid : id ∈ named := by
      rw [h.linked.mem_named_iff, hkey]
      exact Option.some_ne_none _
    rcases h.linked.parent id hid with ⟨dir', name', hkey', hdir⟩
    rw [hkey] at hkey'
    cases hkey'
    exact nodes_ne_none_iff_links.mpr ((h.linked.live dir).mp hdir)
  lines := by
    intro id hid
    rw [← h.linked.up_eq]
    exact h.linked.lines id ((h.linked.live id).mpr (nodes_ne_none_iff_links.mp hid))
  counts := by
    intro id node hnode
    rw [h.ncard_children]
    exact h.linked.counted id node hnode
  root := h.linked.rootHeld
  lookups := h.lookups
  used := fun id hid => h.exists_use hid
  locked := h.locked

def rootNode : Node :=
  { Node.zero with refctr := 1, nlookup := 1, name := some (CString.lit "/") }

theorem linked_root {f : Fuse} (hself : f.nodes rootId = some rootNode)
    (honly : forall id node, f.nodes id = some node -> id = rootId ∧ node = rootNode)
    (hids : Valid idHash tableMinSize f.idTable [rootId] 0)
    (hnames : Valid f.nameKey tableMinSize f.nameTable [] 0) (hfreed : f.freeNodes = []) :
    Linked f [rootId] [] [] noExtra := by
  refine ⟨⟨hids, hnames, List.nodup_singleton _, List.nodup_nil, ?_, ?_, ?_, ?_,
    ⟨List.mem_singleton_self _, List.not_mem_nil⟩, ?_, ?_⟩, ?_, ?_, ?_, ?_⟩
  · intro id
    rw [List.mem_singleton, ← nodes_ne_none_iff_links]
    constructor
    · rintro rfl
      rw [hself]
      exact Option.some_ne_none _
    · intro hlive
      rcases Option.ne_none_iff_exists'.mp hlive with ⟨node, hnode⟩
      exact (honly id node hnode).1
  · exact fun id hid => absurd hid List.not_mem_nil
  · exact fun a _ ha => absurd ha List.not_mem_nil
  · exact fun id hid hroot => absurd (List.mem_singleton.mp hid) hroot
  · rw [Fuse.key, hself]
    rfl
  · exact fun id _ => ⟨[id], Line.top (up_of_not_mem List.not_mem_nil)⟩
  · intro id node hnode
    rcases honly id node hnode with ⟨_, rfl⟩
    rfl
  · intro id node hnode hlock
    rcases honly id node hnode with ⟨_, rfl⟩
    exact absurd rfl hlock
  · intro node hnode
    rw [hfreed] at hnode
    exact absurd hnode List.not_mem_nil
  · exact ⟨rootNode, hself, Nat.one_pos⟩

theorem kept_start (supply : Supply) :
    exists f, fuseNew supply = some f ∧ Kept (start f) [rootId] [] := by
  have hempty : Valid idHash tableMinSize (LinearHash.empty tableMinSize) [] 0 :=
    valid_empty (by decide) (by decide)
  rcases hempty.insert (supply.realloc (LinearHash.empty tableMinSize)) rootId with
    ⟨t, ht, hids⟩
  generalize hnodes : Function.update (fun _ => none) rootId (some rootNode) = nodes
  have hself : nodes rootId = some rootNode := by
    rw [← hnodes, Function.update_self]
  have hother : forall id, id ≠ rootId -> nodes id = none := by
    intro id hid
    rw [← hnodes, Function.update_of_ne hid]
  have honly : forall id node, nodes id = some node -> id = rootId ∧ node = rootNode := by
    intro id node hnode
    by_cases hid : id = rootId
    · rw [hid, hself] at hnode
      cases hnode
      exact ⟨hid, rfl⟩
    · rw [hother id hid] at hnode
      cases hnode
  refine ⟨{ nodes := nodes, nameTable := LinearHash.empty tableMinSize, idTable := t, ctr := 0
            generation := 0, currTicket := 0, freeNodes := [] }, ?_,
    ⟨?_, ⟨Nat.two_pow_pos 32, Nat.two_pow_pos 32⟩, ?_, ?_, ?_,
      fun pair hpair => absurd hpair List.not_mem_nil, List.nodup_nil,
      fun id hid => absurd hid (Nat.lt_irrefl 0), ⟨?_, fun w hw => absurd hw List.not_mem_nil,
      fun w hw => absurd hw List.not_mem_nil⟩, fun w hw => absurd hw List.not_mem_nil⟩⟩
  · rw [← hnodes]
    simp only [fuseNew, hashId, ht, Option.bind_eq_bind, Option.bind_some, Option.pure_def]
    rfl
  · exact linked_root hself honly hids (valid_empty (by decide) (by decide)) rfl
  · refine locked_nil ?_
    intro id node hnode
    rcases honly id node hnode with ⟨_, rfl⟩
    rfl
  · intro id hid
    exact (nlookupAt_eq_zero (hother id hid)).symm
  · intro id node hnode
    rcases honly id node hnode with ⟨_, rfl⟩
    exact Nat.one_pos
  · intro id node hnode
    rcases honly id node hnode with ⟨_, rfl⟩
    exact Nat.le_refl _

/-!
## Rehearsing
-/

/-- The way up, as far as the rounds suffice. -/
def lineOf (f : Fuse) : Nat -> Nat -> Option (List Nat)
  | 0, _ => none
  | rounds + 1, id =>
      match f.parentOf id with
      | none => some [id]
      | some parent => (lineOf f rounds parent).map (fun line => id :: line)

theorem line_of_lineOf {f : Fuse} {rounds id : Nat} {line : List Nat}
    (h : lineOf f rounds id = some line) : Line f.parentOf id line := by
  induction rounds generalizing id line with
  | zero => cases h
  | succ rounds ih =>
      rw [lineOf] at h
      split at h
      · cases h
        exact Line.top ‹_›
      · rw [Option.map_eq_some_iff] at h
        rcases h with ⟨above, habove, rfl⟩
        exact Line.up ‹_› (ih habove)

instance (s : Exchange) (id : Nat) : Decidable (s.Knows id) :=
  inferInstanceAs (Decidable (_ ∨ _))

/-- A condition on the node of an entry. -/
instance decidableEntry (f : Fuse) (dir : Nat) (name : CString) (P : Nat -> Prop)
    [DecidablePred P] :
    Decidable (forall id, lookupNode f dir name = some (some id) -> P id) :=
  match _h : lookupNode f dir name with
  | none => isTrue (fun _ hid => nomatch hid)
  | some none => isTrue (fun _ hid => nomatch hid)
  | some (some id) => decidable_of_iff (P id)
      ⟨fun hp _ hid => Option.some.inj (Option.some.inj hid) ▸ hp, fun hp => hp id rfl⟩

instance (s : Exchange) (dir : Nat) (name : CString) : Decidable (s.Seen dir name) :=
  decidableEntry s.fuse dir name _

instance (s : Exchange) (dir : Nat) (name : CString) : Decidable (s.Claims dir name) :=
  inferInstanceAs (Decidable (exists l, l ∈ s.locks ∧ l.nodeid = dir ∧ l.name = some name ∧ _))

/-- What is allowed, as it can be computed. -/
def permits (call : Supply × NodeCall) (s : Exchange) : Bool :=
  match call.2 with
  | .find dir name => s.Knows dir ∧ s.Seen dir name ∧
      s.fuse.idTable.use + 2 < 2 ^ 32 ∧ s.fuse.generation + 1 < 2 ^ 32
  | .forget id n => id = rootId ∨ (0 < n ∧ n ≤ s.held id ∧
      forall w, w ∈ s.waiting -> w.nodeid = id -> n < s.held id)
  | .remove dir name => s.Claims dir name
  | .rename olddir oldname newdir newname _ => (olddir, oldname) ≠ (newdir, newname) ∧
      s.Claims olddir oldname ∧ s.Claims newdir newname
  | .lock _ nodeid name wr retry =>
      (match retry with
        | none => s.Knows nodeid ∧ s.fuse.currTicket + 1 < 2 ^ 31
        | some ticket => (⟨ticket, nodeid, name, wr⟩ : Waiting) ∈ s.waiting : Bool) &&
      (match name with
        | none => wr = false
        | some n => wr = true -> s.Seen nodeid n : Bool) &&
      (match lineOf s.fuse (s.fuse.depth + 1) nodeid with
        | none => false
        | some line => (ending name).length + 1 + s.fuse.spellSize line ≤ 0xffffffff : Bool)
  | .unlock l => l ∈ s.locks

theorem allowed_of_permits {call : Supply × NodeCall} {s : Exchange}
    (h : permits call s = true) : Allowed call s := by
  rcases call with ⟨supply, call⟩
  cases call with
  | lock room nodeid name wr retry =>
      simp only [permits, Bool.and_eq_true] at h
      rcases h with ⟨⟨hretry, hwr⟩, hline⟩
      refine ⟨?_, ?_, ?_⟩
      · rcases retry with _ | ticket
        · exact of_decide_eq_true hretry
        · exact of_decide_eq_true hretry
      · intro hwrite
        rcases name with _ | n
        · exact absurd (hwrite.symm.trans (of_decide_eq_true hwr)) (by decide)
        · exact ⟨n, rfl, of_decide_eq_true hwr hwrite⟩
      · intro line hup
        split at hline
        · cases hline
        · rename_i line' hsome
          rw [hup.unique (line_of_lineOf hsome)]
          exact of_decide_eq_true hline
  | _ =>
      simp only [permits, decide_eq_true_eq] at h
      exact h

/-- A run whose steps are checked before they are taken. -/
def rehearse : List (Supply × NodeCall) -> Exchange -> Option Exchange
  | [], s => some s
  | call :: calls, s =>
      if permits call s = true then
        match step call s with
        | .error _ => none
        | .ok s' => rehearse calls s'
      else none

theorem guarded_of_rehearse {calls : List (Supply × NodeCall)} {s s' : Exchange}
    (h : rehearse calls s = some s') :
    Guarded step Allowed calls s ∧ Library.run step calls s = .ok s' := by
  induction calls generalizing s with
  | nil =>
      cases h
      exact ⟨trivial, rfl⟩
  | cons call calls ih =>
      rw [rehearse] at h
      split at h
      · rename_i hpermits
        split at h
        · cases h
        · rename_i s1 hstep
          rcases ih h with ⟨hguard, hrun⟩
          refine ⟨(guarded_cons_iff hstep calls).mpr ⟨allowed_of_permits hpermits, hguard⟩, ?_⟩
          rw [Library.run, hstep]
          exact hrun
      · cases h

end Exchange

section Runs

variable (supply : Supply) (calls : List (Supply × NodeCall))

/-- Every request is served: no assertion fails, no search aborts, and no freed node is
accessed.  After the last one the tables, the counts and the kernel agree. -/
theorem requests_served (hguard : forall f, fuseNew supply = some f ->
      Guarded Exchange.step Exchange.Allowed calls (Exchange.start f)) :
    exists f s, fuseNew supply = some f ∧
      run Exchange.step calls (Exchange.start f) = .ok s ∧ s.Sound := by
  rcases Exchange.kept_start supply with ⟨f, hnew, hkept⟩
  rcases hkept.run (hguard f hnew) with ⟨s, _, _, hrun, hlast⟩
  exact ⟨f, s, hnew, hrun, hlast.sound⟩

theorem kept_run {f : Fuse} {s : Exchange} (hnew : fuseNew supply = some f)
    (hguard : Guarded Exchange.step Exchange.Allowed calls (Exchange.start f))
    (hrun : run Exchange.step calls (Exchange.start f) = .ok s) :
    exists ids named, s.Kept ids named := by
  rcases Exchange.kept_start supply with ⟨f', hnew', hkept⟩
  rw [hnew] at hnew'
  cases hnew'
  rcases hkept.run hguard with ⟨s', ids, named, hrun', hlast⟩
  rw [hrun] at hrun'
  cases hrun'
  exact ⟨ids, named, hlast⟩

/-- Nothing is leaked: when the kernel has forgotten all nodes but the root, they are freed. -/
theorem forgotten_freed (f : Fuse) (s : Exchange) (hnew : fuseNew supply = some f)
    (hguard : Guarded Exchange.step Exchange.Allowed calls (Exchange.start f))
    (hrun : run Exchange.step calls (Exchange.start f) = .ok s)
    (hforgotten : forall id, id ≠ rootId -> s.held id = 0) (id : Nat) :
    s.fuse.nodes id ≠ none <-> id = rootId := by
  rcases kept_run supply calls hnew hguard hrun with ⟨_, _, hkept⟩
  constructor
  · exact hkept.eq_root hforgotten
  · rintro rfl
    rcases hkept.linked.rootHeld with ⟨root, hroot, _⟩
    rw [hroot]
    exact Option.some_ne_none _

/-- A number that is used again has another generation. -/
theorem numbers_unique (f : Fuse) (s : Exchange) (hnew : fuseNew supply = some f)
    (hguard : Guarded Exchange.step Exchange.Allowed calls (Exchange.start f))
    (hrun : run Exchange.step calls (Exchange.start f) = .ok s) : s.made.Nodup := by
  rcases kept_run supply calls hnew hguard hrun with ⟨_, _, hkept⟩
  exact hkept.distinct

/-- A path that was handed out stays the path of its node until it is given back, and what is
locked for writing is on nobody's path and is locked by one request only. -/
theorem locked_paths (f : Fuse) (s : Exchange) (hnew : fuseNew supply = some f)
    (hguard : Guarded Exchange.step Exchange.Allowed calls (Exchange.start f))
    (hrun : run Exchange.step calls (Exchange.start f) = .ok s) :
    (forall l, l ∈ s.locks -> exists line text, Route s.fuse l.nodeid line text ∧
      l.path.bytes = spell text l.name) ∧
    forall l w, l ∈ s.locks -> l.wnode = some w -> writers s.locks w = 1 ∧
      forall k, k ∈ s.locks -> ¬ Above s.fuse k.nodeid w := by
  rcases kept_run supply calls hnew hguard hrun with ⟨_, _, hkept⟩
  refine ⟨hkept.locked.reach, ?_⟩
  intro l w hl hw
  rcases hkept.locked.wheld l w hl hw with ⟨node, hnode, _⟩
  rcases hkept.locked.treelock_wnode hl hw hnode with ⟨hone, hzero, _⟩
  refine ⟨hone, ?_⟩
  intro k hk habove
  have hpos := hkept.locked.treelock_pos hk habove hnode
  lia

end Runs

/-- Nothing is refused, and the memory of freed nodes is not used. -/
def ampleSupply : Supply :=
  { allocNode := some none, strdup := true, realloc := fun _ => true }

/-- A freed node is used again, with what its memory holds. -/
def thriftySupply : Supply :=
  { ampleSupply with allocNode := some (some 0) }

/-- A run from `fuse_new` that is checked on the way, and what it ends with. -/
theorem guarded_of_new {calls : List (Supply × NodeCall)} {p : Exchange -> Bool} {f : Fuse}
    (hnew : fuseNew ampleSupply = some f)
    (h : ((fuseNew ampleSupply).bind
      (fun f => Exchange.rehearse calls (Exchange.start f))).any p = true) :
    Guarded Exchange.step Exchange.Allowed calls (Exchange.start f) ∧
      exists s, run Exchange.step calls (Exchange.start f) = .ok s ∧ p s = true := by
  rw [hnew, Option.bind_some] at h
  cases hrun : Exchange.rehearse calls (Exchange.start f) with
  | none =>
      rw [hrun] at h
      cases h
  | some s =>
      rw [hrun] at h
      rcases Exchange.guarded_of_rehearse hrun with ⟨hguard, hdone⟩
      exact ⟨hguard, s, hdone, h⟩

def roomy (_ : Nat) : Option (Nat -> Byte) := some (fun _ => 0)

def homeLock (dir : Nat) (name : String) (wnode : Option Nat) (path : String) : Lock :=
  { nodeid := dir, name := some (CString.lit name), wnode := wnode, path := CString.lit path }

/-- The nodes 2 to 4 are made, one path is locked for reading and two for writing.  Two
requests have to wait, the first for what is renamed then and the second for its directory. -/
def busyCalls : List (Supply × NodeCall) :=
  [(ampleSupply, .find rootId (CString.lit "home")),
    (ampleSupply, .find rootId (CString.lit "etc")),
    (ampleSupply, .find 2 (CString.lit "old")),
    (ampleSupply, .lock roomy 2 (some (CString.lit "bin")) false none),
    (ampleSupply, .lock roomy 2 (some (CString.lit "old")) true none),
    (ampleSupply, .lock roomy 2 (some (CString.lit "new")) true none),
    (ampleSupply, .lock roomy 4 (some (CString.lit "x")) false none),
    (ampleSupply, .lock roomy rootId (some (CString.lit "home")) true none),
    (ampleSupply, .rename 2 (CString.lit "old") 2 (CString.lit "new") false)]

/-- The paths are given back and the requests come back: the first has to wait for the second
now, which removes the directory; its node is made anew, and all nodes are forgotten. -/
def quietCalls : List (Supply × NodeCall) :=
  [(ampleSupply, .unlock (homeLock 2 "bin" none "/home/bin")),
    (ampleSupply, .unlock (homeLock 2 "old" (some 4) "/home/old")),
    (ampleSupply, .unlock (homeLock 2 "new" none "/home/new")),
    (ampleSupply, .lock roomy 4 (some (CString.lit "x")) false (some 4)),
    (ampleSupply, .lock roomy rootId (some (CString.lit "home")) true (some 5)),
    (ampleSupply, .remove rootId (CString.lit "home")),
    (ampleSupply, .unlock (homeLock rootId "home" (some 2) "/home")),
    (ampleSupply, .lock roomy 4 (some (CString.lit "x")) false (some 4)),
    (ampleSupply, .forget 3 1),
    (thriftySupply, .find rootId (CString.lit "home")),
    (ampleSupply, .forget 4 1),
    (ampleSupply, .forget 2 1),
    (ampleSupply, .forget 5 1)]

def homeCalls : List (Supply × NodeCall) :=
  busyCalls ++ quietCalls

/-- Two paths are locked for reading, one of them behind a rename, and one for writing. -/
def isBusy (s : Exchange) : Bool :=
  s.locks.map Lock.wnode = [none, some 4, none] ∧ s.waiting.map Waiting.ticket = [5, 4]

/-- Four nodes were made, and none is counted. -/
def isQuiet (s : Exchange) : Bool :=
  s.made.map Prod.fst = [5, 4, 3, 2] ∧ s.fuse.freeNodes.length = 3 ∧
    forall pair, pair ∈ s.made -> s.held pair.1 = 0

theorem rehearse_busyCalls : ((fuseNew ampleSupply).bind
    (fun f => Exchange.rehearse busyCalls (Exchange.start f))).any isBusy = true := by
  decide +kernel

theorem rehearse_homeCalls : ((fuseNew ampleSupply).bind
    (fun f => Exchange.rehearse homeCalls (Exchange.start f))).any isQuiet = true := by
  decide +kernel

theorem requests_served_home :
    exists f s, fuseNew ampleSupply = some f ∧
      run Exchange.step homeCalls (Exchange.start f) = .ok s ∧ s.Sound :=
  requests_served ampleSupply homeCalls
    (fun _ hnew => (guarded_of_new hnew rehearse_homeCalls).1)

theorem numbers_unique_home :
    exists f s, fuseNew ampleSupply = some f ∧
      run Exchange.step homeCalls (Exchange.start f) = .ok s ∧
      s.made.map Prod.fst = [5, 4, 3, 2] ∧ s.made.Nodup := by
  rcases Exchange.kept_start ampleSupply with ⟨f, hnew, _⟩
  rcases guarded_of_new hnew rehearse_homeCalls with ⟨hguard, s, hrun, hquiet⟩
  exact ⟨f, s, hnew, hrun, (of_decide_eq_true hquiet).1,
    numbers_unique ampleSupply homeCalls f s hnew hguard hrun⟩

theorem locked_paths_busy :
    exists f s, fuseNew ampleSupply = some f ∧
      run Exchange.step busyCalls (Exchange.start f) = .ok s ∧
      s.locks.map Lock.wnode = [none, some 4, none] ∧
      (forall l, l ∈ s.locks -> exists line text, Route s.fuse l.nodeid line text ∧
        l.path.bytes = spell text l.name) ∧
      forall l w, l ∈ s.locks -> l.wnode = some w -> writers s.locks w = 1 ∧
        forall k, k ∈ s.locks -> ¬ Above s.fuse k.nodeid w := by
  rcases Exchange.kept_start ampleSupply with ⟨f, hnew, _⟩
  rcases guarded_of_new hnew rehearse_busyCalls with ⟨hguard, s, hrun, hbusy⟩
  exact ⟨f, s, hnew, hrun, (of_decide_eq_true hbusy).1,
    locked_paths ampleSupply busyCalls f s hnew hguard hrun⟩

/-- The nodes 2 to 5 were made, one with the memory of another, and are freed. -/
theorem forgotten_freed_home :
    exists f s, fuseNew ampleSupply = some f ∧
      run Exchange.step homeCalls (Exchange.start f) = .ok s ∧
      s.made.map Prod.fst = [5, 4, 3, 2] ∧
      forall id, s.fuse.nodes id ≠ none <-> id = rootId := by
  rcases Exchange.kept_start ampleSupply with ⟨f, hnew, _⟩
  rcases guarded_of_new hnew rehearse_homeCalls with ⟨hguard, s, hrun, hquiet⟩
  rcases of_decide_eq_true hquiet with ⟨hmade, _, hzero⟩
  rcases kept_run ampleSupply homeCalls hnew hguard hrun with ⟨_, _, hkept⟩
  refine ⟨f, s, hnew, hrun, hmade, forgotten_freed ampleSupply homeCalls f s hnew
    hguard hrun ?_⟩
  intro id _
  by_contra hpos
  rcases hkept.counted id (Nat.pos_of_ne_zero hpos) with ⟨generation, hmem⟩
  exact hpos (hzero _ hmem)

end ShadowFs.Libfuse

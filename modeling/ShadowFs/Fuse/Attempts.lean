import ShadowFs.Fuse.LockedPaths

/-!
# Attempts to lock a path

An attempt adds a lock to those that are held, or it leaves them all as they are.  Giving a
path back takes its lock away.
-/

namespace ShadowFs.Libfuse

open CLib Library LinearHash

def Node.wlock (node : Node) : Node :=
  { node with treelock := -1, ticket := 0 }

/-- A node no longer locked for writing, with a ticket left on it. -/
def Node.wunlock (ticket : Nat) (node : Node) : Node :=
  { node with treelock := 0, ticket := if node.ticket = 0 then ticket else node.ticket }

variable {f f' : Fuse} {ids named below : List Nat} {locks : List Lock}
  {id nodeid ticket : Nat} {node : Node} {wnode : Option Nat} {text : List Byte}

theorem onNodes_singleton (hnode : f.nodes id = some node) (g : Node -> Node) :
    f.onNodes [id] g = f.put id (some (g node)) := by
  rw [← onNodes_cons hnode List.not_mem_nil, onNodes_nil]

theorem Route.nulFree (h : Route f id below text) : (0 : Byte) ∉ text := by
  induction h with
  | root => exact List.not_mem_nil
  | @up id parent name line text hkey habove ih =>
      have hslash : (0 : Byte) ≠ slash := by decide
      rw [List.mem_append, List.mem_cons]
      exact fun hor => hor.elim ih (fun hor => hor.elim hslash name.nulFree)

theorem Route.mem_self (h : Route f id below text) (hid : id ≠ rootId) : id ∈ below := by
  cases h with
  | root => exact absurd rfl hid
  | up hkey habove => exact List.mem_cons_self

theorem ending_nulFree (name : Option CString) : (0 : Byte) ∉ ending name := by
  rcases name with _ | name
  · exact List.not_mem_nil
  · have hslash : (0 : Byte) ≠ slash := by decide
    rw [ending, List.mem_cons]
    exact fun hor => hor.elim hslash name.nulFree

theorem pathString_spell (hnul : (0 : Byte) ∉ text) (name : Option CString) {b : PathBuffer}
    (hfits : b.Fits) (htext : b.text = text ++ ending name ++ [0]) :
    exists path, pathString b = some path ∧ path.bytes = spell text name := by
  have hwhole : (0 : Byte) ∉ text ++ ending name := by
    rw [List.mem_append]
    exact fun hor => hor.elim hnul (ending_nulFree name)
  generalize hbytes : text ++ ending name = bytes at hwhole htext
  have hstring : b.text = (CString.mk bytes hwhole).bytes ++ [0] := htext
  refine ⟨_, pathString_spec hfits hstring, ?_⟩
  rw [spell, hbytes]
  split
  · rfl
  · rfl

/-!
## Acquiring and giving back
-/

/-- What becomes of a node when the last node of a path and the others are changed. -/
def PathNode (wnode : Option Nat) (below : List Nat) (x : Nat) (last other same : Node)
    (node' : Node) : Prop :=
  (wnode = some x ∧ node' = last) ∨ (wnode ≠ some x ∧ x ∈ below ∧ node' = other) ∨
    (wnode ≠ some x ∧ x ∉ below ∧ node' = same)

theorem onNodes_path {g g' : Node -> Node} {x : Nat} {node' : Node}
    (hapart : forall w, wnode = some w -> w ∉ below)
    (hx : ((f.onNodes wnode.toList g).onNodes below g').nodes x = some node') :
    exists node, f.nodes x = some node ∧
      PathNode wnode below x (g node) (g' node) node node' := by
  by_cases hw : wnode = some x
  · have hmem : x ∈ wnode.toList := by
      rw [hw]
      exact List.mem_singleton_self x
    rw [onNodes_of_not_mem (hapart x hw), onNodes_of_mem hmem, Option.map_eq_some_iff] at hx
    rcases hx with ⟨node, hnode, rfl⟩
    exact ⟨node, hnode, Or.inl ⟨hw, rfl⟩⟩
  · have hother : (f.onNodes wnode.toList g).nodes x = f.nodes x := by
      refine onNodes_of_not_mem ?_ f g
      rw [Option.mem_toList]
      exact hw
    by_cases hb : x ∈ below
    · rw [onNodes_of_mem hb, hother, Option.map_eq_some_iff] at hx
      rcases hx with ⟨node, hnode, rfl⟩
      exact ⟨node, hnode, Or.inr (Or.inl ⟨hw, hb, rfl⟩)⟩
    · rw [onNodes_of_not_mem hb, hother] at hx
      exact ⟨node', hx, Or.inr (Or.inr ⟨hw, hb, rfl⟩)⟩

theorem relocked_path (f : Fuse) (wnode : Option Nat) (below : List Nat) {g g' : Node -> Node}
    (hg : forall node, (g node).unlocked = node.unlocked)
    (hg' : forall node, (g' node).unlocked = node.unlocked) :
    Relocked f ((f.onNodes wnode.toList g).onNodes below g') :=
  (Relocked.onNodes f wnode.toList hg).trans (Relocked.onNodes _ below hg')

/-- No node has a new ticket, and none that has one is newly locked for writing. -/
def Quiet (f f' : Fuse) : Prop :=
  forall x node node', f.nodes x = some node -> f'.nodes x = some node' -> node'.ticket ≠ 0 ->
    node'.ticket = node.ticket ∧ (node'.treelock = -1 -> node.treelock = -1)

theorem quiet_acquire (hapart : forall w, wnode = some w -> w ∉ below) :
    Quiet f ((f.onNodes wnode.toList Node.wlock).onNodes below Node.lock) := by
  intro x node node' hnode hnode' hticket
  rcases onNodes_path hapart hnode' with
    ⟨old, hold, ⟨_, rfl⟩ | ⟨_, _, rfl⟩ | ⟨_, _, rfl⟩⟩
  · exact absurd rfl hticket
  · exact absurd rfl hticket
  · rw [hnode] at hold
    cases hold
    exact ⟨rfl, id⟩

theorem quiet_release (hapart : forall w, wnode = some w -> w ∉ below)
    (hbelow : forall x, x ∈ below -> exists node, f.nodes x = some node ∧ 0 < node.treelock) :
    Quiet f ((f.onNodes wnode.toList (Node.wunlock 0)).onNodes below (Node.unlock 0)) := by
  have hsame : forall node : Node, (if node.ticket = 0 then 0 else node.ticket) = node.ticket := by
    intro node
    split
    · exact Eq.symm ‹_›
    · rfl
  intro x node node' hnode hnode' _
  rcases onNodes_path hapart hnode' with
    ⟨old, hold, ⟨_, rfl⟩ | ⟨_, hb, rfl⟩ | ⟨_, _, rfl⟩⟩ <;> rw [hnode] at hold <;> cases hold
  · refine ⟨hsame node, ?_⟩
    rw [Node.wunlock]
    lia
  · refine ⟨hsame node, ?_⟩
    rcases hbelow x hb with ⟨node1, hnode1, hpos⟩
    rw [hnode] at hnode1
    cases hnode1
    rw [Node.unlock]
    dsimp only
    lia
  · exact ⟨rfl, id⟩

theorem Locked.acquire (h : Locked f locks) (hroot : f.key rootId = none)
    (hheld : f.Holds nodeid) (hroute : Route f nodeid below text) {name : Option CString}
    {path : CString} (hpath : path.bytes = spell text name)
    (hfree : forall x node, x ∈ below -> f.nodes x = some node -> node.treelock ≠ -1)
    (hwnode : forall w, wnode = some w -> f.Holds w ∧ w ∉ below ∧
      forall node, f.nodes w = some node -> node.treelock = 0) :
    Locked ((f.onNodes wnode.toList Node.wlock).onNodes below Node.lock)
      (⟨nodeid, name, wnode, path⟩ :: locks) := by
  generalize hgrown : (f.onNodes wnode.toList Node.wlock).onNodes below Node.lock = f'
  have hrelocked : Relocked f f' := by
    rw [← hgrown]
    exact relocked_path f _ below (fun _ => rfl) (fun _ => rfl)
  have hnew : forall x node', f'.nodes x = some node' -> exists node, f.nodes x = some node ∧
      PathNode wnode below x node.wlock node.lock node node' := by
    intro x node' hx
    rw [← hgrown] at hx
    exact onNodes_path (fun w hw => (hwnode w hw).2.1) hx
  have habove : forall n x, Above f' n x <-> Above f n x := fun n x => above_congr hrelocked.key
  have hreaders : forall x, readers f' locks x = readers f locks x :=
    fun x => readers_congr (fun l _ => habove l.nodeid x)
  refine ⟨?_, ?_, ?_, ?_⟩
  · intro l hl
    rcases List.mem_cons.mp hl with rfl | hl
    · exact ⟨below, text, hroute.congr (fun x _ => congrFun hrelocked.key x), hpath⟩
    · rcases h.reach l hl with ⟨line, ltext, hlroute, hlpath⟩
      exact ⟨line, ltext, hlroute.congr (fun x _ => congrFun hrelocked.key x), hlpath⟩
  · intro l hl
    rw [hrelocked.holds_iff]
    rcases List.mem_cons.mp hl with rfl | hl
    · exact hheld
    · exact h.held l hl
  · intro l w hl hw
    rw [hrelocked.holds_iff]
    rcases List.mem_cons.mp hl with rfl | hl
    · exact (hwnode w hw).1
    · exact h.wheld l w hl hw
  · intro x node' hx
    have hcons := readers_cons f' ⟨nodeid, name, wnode, path⟩ locks x
    rw [habove, above_iff hroute hroot, hreaders] at hcons
    rw [writers_cons]
    rcases hnew x node' hx with
      ⟨node, hnode, ⟨hw, rfl⟩ | ⟨hw, hb, rfl⟩ | ⟨hw, hb, rfl⟩⟩
    · have hzero := (hwnode x hw).2.2 node hnode
      rw [if_pos hw, hcons.2 (hwnode x hw).2.1]
      right
      rcases h.counts x node hnode with ⟨hnone, heq⟩ | ⟨_, _, heq⟩
      · refine ⟨by lia, by lia, rfl⟩
      · lia
    · rw [if_neg hw, hcons.1 hb]
      left
      rcases h.counts x node hnode with ⟨hnone, heq⟩ | ⟨_, _, heq⟩
      · refine ⟨by lia, ?_⟩
        rw [Node.lock, heq]
        rfl
      · exact absurd heq (hfree x node hb hnode)
    · rw [if_neg hw, hcons.2 hb]
      exact h.counts x node' hnode

theorem Locked.release {l : Lock} (h : Locked f (l :: locks)) (hroot : f.key rootId = none)
    (hroute : Route f l.nodeid below text)
    (hapart : forall w, l.wnode = some w -> w ∉ below) :
    Locked ((f.onNodes l.wnode.toList (Node.wunlock 0)).onNodes below (Node.unlock 0))
      locks := by
  generalize hless : (f.onNodes l.wnode.toList (Node.wunlock 0)).onNodes below (Node.unlock 0) =
    f'
  have hrelocked : Relocked f f' := by
    rw [← hless]
    exact relocked_path f _ below (fun _ => rfl) (fun _ => rfl)
  have hnew : forall x node', f'.nodes x = some node' -> exists node, f.nodes x = some node ∧
      PathNode l.wnode below x (node.wunlock 0) (node.unlock 0) node node' := by
    intro x node' hx
    rw [← hless] at hx
    exact onNodes_path hapart hx
  have hreaders : forall x, readers f' locks x = readers f locks x :=
    fun x => readers_congr (fun l _ => above_congr hrelocked.key)
  refine ⟨?_, ?_, ?_, ?_⟩
  · intro k hk
    rcases h.reach k (List.mem_cons_of_mem l hk) with ⟨line, ktext, hkroute, hpath⟩
    exact ⟨line, ktext, hkroute.congr (fun x _ => congrFun hrelocked.key x), hpath⟩
  · intro k hk
    exact hrelocked.holds_iff.mpr (h.held k (List.mem_cons_of_mem l hk))
  · intro k w hk hw
    exact hrelocked.holds_iff.mpr (h.wheld k w (List.mem_cons_of_mem l hk) hw)
  · intro x node' hx
    have hcons := readers_cons f l locks x
    rw [above_iff hroute hroot] at hcons
    rw [hreaders]
    rcases hnew x node' hx with
      ⟨node, hnode, ⟨hw, rfl⟩ | ⟨hw, hb, rfl⟩ | ⟨hw, hb, rfl⟩⟩
    · have hcounts := h.counts x node hnode
      rw [writers_cons, if_pos hw, hcons.2 (hapart x hw)] at hcounts
      left
      rcases hcounts with ⟨hnone, _⟩ | ⟨hone, hzero, _⟩
      · lia
      · refine ⟨by lia, ?_⟩
        rw [hzero]
        rfl
    · have hcounts := h.counts x node hnode
      rw [writers_cons, if_neg hw, hcons.1 hb] at hcounts
      left
      rcases hcounts with ⟨hnone, heq⟩ | ⟨_, hzero, _⟩
      · refine ⟨hnone, ?_⟩
        rw [Node.unlock, heq]
        push_cast
        lia
      · lia
    · have hcounts := h.counts x node' hnode
      rw [writers_cons, if_neg hw, hcons.2 hb] at hcounts
      exact hcounts

/-!
## Steps of an attempt
-/

theorem startPath_spec (room : Nat -> Option (Nat -> Byte)) (name : Option CString)
    (hsize : (ending name).length + 1 ≤ 0xffffffff) :
    startPath room name = some none ∨
      exists b, startPath room name = some (some b) ∧ b.Fits ∧ b.text = ending name ++ [0] := by
  rw [startPath]
  rcases room 256 with _ | junk
  · exact Or.inl rfl
  · rcases newPath_fits junk with ⟨hfits, htext⟩
    rcases name with _ | name
    · exact Or.inr ⟨newPath junk, rfl, hfits, htext⟩
    · have hlen : (newPath junk).text.length + name.length + 1 ≤ 0xffffffff := by
        rw [ending, List.length_cons] at hsize
        have hbytes : name.bytes.length = name.length := rfl
        rw [htext, List.length_singleton]
        lia
      rcases addName_spec room hfits hlen with hfull | ⟨b, hadd, hbfits, hbtext⟩
      · exact Or.inl hfull
      · refine Or.inr ⟨b, hadd, hbfits, ?_⟩
        rw [hbtext, htext]
        rfl

/-- What `try_get_path` does about the node that is going to be changed. -/
inductive Wlocked (f : Fuse) (nodeid ticket : Nat) (name : CString) :
    Except Unit (Option Nat) -> Fuse -> Prop
  | absent (hfind : lookupNode f nodeid name = some none) :
      Wlocked f nodeid ticket name (.ok none) f
  | taken {w : Nat} {node : Node} (hfind : lookupNode f nodeid name = some (some w))
      (hnode : f.nodes w = some node) (hfree : node.treelock = 0) :
      Wlocked f nodeid ticket name (.ok (some w)) (f.onNodes [w] Node.wlock)
  | busy {f' : Fuse} (hretagged : Retagged nodeid ticket f f') :
      Wlocked f nodeid ticket name (.error ()) f'

theorem lockWnode_spec (h : Linked f ids named [] noExtra) (hticket : ticket ≠ 0)
    (nodeid : Nat) (name : CString) :
    exists out f', lockWnode nodeid (some name) ticket f = some (out, f') ∧
      Wlocked f nodeid ticket name out f' := by
  rcases h.lookupNode nodeid name with ⟨found, hfind, hsome, _⟩
  rcases found with _ | w
  · refine ⟨.ok none, f, ?_, Wlocked.absent hfind⟩
    simp only [lockWnode, if_neg hticket, hfind, Option.bind_eq_bind, Option.bind_some,
      Option.pure_def]
  · rcases hsome w rfl with ⟨hw, hkey⟩
    rcases h.exists_node (h.mem_ids hw) with ⟨node, hnode⟩
    by_cases hbusy : node.treelock ≠ 0 ∨ (node.ticket ≠ 0 ∧ node.ticket ≠ ticket)
    · refine ⟨.error (), if node.ticket = 0 then f.put w (some { node with ticket := ticket })
        else f, ?_, Wlocked.busy ?_⟩
      · simp only [lockWnode, if_neg hticket, hfind, hnode, if_pos hbusy, Option.bind_eq_bind,
          Option.bind_some, Option.pure_def]
      · have hup : f.parentOf w = some nodeid := by
          rw [Fuse.parentOf, hkey, Option.map_some]
        split
        · have htag : Retagged nodeid ticket f
              (f.onNodes [w] (fun n => { n with ticket := ticket })) := by
            refine Retagged.onNodes f [w] (fun _ => ⟨rfl, rfl⟩) ?_
            intro x _ hx _
            rw [List.mem_singleton.mp hx]
            refine Or.inr ⟨rfl, ?_, ?_⟩
            · rw [hkey]
              exact Option.some_ne_none _
            · -- It is below the node whose path is wanted.
              intro line hline hmem
              exact absurd hmem (List.nodup_cons.mp (Line.up hup hline).nodup).1
          rw [onNodes_singleton hnode] at htag
          exact htag
        · exact Retagged.refl f
    · have hfree : node.treelock = 0 := not_not.mp (fun hne => hbusy (Or.inl hne))
      refine ⟨.ok (some w), f.onNodes [w] Node.wlock, ?_, Wlocked.taken hfind hnode hfree⟩
      rw [onNodes_singleton hnode]
      simp only [lockWnode, if_neg hticket, hfind, hnode, if_neg hbusy, Option.bind_eq_bind,
        Option.bind_some, Option.pure_def]
      rfl

theorem unlockPath_eq (hvalid : Valid idHash tableMinSize f.idTable ids 0)
    (hnodeid : nodeid ∈ ids) (hroot : f.key rootId = none) {stop : Option Nat} (ticket : Nat)
    {rest : List Nat} {last : Nat} (hline : Line f.parentOf nodeid (below ++ last :: rest))
    (hdepth : (below ++ last :: rest).length ≤ f.depth)
    (hbelow : forall x, x ∈ below -> exists node, f.nodes x = some node ∧ 0 < node.treelock)
    (hwnode : forall w, wnode = some w -> exists node, f.nodes w = some node ∧
      node.treelock = -1)
    (hstop : forall x, x ∈ below -> some x ≠ stop) (hend : some last = stop ∨ last = rootId) :
    unlockPath nodeid wnode stop ticket f =
      some ((f.onNodes wnode.toList (Node.wunlock ticket)).onNodes below
        (Node.unlock ticket)) := by
  have hfirst : unlockWnode wnode ticket f =
      some (f.onNodes wnode.toList (Node.wunlock ticket)) := by
    rcases wnode with _ | w
    · rw [Option.toList_none, onNodes_nil]
      rfl
    · rcases hwnode w rfl with ⟨node, hnode, hlock⟩
      rw [Option.toList_some, onNodes_singleton hnode]
      simp only [unlockWnode, hnode, if_pos hlock, Option.bind_eq_bind, Option.bind_some,
        Option.pure_def]
      rfl
  have hrelocked : Relocked f (f.onNodes wnode.toList (Node.wunlock ticket)) :=
    Relocked.onNodes f _ (fun _ => rfl)
  have hbelow1 : forall x, x ∈ below -> exists node,
      (f.onNodes wnode.toList (Node.wunlock ticket)).nodes x = some node ∧ 0 < node.treelock := by
    intro x hx
    rcases hbelow x hx with ⟨node, hnode, hpos⟩
    refine ⟨node, ?_, hpos⟩
    rw [onNodes_of_not_mem, hnode]
    rw [Option.mem_toList]
    intro hw
    rcases hwnode x hw with ⟨node', hnode', hlock⟩
    rw [hnode] at hnode'
    cases hnode'
    lia
  have hline1 : Line (f.onNodes wnode.toList (Node.wunlock ticket)).parentOf nodeid
      (below ++ last :: rest) := by
    rw [hrelocked.parentOf]
    exact hline
  rw [List.length_append, List.length_cons] at hdepth
  have hget : getNode (f.onNodes wnode.toList (Node.wunlock ticket)) nodeid = some nodeid :=
    getNode_eq (f := f.onNodes wnode.toList (Node.wunlock ticket)) hvalid hnodeid
  have hrounds : below.length < (f.onNodes wnode.toList (Node.wunlock ticket)).depth + 1 := by
    rw [hrelocked.depth]
    lia
  have hloop := unlockLoop_spec ticket hline1 hbelow1 hstop
    ((congrFun hrelocked.key rootId).trans hroot) hend hrounds
  rw [unlockPath, hfirst, Option.bind_eq_bind, Option.bind_some, hget, Option.bind_eq_bind,
    Option.bind_some, hloop]

/-- What is given back before the path was had is locked as before. -/
theorem retagged_undo (hkeys : forall x, x ∈ below -> f.key x ≠ none)
    (hfree : forall x node, x ∈ below -> f.nodes x = some node -> node.treelock ≠ -1)
    (hwnode : forall w, wnode = some w -> w ∉ below ∧ f.key w ≠ none ∧
      forall node, f.nodes w = some node -> node.treelock = 0) (nodeid ticket : Nat) :
    Retagged nodeid ticket f ((((f.onNodes wnode.toList Node.wlock).onNodes below Node.lock).onNodes
      wnode.toList (Node.wunlock ticket)).onNodes below (Node.unlock ticket)) where
  toRelocked := by
    have hfirst : Relocked f ((f.onNodes wnode.toList Node.wlock).onNodes below Node.lock) :=
      relocked_path f wnode below (fun _ => rfl) (fun _ => rfl)
    exact hfirst.trans (relocked_path _ wnode below (fun _ => rfl) (fun _ => rfl))
  locks := by
    intro x node node' hnode hnode'
    by_cases hw : wnode = some x
    · rcases hwnode x hw with ⟨hout, hkey, hzero⟩
      have hmem : x ∈ wnode.toList := by
        rw [hw]
        exact List.mem_singleton_self x
      rw [onNodes_of_not_mem hout, onNodes_of_mem hmem, onNodes_of_not_mem hout,
        onNodes_of_mem hmem, hnode] at hnode'
      cases hnode'
      refine ⟨(hzero node hnode).symm, fun _ => Or.inr ⟨rfl, hkey, ?_⟩⟩
      intro _ _ _
      rw [hzero node hnode]
      decide
    · have hmem : x ∉ wnode.toList := by
        rw [Option.mem_toList]
        exact hw
      by_cases hb : x ∈ below
      · rw [onNodes_of_mem hb, onNodes_of_not_mem hmem, onNodes_of_mem hb,
          onNodes_of_not_mem hmem, hnode] at hnode'
        cases hnode'
        exact ⟨Int.add_sub_cancel node.treelock 1,
          fun _ => Or.inr ⟨rfl, hkeys x hb, fun _ _ _ => hfree x node hb hnode⟩⟩
      · rw [onNodes_of_not_mem hb, onNodes_of_not_mem hmem, onNodes_of_not_mem hb,
          onNodes_of_not_mem hmem, hnode] at hnode'
        cases hnode'
        exact ⟨rfl, fun _ => Or.inl rfl⟩

/-!
## Attempts
-/

inductive Attempted (f : Fuse) (locks : List Lock) (nodeid ticket : Nat)
    (name : Option CString) : Except Int (CString × Option Nat) -> Fuse -> Prop
  | failed {err : Int} {f' : Fuse} (hretagged : Retagged nodeid ticket f f') :
      Attempted f locks nodeid ticket name (.error err) f'
  | done {path : CString} {wnode : Option Nat} {f' : Fuse} (hrelocked : Relocked f f')
      (hlocked : Locked f' (⟨nodeid, name, wnode, path⟩ :: locks)) (hquiet : Quiet f f') :
      Attempted f locks nodeid ticket name (.ok (path, wnode)) f'

/-- The node that is going to be changed: the kernel holds it, it is in the directory, and
nobody has locked it. -/
def Fuse.Ready (f : Fuse) (nodeid w : Nat) : Prop :=
  f.Holds w ∧ f.parentOf w = some nodeid ∧
    forall node, f.nodes w = some node -> node.treelock = 0

theorem Fuse.Ready.not_mem {w : Nat} (h : f.Ready nodeid w) {line : List Nat}
    (hline : Line f.parentOf nodeid line) : w ∉ line :=
  (List.nodup_cons.mp (Line.up h.2.1 hline).nodup).1

theorem unlockPath_undo (h : Linked f ids named [] noExtra) (hlocked : Locked f locks)
    (hnodeid : nodeid ∈ ids) (hready : forall w, wnode = some w -> f.Ready nodeid w)
    {rest : List Nat} {stop : Nat} (hline : Line f.parentOf nodeid (below ++ stop :: rest))
    (hfree : forall x node, x ∈ below -> f.nodes x = some node -> node.treelock ≠ -1)
    (hkeys : forall x, x ∈ below -> f.key x ≠ none) (ticket : Nat) :
    exists f', unlockPath nodeid wnode (some stop) ticket
        ((f.onNodes wnode.toList Node.wlock).onNodes below Node.lock) = some f' ∧
      Retagged nodeid ticket f f' := by
  have hapart : forall w, wnode = some w -> w ∉ below := by
    intro w hw hx
    exact (hready w hw).not_mem hline (List.mem_append_left _ hx)
  generalize hgrown : (f.onNodes wnode.toList Node.wlock).onNodes below Node.lock = f2
  have hrelocked : Relocked f f2 := by
    rw [← hgrown]
    exact relocked_path f wnode below (fun _ => rfl) (fun _ => rfl)
  have hbelow : forall x, x ∈ below -> exists node, f2.nodes x = some node ∧
      0 < node.treelock := by
    intro x hx
    rcases h.exists_node (h.mem_ids (h.mem_named_iff.mpr (hkeys x hx))) with ⟨node, hnode⟩
    refine ⟨node.lock, ?_, ?_⟩
    · have hother : x ∉ wnode.toList := by
        rw [Option.mem_toList]
        exact fun hw => hapart x hw hx
      rw [← hgrown, onNodes_of_mem hx, onNodes_of_not_mem hother, hnode, Option.map_some]
    · have hne := hfree x node hx hnode
      have hcounts := hlocked.counts x node hnode
      rw [Node.lock]
      lia
  have hwlocked : forall w, wnode = some w -> exists node, f2.nodes w = some node ∧
      node.treelock = -1 := by
    intro w hw
    rcases (hready w hw).1 with ⟨node, hnode, _⟩
    refine ⟨node.wlock, ?_, rfl⟩
    have hself : w ∈ wnode.toList := by
      rw [hw]
      exact List.mem_singleton_self w
    rw [← hgrown, onNodes_of_not_mem (hapart w hw), onNodes_of_mem hself, hnode, Option.map_some]
  have hwkey : forall w, wnode = some w -> f.key w ≠ none := by
    intro w hw hnone
    have hparent := (hready w hw).2.1
    rw [Fuse.parentOf, hnone] at hparent
    cases hparent
  have hvalid : Valid idHash tableMinSize f2.idTable ids 0 := by
    rw [hrelocked.idTable]
    exact h.idTable
  have hdepth : (below ++ stop :: rest).length ≤ f2.depth := by
    rw [hrelocked.depth]
    refine h.line_length_le hnodeid ?_
    rw [h.up_eq]
    exact hline
  have hstop : forall x, x ∈ below -> some x ≠ some stop := by
    intro x hx heq
    cases heq
    exact (List.nodup_append.mp hline.nodup).2.2 stop hx stop List.mem_cons_self rfl
  have hline2 : Line f2.parentOf nodeid (below ++ stop :: rest) := by
    rw [hrelocked.parentOf]
    exact hline
  refine ⟨_, unlockPath_eq hvalid hnodeid ((congrFun hrelocked.key rootId).trans h.rootKey)
    ticket hline2 hdepth hbelow hwlocked hstop (Or.inl rfl), ?_⟩
  rw [← hgrown]
  exact retagged_undo hkeys hfree
    (fun w hw => ⟨hapart w hw, hwkey w hw, (hready w hw).2.2⟩) nodeid ticket

theorem climbPath_spec (h : Linked f ids named [] noExtra) (hlocked : Locked f locks)
    (room : Nat -> Option (Nat -> Byte)) (hticket : ticket ≠ 0)
    (hpassable : Passable f nodeid ticket) (hheld : f.Holds nodeid) {name : Option CString}
    {b : PathBuffer} (hfits : b.Fits) (htext : b.text = ending name ++ [0])
    (hready : forall w, wnode = some w -> f.Ready nodeid w)
    (hsize : forall line, Line f.parentOf nodeid line ->
      (ending name).length + 1 + f.spellSize line ≤ 0xffffffff) :
    exists out f', climbPath room nodeid wnode ticket b (f.onNodes wnode.toList Node.wlock) =
        some (out, f') ∧ Attempted f locks nodeid ticket name out f' := by
  have hholds := hheld
  rcases hheld with ⟨start, hstart, _⟩
  have hnodeid := h.mem_of_node hstart
  rcases h.lines nodeid hnodeid with ⟨line, hline⟩
  have hdepth := h.line_length_le hnodeid hline
  have hlive := h.line_subset hnodeid hline
  rw [h.up_eq] at hline
  generalize hlockedW : f.onNodes wnode.toList Node.wlock = f1
  have hrelocked : Relocked f f1 := by
    rw [← hlockedW]
    exact Relocked.onNodes f _ (fun _ => rfl)
  have hsame : forall x, x ∈ line -> f1.nodes x = f.nodes x := by
    intro x hx
    rw [← hlockedW]
    refine onNodes_of_not_mem ?_ f Node.wlock
    rw [Option.mem_toList]
    exact fun hw => (hready x hw).not_mem hline hx
  have hlive1 : forall x, x ∈ line -> f1.nodes x ≠ none := by
    intro x hx
    rw [hsame x hx]
    exact nodes_ne_none_iff_links.mpr ((h.live x).mp (hlive x hx))
  have hline1 : Line f1.parentOf nodeid line := by
    rw [hrelocked.parentOf]
    exact hline
  have hsize1 : b.text.length + f1.spellSize line ≤ 0xffffffff := by
    rw [htext, List.length_append, List.length_singleton, spellSize_congr hrelocked.key]
    exact hsize line hline
  have hrounds : line.length ≤ f1.depth + 1 := by
    rw [hrelocked.depth]
    lia
  have hroot1 : f1.key rootId = none := (congrFun hrelocked.key rootId).trans h.rootKey
  have hget : getNode f1 nodeid = some nodeid := by
    refine getNode_eq ?_ hnodeid
    rw [hrelocked.idTable]
    exact h.idTable
  rcases climb_spec room hticket hline1 hlive1 hroot1 hrounds hfits hsize1 with
    ⟨climbed, f2, hclimb, hclimbed⟩
  cases hclimbed with
  | @top below text b' hend hroute hfree hfits' htext' =>
      have hsub : forall x, x ∈ below -> x ∈ line := by
        intro x hx
        rw [hend]
        exact List.mem_append_left _ hx
      have hroute0 : Route f nodeid below text :=
        hroute.congr (fun x _ => (congrFun hrelocked.key x).symm)
      rw [htext, ← List.append_assoc] at htext'
      rcases pathString_spell hroute.nulFree name hfits' htext' with ⟨path, hpath, hbytes⟩
      have hcall : climbPath room nodeid wnode ticket b f1 =
          some (.ok (path, wnode), f1.onNodes below Node.lock) := by
        simp only [climbPath, hget, hclimb, hpath, Option.bind_eq_bind, Option.bind_some,
          Option.pure_def]
      refine ⟨_, _, hcall, Attempted.done ?_ ?_ ?_⟩
      · rw [← hlockedW]
        exact relocked_path f wnode below (fun _ => rfl) (fun _ => rfl)
      · rw [← hlockedW]
        refine hlocked.acquire h.rootKey hholds hroute0 hbytes ?_ ?_
        · intro x node hx hxnode
          exact hfree x node hx ((hsame x (hsub x hx)).trans hxnode)
        · intro w hw
          exact ⟨(hready w hw).1, fun hx => (hready w hw).not_mem hline (hsub w hx),
            (hready w hw).2.2⟩
      · rw [← hlockedW]
        exact quiet_acquire (fun w hw hx => (hready w hw).not_mem hline (hsub w hx))
  | @stuck err below rest stop hend hfree hkeys =>
      have hfree0 : forall x node, x ∈ below -> f.nodes x = some node ->
          node.treelock ≠ -1 := by
        intro x node hx hnode
        refine hfree x node hx ((hsame x ?_).trans hnode)
        rw [hend]
        exact List.mem_append_left _ hx
      have hkeys0 : forall x, x ∈ below -> f.key x ≠ none := by
        intro x hx
        rw [← hrelocked.key]
        exact hkeys x hx
      rcases unlockPath_undo h hlocked hnodeid hready (hend ▸ hline) hfree0 hkeys0 ticket with
        ⟨f3, hunlock, hundo⟩
      rw [hlockedW] at hunlock
      have hwids : forall w, wnode = some w -> w ∈ ids := by
        intro w hw
        rcases (hready w hw).1 with ⟨node, hwnode, _⟩
        exact h.mem_of_node hwnode
      rcases pathError_spec (α := CString × Option Nat) (hundo.linked h hlocked)
        (hundo.locked hlocked) hnodeid hticket (hundo.passable hticket hpassable) hwids err with
        ⟨f', hcall, hretagged⟩
      refine ⟨.error err, f', ?_, Attempted.failed (hundo.trans hretagged)⟩
      simp only [climbPath, hget, hclimb, if_pos hticket, hunlock, hcall, Option.bind_eq_bind,
        Option.bind_some]

/-- An attempt to lock a path, whatever `malloc` and `realloc` answer. -/
theorem tryGetPath_spec (h : Linked f ids named [] noExtra) (hlocked : Locked f locks)
    (room : Nat -> Option (Nat -> Byte)) (hticket : ticket ≠ 0)
    (hpassable : Passable f nodeid ticket) (hheld : f.Holds nodeid) {name : Option CString}
    {wr : Bool}
    (hname : wr = true -> exists n, name = some n ∧
      forall w, lookupNode f nodeid n = some (some w) -> f.Holds w)
    (hsize : forall line, Line f.parentOf nodeid line ->
      (ending name).length + 1 + f.spellSize line ≤ 0xffffffff) :
    exists out f', tryGetPath room nodeid name wr ticket f = some (out, f') ∧
      Attempted f locks nodeid ticket name out f' := by
  rcases hheld with ⟨hnode, hhnode, hlookup⟩
  have hnodeid := h.mem_of_node hhnode
  rcases h.lines nodeid hnodeid with ⟨line, hline⟩
  rw [h.up_eq] at hline
  have hfit : (ending name).length + 1 ≤ 0xffffffff := by
    have hle := hsize line hline
    lia
  have hfail : forall err g, Retagged nodeid ticket f g -> exists g',
      pathError nodeid none ticket err g =
          some ((.error err : Except Int (CString × Option Nat)), g') ∧
        Attempted f locks nodeid ticket name (.error err) g' := by
    intro err g hg
    rcases pathError_spec (α := CString × Option Nat) (hg.linked h hlocked) (hg.locked hlocked)
      hnodeid hticket (hg.passable hticket hpassable)
      (fun w hw => absurd hw (Option.some_ne_none w).symm) err with
      ⟨g', hcall, hretagged⟩
    exact ⟨g', hcall, Attempted.failed (hg.trans hretagged)⟩
  rcases startPath_spec room name hfit with hfull | ⟨b, hstart, hfits, htext⟩
  · rcases hfail (-ENOMEM) f (Retagged.refl f) with ⟨f', hcall, hattempted⟩
    refine ⟨_, f', ?_, hattempted⟩
    simp only [tryGetPath, hfull, hcall, Option.bind_eq_bind, Option.bind_some]
  have hclimb : forall wnode, (forall w, wnode = some w -> f.Ready nodeid w) -> exists out f',
      climbPath room nodeid wnode ticket b (f.onNodes wnode.toList Node.wlock) = some (out, f') ∧
        Attempted f locks nodeid ticket name out f' := by
    intro wnode hready
    exact climbPath_spec h hlocked room hticket hpassable ⟨hnode, hhnode, hlookup⟩ hfits htext
      hready hsize
  cases wr with
  | false =>
      rcases hclimb none (fun w hw => absurd hw (Option.some_ne_none w).symm) with
        ⟨out, f', hcall, hattempted⟩
      refine ⟨out, f', ?_, hattempted⟩
      rw [Option.toList_none, onNodes_nil] at hcall
      simp only [tryGetPath, hstart, hcall, Option.bind_eq_bind, Option.bind_some,
        Bool.false_eq_true, if_false]
  | true =>
      rcases hname rfl with ⟨n, rfl, hwheld⟩
      rcases lockWnode_spec h hticket nodeid n with ⟨locked, f1, hlock, hwlocked⟩
      cases hwlocked with
      | absent hfind =>
          rcases hclimb none (fun w hw => absurd hw (Option.some_ne_none w).symm) with
            ⟨out, f', hcall, hattempted⟩
          refine ⟨out, f', ?_, hattempted⟩
          rw [Option.toList_none, onNodes_nil] at hcall
          simp only [tryGetPath, hstart, hlock, hcall, Option.bind_eq_bind, Option.bind_some,
            if_true]
      | @taken w node hfind hwnode hfree =>
          have hready : f.Ready nodeid w := by
            rcases h.lookupNode_eq_some_iff.mp hfind with ⟨_, hkey⟩
            refine ⟨hwheld w hfind, ?_, ?_⟩
            · rw [Fuse.parentOf, hkey, Option.map_some]
            · intro node' hnode'
              rw [hwnode] at hnode'
              cases hnode'
              exact hfree
          have honly : forall x, some w = some x -> f.Ready nodeid x := by
            intro x hx
            cases hx
            exact hready
          rcases hclimb (some w) honly with ⟨out, f', hcall, hattempted⟩
          refine ⟨out, f', ?_, hattempted⟩
          rw [Option.toList_some] at hcall
          simp only [tryGetPath, hstart, hlock, hcall, Option.bind_eq_bind, Option.bind_some,
            if_true]
      | busy hretagged =>
          rcases hfail (-EAGAIN) f1 hretagged with ⟨f', hcall, hattempted⟩
          refine ⟨_, f', ?_, hattempted⟩
          simp only [tryGetPath, hstart, hlock, hcall, Option.bind_eq_bind, Option.bind_some,
            if_true]

theorem unlockPath_spec (h : Linked f ids named [] noExtra) {l : Lock}
    (hlocked : Locked f (l :: locks)) :
    exists f', unlockPath l.nodeid l.wnode none 0 f = some f' ∧ Relocked f f' ∧
      Locked f' locks ∧ Quiet f f' := by
  have hl : l ∈ l :: locks := List.mem_cons_self
  rcases hlocked.reach l hl with ⟨below, text, hroute, _⟩
  rcases hlocked.held l hl with ⟨node, hnode, _⟩
  have hnodeid := h.mem_of_node hnode
  have hline := hroute.line h.rootKey
  have hdepth : (below ++ [rootId]).length ≤ f.depth := by
    refine h.line_length_le hnodeid ?_
    rw [h.up_eq]
    exact hline
  have hbelow : forall x, x ∈ below -> exists node, f.nodes x = some node ∧
      0 < node.treelock := by
    intro x hx
    have hlive : f.key x ≠ none := hroute.key_ne_none hx
    have hxids : x ∈ ids := h.mem_ids (h.mem_named_iff.mpr hlive)
    rcases h.exists_node hxids with ⟨xnode, hxnode⟩
    exact ⟨xnode, hxnode, (hlocked.treelock_pos hl ⟨below, text, hroute, hx⟩ hxnode).2⟩
  have hwnode : forall w, l.wnode = some w -> exists node, f.nodes w = some node ∧
      node.treelock = -1 := by
    intro w hw
    rcases hlocked.wheld l w hl hw with ⟨wnode, hwnode, _⟩
    exact ⟨wnode, hwnode, (hlocked.treelock_wnode hl hw hwnode).2.2⟩
  have hapart : forall w, l.wnode = some w -> w ∉ below := by
    intro w hw hx
    rcases hwnode w hw with ⟨node1, hnode1, hneg⟩
    rcases hbelow w hx with ⟨node2, hnode2, hpos⟩
    rw [hnode1] at hnode2
    cases hnode2
    lia
  refine ⟨_, unlockPath_eq h.idTable hnodeid h.rootKey 0 hline hdepth hbelow hwnode
    (fun x _ => Option.some_ne_none x) (Or.inr rfl),
    relocked_path f l.wnode below (fun _ => rfl) (fun _ => rfl),
    hlocked.release h.rootKey hroute hapart, quiet_release hapart hbelow⟩

/-!
## Other requests
-/

/-- A change that leaves the paths, their holders and the locks as they are; new nodes are not
locked. -/
theorem Locked.transfer (h : Locked f locks) (hroot : f.key rootId = none)
    (hroot' : f'.key rootId = none)
    (hroute : forall l line text, l ∈ locks -> Route f l.nodeid line text ->
      Route f' l.nodeid line text)
    (hheld : forall l, l ∈ locks -> f'.Holds l.nodeid)
    (hwheld : forall l w, l ∈ locks -> l.wnode = some w -> f'.Holds w)
    (hlocks : forall x node', f'.nodes x = some node' ->
      (exists node, f.nodes x = some node ∧ node'.treelock = node.treelock) ∨
        (f.nodes x = none ∧ node'.treelock = 0)) : Locked f' locks := by
  refine ⟨?_, hheld, hwheld, ?_⟩
  · intro l hl
    rcases h.reach l hl with ⟨line, text, hline, hpath⟩
    exact ⟨line, text, hroute l line text hl hline, hpath⟩
  · intro x node' hx
    have hreaders : readers f' locks x = readers f locks x := by
      refine readers_congr ?_
      intro l hl
      rcases h.reach l hl with ⟨line, text, hline, _⟩
      rw [above_iff (hroute l line text hl hline) hroot', above_iff hline hroot]
    rw [hreaders]
    rcases hlocks x node' hx with ⟨node, hnode, hsame⟩ | ⟨hnone, hzero⟩
    · rw [hsame]
      exact h.counts x node hnode
    · left
      have hwriters : writers locks x = 0 := by
        rw [writers, List.countP_eq_zero]
        intro l hl hw
        rcases h.wheld l x hl (by simpa using hw) with ⟨node, hnode, _⟩
        rw [hnone] at hnode
        cases hnode
      have hnobody : readers f locks x = 0 := by
        rw [readers, List.countP_eq_zero]
        intro l hl habove
        have hon : Above f l.nodeid x := by simpa using habove
        rcases hon with ⟨line, text, hline, hmem⟩
        refine hline.key_ne_none hmem ?_
        rw [Fuse.key, hnone, Option.bind_none]
      rw [hwriters, hnobody, hzero]
      exact ⟨rfl, rfl⟩

theorem locked_nil (h : forall x node, f.nodes x = some node -> node.treelock = 0) :
    Locked f [] where
  reach := fun _ hl => absurd hl List.not_mem_nil
  held := fun _ hl => absurd hl List.not_mem_nil
  wheld := fun _ _ hl => absurd hl List.not_mem_nil
  counts := fun x node hx => Or.inl ⟨rfl, h x node hx⟩

theorem Locked.congr (h : Locked f locks) (hroot : f.key rootId = none)
    (hnodes : f'.nodes = f.nodes) : Locked f' locks := by
  have hkey : f'.key = f.key := by
    funext x
    rw [Fuse.key, Fuse.key, hnodes]
  have hholds : forall x, f.Holds x -> f'.Holds x := by
    intro x hx
    rw [Fuse.Holds, hnodes]
    exact hx
  refine h.transfer hroot ((congrFun hkey rootId).trans hroot) ?_
    (fun l hl => hholds _ (h.held l hl)) (fun l w hl hw => hholds w (h.wheld l w hl hw)) ?_
  · intro l line text _ hline
    exact hline.congr (fun x _ => congrFun hkey x)
  · intro x node hx
    rw [hnodes] at hx
    exact Or.inl ⟨node, hx, rfl⟩

/-- A path stays as it is when nodes are linked in another way that are not on it. -/
theorem Locked.route_relinked (h : Locked f locks) (hshape : Shape f ids named [])
    {named' gone : List Nat} (hrelinked : Relinked f f' named named' gone)
    (hgone : forall x l, x ∈ gone -> l ∈ locks -> ¬ Above f l.nodeid x) {l : Lock}
    (hl : l ∈ locks) {line : List Nat} (hroute : Route f l.nodeid line text) :
    Route f' l.nodeid line text := by
  refine hroute.congr ?_
  intro x hx
  have habove : Above f l.nodeid x := ⟨line, text, hroute, hx⟩
  have hxids := hshape.mem_ids (hshape.mem_named_iff.mpr (hroute.key_ne_none hx))
  rcases hshape.exists_node hxids with ⟨node, hnode⟩
  have hpos := (h.treelock_pos hl habove hnode).2
  refine key_congr (hrelinked.links x (fun hmem => hgone x l hmem hl habove) ?_)
  exact hrelinked.held x node hnode (Or.inr (by lia))

theorem Locked.relinked (h : Locked f locks) (hshape : Shape f ids named [])
    (hroot' : f'.key rootId = none) {named' gone : List Nat}
    (hrelinked : Relinked f f' named named' gone)
    (hgone : forall x l, x ∈ gone -> l ∈ locks -> ¬ Above f l.nodeid x) : Locked f' locks := by
  refine h.transfer hshape.rootKey hroot' ?_ (fun l hl => hrelinked.holds (h.held l hl))
    (fun l w hl hw => hrelinked.holds (h.wheld l w hl hw)) ?_
  · intro l line text hl hroute
    exact h.route_relinked hshape hrelinked hgone hl hroute
  · intro x node' hx
    rcases hrelinked.alike x node' hx with ⟨node, hnode, _, _, hlock, _⟩
    exact Or.inl ⟨node, hnode, hlock⟩

theorem Locked.lookups (h : Locked f locks) (hroot : f.key rootId = none)
    (hnode : f.nodes id = some node) {n : Nat} (hid : id ≠ rootId)
    (hheld : 0 < n ∨ node.treelock = 0) :
    Locked (f.put id (some { node with nlookup := n })) locks := by
  have hlinks : (f.put id (some { node with nlookup := n })).links = f.links :=
    links_put hnode rfl rfl
  have hkey : (f.put id (some { node with nlookup := n })).key = f.key :=
    funext (fun x => key_congr (congrFun hlinks x))
  -- A node that is not locked is neither the start of a path nor locked for writing.
  have hother : forall x, f.Holds x -> (x = id -> node.treelock ≠ 0) ->
      (f.put id (some { node with nlookup := n })).Holds x := by
    rintro x ⟨xnode, hxnode, hlookup⟩ hlock
    rcases exists_put_node hnode hxnode { node with nlookup := n } with ⟨xnode', hx', hcase⟩
    refine ⟨xnode', hx', ?_⟩
    rcases hcase with ⟨hxid, _, rfl⟩ | ⟨_, rfl⟩
    · exact hheld.resolve_right (hlock hxid)
    · exact hlookup
  refine h.transfer hroot ((congrFun hkey rootId).trans hroot) ?_ ?_ ?_ ?_
  · intro l line text _ hline
    exact hline.congr (fun x _ => congrFun hkey x)
  · intro l hl
    refine hother l.nodeid (h.held l hl) ?_
    intro heq
    rcases h.reach l hl with ⟨line, text, hline, _⟩
    have hself := hline.mem_self (heq ▸ hid)
    have hpos := (h.treelock_pos hl ⟨line, text, hline, hself⟩ (heq ▸ hnode)).2
    lia
  · intro l w hl hw
    refine hother w (h.wheld l w hl hw) ?_
    intro heq
    have hneg := (h.treelock_wnode hl hw (heq ▸ hnode)).2.2
    lia
  · intro x xnode hx
    left
    rcases put_nodes_cases hnode hx with ⟨_, hold, rfl⟩ | ⟨_, hold⟩
    · exact ⟨node, hold, rfl⟩
    · exact ⟨xnode, hold, rfl⟩

/-- A new node below `dir`, which has a reference more. -/
structure MadeBelow (f f' : Fuse) (dir : Nat) (name : CString) (id : Nat) : Prop where
  free : f.nodes id = none
  nodes : exists node, f.nodes dir = some node ∧ f'.nodes = Function.update
    (Function.update f.nodes dir (some { node with refctr := node.refctr + 1 }))
    id (some (freshNode f' dir name))

section MadeBelow

variable {dir id : Nat} {name : CString}

theorem MadeBelow.self (h : MadeBelow f f' dir name id) :
    f'.nodes id = some (freshNode f' dir name) := by
  rcases h.nodes with ⟨_, _, hnodes⟩
  rw [hnodes, Function.update_self]

theorem MadeBelow.exists_node (h : MadeBelow f f' dir name id) {x : Nat} {old : Node}
    (hx : f.nodes x = some old) :
    x ≠ id ∧ exists n, old.refctr ≤ n ∧ f'.nodes x = some { old with refctr := n } := by
  have hne : x ≠ id := by
    rintro rfl
    rw [h.free] at hx
    cases hx
  rcases h.nodes with ⟨node, hnode, hnodes⟩
  refine ⟨hne, ?_⟩
  rw [hnodes, Function.update_of_ne hne]
  by_cases hdir : x = dir
  · rw [hdir, hnode] at hx
    cases hx
    exact ⟨old.refctr + 1, Nat.le_succ _, by rw [hdir, Function.update_self]⟩
  · exact ⟨old.refctr, Nat.le_refl _, by rw [Function.update_of_ne hdir, hx]⟩

theorem MadeBelow.node_cases (h : MadeBelow f f' dir name id) {x : Nat} {node' : Node}
    (hx : f'.nodes x = some node') :
    (x = id ∧ node' = freshNode f' dir name) ∨ exists old n, f.nodes x = some old ∧ x ≠ id ∧
      old.refctr ≤ n ∧ node' = { old with refctr := n } := by
  by_cases hid : x = id
  · rw [hid, h.self] at hx
    exact Or.inl ⟨hid, (Option.some.inj hx).symm⟩
  right
  cases hold : f.nodes x with
  | some old =>
      rcases h.exists_node hold with ⟨hne, n, hle, hnow⟩
      rw [hnow] at hx
      exact ⟨old, n, rfl, hne, hle, (Option.some.inj hx).symm⟩
  | none =>
      rcases h.nodes with ⟨node, hnode, hnodes⟩
      have hdir : x ≠ dir := by
        rintro rfl
        rw [hnode] at hold
        cases hold
      rw [hnodes, Function.update_of_ne hid, Function.update_of_ne hdir, hold] at hx
      cases hx

theorem MadeBelow.key (h : MadeBelow f f' dir name id) {x : Nat} (hx : f.nodes x ≠ none) :
    f'.key x = f.key x := by
  rcases Option.ne_none_iff_exists'.mp hx with ⟨old, hold⟩
  rcases h.exists_node hold with ⟨_, n, _, hnow⟩
  refine key_congr ?_
  rw [Fuse.links, Fuse.links, hold, hnow, Option.map_some, Option.map_some]

theorem MadeBelow.holds (h : MadeBelow f f' dir name id) {x : Nat} (hx : f.Holds x) :
    f'.Holds x := by
  rcases hx with ⟨old, hold, hlookup⟩
  rcases h.exists_node hold with ⟨_, n, _, hnow⟩
  exact ⟨_, hnow, hlookup⟩

theorem Locked.made (h : Locked f locks) (hroot : f.key rootId = none)
    (hroot' : f'.key rootId = none) (hmade : MadeBelow f f' dir name id) : Locked f' locks := by
  refine h.transfer hroot hroot' ?_ (fun l hl => hmade.holds (h.held l hl))
    (fun l w hl hw => hmade.holds (h.wheld l w hl hw)) ?_
  · intro l line text _ hline
    refine hline.congr ?_
    intro x hx
    refine hmade.key ?_
    intro hnone
    refine hline.key_ne_none hx ?_
    rw [Fuse.key, hnone, Option.bind_none]
  · intro x node' hx
    rcases hmade.node_cases hx with ⟨rfl, rfl⟩ | ⟨old, n, hold, _, _, rfl⟩
    · exact Or.inr ⟨hmade.free, rfl⟩
    · exact Or.inl ⟨old, hold, rfl⟩

end MadeBelow

end ShadowFs.Libfuse

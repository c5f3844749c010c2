import ShadowFs.Fuse.PathLocks

/-!
# Locked paths

The lock of a node counts the requests that have it on their path, or is `-1` if one of them
has it for writing; then it is on nobody's path.  An attempt to lock a path either adds one
to the locked paths or leaves them as they are.
-/

namespace ShadowFs.Libfuse

open CLib Library LinearHash

/-- A path that a request has locked: what it was asked for, the node locked for writing and
the text that was handed out. -/
structure Lock where
  nodeid : Nat
  name : Option CString
  wnode : Option Nat
  path : CString
deriving DecidableEq

/-- A node is on the way up from another, below the root. -/
def Above (f : Fuse) (nodeid x : Nat) : Prop :=
  exists line text, Route f nodeid line text ∧ x ∈ line

open Classical in
/-- How many paths a node is on. -/
noncomputable def readers (f : Fuse) (locks : List Lock) (x : Nat) : Nat :=
  locks.countP (fun l => Above f l.nodeid x)

def writers (locks : List Lock) (x : Nat) : Nat :=
  locks.countP (fun l => l.wnode = some x)

/-- The bytes that a name adds to a path. -/
def ending : Option CString -> List Byte
  | none => []
  | some name => slash :: name.bytes

def spell (text : List Byte) (name : Option CString) : List Byte :=
  if text ++ ending name = [] then [slash] else text ++ ending name

structure Locked (f : Fuse) (locks : List Lock) : Prop where
  reach : forall l, l ∈ locks -> exists line text, Route f l.nodeid line text ∧
    l.path.bytes = spell text l.name
  held : forall l, l ∈ locks -> f.Holds l.nodeid
  wheld : forall l w, l ∈ locks -> l.wnode = some w -> f.Holds w
  counts : forall x node, f.nodes x = some node ->
    (writers locks x = 0 ∧ node.treelock = readers f locks x) ∨
      (writers locks x = 1 ∧ readers f locks x = 0 ∧ node.treelock = -1)

section Locked

variable {f f' : Fuse} {ids named : List Nat} {locks : List Lock} {l : Lock} {id x : Nat}
  {node : Node}

/-!
## Paths
-/

theorem Route.line {line : List Nat} {text : List Byte} (h : Route f id line text)
    (hroot : f.key rootId = none) : Line f.parentOf id (line ++ [rootId]) := by
  induction h with
  | root =>
      refine Line.top ?_
      rw [Fuse.parentOf, hroot, Option.map_none]
  | up hkey habove ih =>
      refine Line.up ?_ ih
      rw [Fuse.parentOf, hkey, Option.map_some]

theorem Route.unique {line line' : List Nat} {text text' : List Byte}
    (h : Route f id line text) (h' : Route f id line' text') (hroot : f.key rootId = none) :
    line = line' ∧ text = text' := by
  induction h generalizing line' text' with
  | root =>
      cases h' with
      | root => exact ⟨rfl, rfl⟩
      | up hkey _ =>
          rw [hroot] at hkey
          cases hkey
  | up hkey habove ih =>
      cases h' with
      | root =>
          rw [hroot] at hkey
          cases hkey
      | up hkey' habove' =>
          rw [hkey] at hkey'
          cases hkey'
          rcases ih habove' with ⟨rfl, rfl⟩
          exact ⟨rfl, rfl⟩

theorem Route.key_ne_none {line : List Nat} {text : List Byte} (h : Route f id line text)
    (hx : x ∈ line) : f.key x ≠ none := by
  induction h with
  | root => exact absurd hx List.not_mem_nil
  | up hkey habove ih =>
      rcases List.mem_cons.mp hx with rfl | hmem
      · rw [hkey]
        exact Option.some_ne_none _
      · exact ih hmem

theorem above_iff {line : List Nat} {text : List Byte} (h : Route f id line text)
    (hroot : f.key rootId = none) : Above f id x <-> x ∈ line := by
  constructor
  · rintro ⟨line', text', h', hx⟩
    rw [(h.unique h' hroot).1]
    exact hx
  · intro hx
    exact ⟨line, text, h, hx⟩

theorem above_congr (hkey : f'.key = f.key) : Above f' id x <-> Above f id x := by
  have hone : forall {g g' : Fuse}, g'.key = g.key -> Above g id x -> Above g' id x := by
    rintro g g' hg ⟨line, text, hroute, hx⟩
    exact ⟨line, text, hroute.congr (fun y _ => congrFun hg y), hx⟩
  exact ⟨hone hkey.symm, hone hkey⟩

/-!
## Counting
-/

theorem readers_congr (h : forall l, l ∈ locks -> (Above f' l.nodeid x <-> Above f l.nodeid x)) :
    readers f' locks x = readers f locks x := by
  rw [readers, readers]
  refine List.countP_congr ?_
  intro l hl
  simp only [decide_eq_true_eq]
  exact h l hl

theorem readers_cons (f : Fuse) (l : Lock) (locks : List Lock) (x : Nat) :
    (Above f l.nodeid x -> readers f (l :: locks) x = readers f locks x + 1) ∧
      (¬ Above f l.nodeid x -> readers f (l :: locks) x = readers f locks x) := by
  rw [readers, readers]
  refine ⟨fun h => ?_, fun h => ?_⟩
  · exact List.countP_cons_of_pos (by simpa using h)
  · exact List.countP_cons_of_neg (by simpa using h)

theorem writers_cons (l : Lock) (locks : List Lock) (x : Nat) :
    writers (l :: locks) x = writers locks x + if l.wnode = some x then 1 else 0 := by
  rw [writers, writers, List.countP_cons]
  simp only [decide_eq_true_eq]

theorem Locked.perm (h : Locked f locks) {locks' : List Lock} (hperm : locks'.Perm locks) :
    Locked f locks' where
  reach := fun l hl => h.reach l (hperm.mem_iff.mp hl)
  held := fun l hl => h.held l (hperm.mem_iff.mp hl)
  wheld := fun l w hl => h.wheld l w (hperm.mem_iff.mp hl)
  counts := by
    intro x node hx
    rw [writers, readers, hperm.countP_eq, hperm.countP_eq]
    exact h.counts x node hx

theorem Locked.treelock_pos (h : Locked f locks) (hl : l ∈ locks) (habove : Above f l.nodeid x)
    (hnode : f.nodes x = some node) : writers locks x = 0 ∧ 0 < node.treelock := by
  have hpos : 0 < readers f locks x := by
    rw [readers]
    exact List.countP_pos_iff.mpr ⟨l, hl, by simpa using habove⟩
  rcases h.counts x node hnode with ⟨hzero, heq⟩ | ⟨_, hnone, _⟩
  · exact ⟨hzero, by lia⟩
  · lia

theorem Locked.treelock_wnode (h : Locked f locks) (hl : l ∈ locks) (hw : l.wnode = some x)
    (hnode : f.nodes x = some node) :
    writers locks x = 1 ∧ readers f locks x = 0 ∧ node.treelock = -1 := by
  have hpos : 0 < writers locks x := by
    rw [writers]
    exact List.countP_pos_iff.mpr ⟨l, hl, by simpa using hw⟩
  rcases h.counts x node hnode with ⟨hzero, _⟩ | hwritten
  · lia
  · exact hwritten

theorem Locked.exists_lock (h : Locked f locks) (hnode : f.nodes x = some node)
    (hlock : node.treelock ≠ 0) :
    (exists l, l ∈ locks ∧ l.wnode = some x) ∨ exists l, l ∈ locks ∧ Above f l.nodeid x := by
  rcases h.counts x node hnode with ⟨_, heq⟩ | ⟨hone, _⟩
  · right
    have hpos : 0 < readers f locks x := by lia
    rw [readers] at hpos
    rcases List.countP_pos_iff.mp hpos with ⟨l, hl, habove⟩
    exact ⟨l, hl, by simpa using habove⟩
  · left
    have hpos : 0 < writers locks x := by lia
    rw [writers] at hpos
    rcases List.countP_pos_iff.mp hpos with ⟨l, hl, hw⟩
    exact ⟨l, hl, by simpa using hw⟩

/-- The locks rest on nodes that the kernel holds. -/
theorem Locked.anchored (h : Locked f locks) (hshape : Shape f ids named []) :
    Anchored f named := by
  intro x node hnode hlock
  rcases h.exists_lock hnode hlock with ⟨l, hl, hw⟩ | ⟨l, hl, line, text, hroute, hx⟩
  · left
    rcases h.wheld l x hl hw with ⟨node', hnode', hheld⟩
    rw [hnode] at hnode'
    cases hnode'
    exact hheld
  · have hline := hroute.line hshape.rootKey
    rcases hline.exists_child (List.mem_append_left _ hx) with hself | ⟨c, hc, hparent⟩
    · left
      rcases h.held l hl with ⟨node', hnode', hheld⟩
      rw [← hself, hnode] at hnode'
      cases hnode'
      exact hheld
    · right
      have hcline : c ∈ line := by
        rcases List.mem_append.mp hc with hmem | hend
        · exact hmem
        · rw [List.mem_singleton.mp hend, Fuse.parentOf, hshape.rootKey] at hparent
          cases hparent
      have hnamed : c ∈ named := hshape.mem_named_iff.mpr (hroute.key_ne_none hcline)
      rcases hshape.exists_node (hshape.mem_ids hnamed) with ⟨cnode, hcnode⟩
      have hpos := (h.treelock_pos hl ⟨line, text, hroute, hcline⟩ hcnode).2
      refine ⟨c, cnode, ?_, hcnode, by lia⟩
      rw [hshape.up_eq]
      exact hparent

end Locked

/-!
## Failed attempts
-/

/-- A node on which a request for the path of `nodeid` leaves its ticket: it has a name, and
it is not locked for writing if it is on the way up. -/
def Taggable (f : Fuse) (nodeid x : Nat) (node : Node) : Prop :=
  f.key x ≠ none ∧ forall line, Line f.parentOf nodeid line -> x ∈ line -> node.treelock ≠ -1

/-- All locks are as before, and new tickets are those of a request for the path of `nodeid`. -/
structure Retagged (nodeid ticket : Nat) (f f' : Fuse) : Prop extends Relocked f f' where
  locks : forall x node node', f.nodes x = some node -> f'.nodes x = some node' ->
    node'.treelock = node.treelock ∧
      (node'.ticket ≠ 0 -> node'.ticket = node.ticket ∨
        (node'.ticket = ticket ∧ Taggable f nodeid x node))

/-- A request that comes back with its ticket is not stuck at it: the nodes on the way up that
have the ticket have names and are not locked for writing. -/
def Passable (f : Fuse) (nodeid ticket : Nat) : Prop :=
  forall line x node, Line f.parentOf nodeid line -> x ∈ line -> x ≠ rootId ->
    f.nodes x = some node -> node.ticket = ticket -> f.key x ≠ none ∧ node.treelock ≠ -1

section Retagged

variable {f f' f1 f2 : Fuse} {ids named : List Nat} {locks : List Lock} {id : Nat} {node : Node}
  {nodeid ticket : Nat}

theorem Retagged.refl (f : Fuse) : Retagged nodeid ticket f f where
  toRelocked := Relocked.refl f
  locks := by
    intro x node node' hnode hnode'
    rw [hnode] at hnode'
    cases hnode'
    exact ⟨rfl, fun _ => Or.inl rfl⟩

theorem Retagged.trans (h1 : Retagged nodeid ticket f f1) (h2 : Retagged nodeid ticket f1 f2) :
    Retagged nodeid ticket f f2 where
  toRelocked := h1.toRelocked.trans h2.toRelocked
  locks := by
    intro x node node2 hnode hnode2
    rcases h1.exists_node hnode with ⟨node1, hnode1, _⟩
    rcases h1.locks x node node1 hnode hnode1 with ⟨hlock1, htag1⟩
    rcases h2.locks x node1 node2 hnode1 hnode2 with ⟨hlock2, htag2⟩
    refine ⟨hlock2.trans hlock1, ?_⟩
    intro hne
    rcases htag2 hne with hsame | ⟨hticket, hkey, hfree⟩
    · rw [hsame] at hne ⊢
      exact htag1 hne
    · right
      rw [h1.key] at hkey
      rw [h1.parentOf, hlock1] at hfree
      exact ⟨hticket, hkey, hfree⟩

theorem Retagged.onNodes (f : Fuse) (l : List Nat) {g : Node -> Node}
    (hg : forall node, (g node).unlocked = node.unlocked ∧ (g node).treelock = node.treelock)
    (htag : forall x node, x ∈ l -> f.nodes x = some node -> (g node).ticket = 0 ∨
      ((g node).ticket = ticket ∧ Taggable f nodeid x node)) :
    Retagged nodeid ticket f (f.onNodes l g) where
  toRelocked := Relocked.onNodes f l (fun node => (hg node).1)
  locks := by
    intro x node node' hnode hnode'
    by_cases hx : x ∈ l
    · rw [onNodes_of_mem hx, hnode, Option.map_some] at hnode'
      cases hnode'
      refine ⟨(hg node).2, ?_⟩
      intro hne
      exact Or.inr ((htag x node hx hnode).resolve_left hne)
    · rw [onNodes_of_not_mem hx, hnode] at hnode'
      cases hnode'
      exact ⟨rfl, fun _ => Or.inl rfl⟩

theorem Retagged.locked (h : Retagged nodeid ticket f f') (hlocked : Locked f locks) :
    Locked f' locks := by
  have habove : forall nodeid x, Above f' nodeid x <-> Above f nodeid x :=
    fun nodeid x => above_congr h.key
  refine ⟨?_, ?_, ?_, ?_⟩
  · intro l hl
    rcases hlocked.reach l hl with ⟨line, text, hroute, hpath⟩
    exact ⟨line, text, hroute.congr (fun x _ => congrFun h.key x), hpath⟩
  · intro l hl
    exact h.holds_iff.mpr (hlocked.held l hl)
  · intro l w hl hw
    exact h.holds_iff.mpr (hlocked.wheld l w hl hw)
  · intro x node' hnode'
    rcases h.symm.exists_node hnode' with ⟨node, hnode, _⟩
    rw [readers_congr (fun l _ => habove l.nodeid x), (h.locks x node node' hnode hnode').1]
    exact hlocked.counts x node hnode

theorem Retagged.passable (h : Retagged nodeid ticket f f') (hticket : ticket ≠ 0)
    (hpassable : Passable f nodeid ticket) : Passable f' nodeid ticket := by
  intro line x node' hline hx hroot hnode' htag
  rcases h.symm.exists_node hnode' with ⟨node, hnode, _⟩
  rcases h.locks x node node' hnode hnode' with ⟨hlock, htagged⟩
  rw [h.parentOf] at hline
  rw [h.key, hlock]
  rcases htagged (htag ▸ hticket) with hsame | ⟨_, hkey, hfree⟩
  · exact hpassable line x node hline hx hroot hnode (hsame.symm.trans htag)
  · exact ⟨hkey, hfree line hline hx⟩

theorem Retagged.linked (h : Retagged nodeid ticket f f')
    (hlinked : Linked f ids named [] noExtra) (hlocked : Locked f locks) :
    Linked f' ids named [] noExtra :=
  h.toRelocked.linked hlinked ((h.locked hlocked).anchored
    (hlinked.toShape.congr h.idTable h.nameTable h.links))

/-- `release_tickets` does not come to a null pointer, since a node without name has another
ticket. -/
theorem releaseTickets_spec (h : Linked f ids named [] noExtra) (hlocked : Locked f locks)
    (hnodeid : nodeid ∈ ids) (hticket : ticket ≠ 0) (hpassable : Passable f nodeid ticket)
    {wnode : Option Nat} (hwnode : forall w, wnode = some w -> w ∈ ids) :
    exists f', releaseTickets nodeid wnode ticket f = some f' ∧
      Retagged nodeid ticket f f' := by
  have hloop : forall g, Retagged nodeid ticket f g -> exists f', (do
      let id ← getNode g nodeid
      releaseLoop ticket (g.depth + 1) (some id) g) = some f' ∧
        Retagged nodeid ticket g f' := by
    intro g hg
    have hlinked := hg.linked h hlocked
    rcases hlinked.lines nodeid hnodeid with ⟨line, hline⟩
    have hdepth := hlinked.line_length_le hnodeid hline
    have hlive : forall x, x ∈ line -> g.nodes x ≠ none := by
      intro x hx
      exact nodes_ne_none_iff_links.mpr
        ((hlinked.live x).mp (hlinked.line_subset hnodeid hline x hx))
    rw [hlinked.toShape.up_eq] at hline
    have hother : forall x node, x ∈ line -> x ≠ rootId -> g.key x = none ->
        g.nodes x = some node -> node.ticket ≠ ticket := by
      intro x node hx hroot hkey hnode htag
      exact (hg.passable hticket hpassable line x node hline hx hroot hnode htag).1 hkey
    rcases releaseLoop_spec hline hlive hlinked.rootKey hother (Nat.le_succ_of_le hdepth) with
      ⟨below, _, hbelow⟩
    have huntag : Retagged nodeid ticket g (g.onNodes below Node.untag) :=
      Retagged.onNodes g below (fun _ => ⟨rfl, rfl⟩) (fun _ _ _ _ => Or.inl rfl)
    refine ⟨_, ?_, huntag⟩
    rw [getNode_eq hlinked.idTable hnodeid, Option.bind_eq_bind, Option.bind_some, hbelow]
  rcases wnode with _ | w
  · rcases hloop f (Retagged.refl f) with ⟨f', hcall, hretagged⟩
    exact ⟨f', hcall, hretagged⟩
  · rcases h.exists_node (hwnode w rfl) with ⟨node, hnode⟩
    by_cases htag : node.ticket ≠ ticket
    · refine ⟨f, ?_, Retagged.refl f⟩
      simp only [releaseTickets, hnode, if_pos htag, Option.bind_eq_bind, Option.bind_some,
        Option.pure_def]
    · have huntag : Retagged nodeid ticket f (f.put w (some node.untag)) := by
        have hone : Retagged nodeid ticket f (f.onNodes [w] Node.untag) :=
          Retagged.onNodes f [w] (fun _ => ⟨rfl, rfl⟩) (fun _ _ _ _ => Or.inl rfl)
        rw [← onNodes_cons hnode List.not_mem_nil, onNodes_nil] at hone
        exact hone
      rcases hloop _ huntag with ⟨f', hcall, hretagged⟩
      refine ⟨f', ?_, huntag.trans hretagged⟩
      rw [← hcall]
      simp only [releaseTickets, hnode, if_neg htag, Option.bind_eq_bind, Option.bind_some]
      rfl

theorem pathError_spec {α : Type} (h : Linked f ids named [] noExtra)
    (hlocked : Locked f locks) (hnodeid : nodeid ∈ ids) (hticket : ticket ≠ 0)
    (hpassable : Passable f nodeid ticket) {wnode : Option Nat}
    (hwnode : forall w, wnode = some w -> w ∈ ids) (err : Int) :
    exists f', pathError nodeid wnode ticket err f =
        some ((.error err : Except Int α), f') ∧
      Retagged nodeid ticket f f' := by
  rw [pathError]
  by_cases hagain : ticket ≠ 0 ∧ err ≠ -EAGAIN
  · rcases releaseTickets_spec h hlocked hnodeid hticket hpassable hwnode with
      ⟨f', hcall, hretagged⟩
    refine ⟨f', ?_, hretagged⟩
    simp only [if_pos hagain, hcall, Option.bind_eq_bind, Option.bind_some, Option.pure_def]
  · exact ⟨f, if_neg hagain, Retagged.refl f⟩

end Retagged

end ShadowFs.Libfuse

import ShadowFs.Fuse.NodeTables

/-!
# Reference counts

Giving up a reference may free a node, then its parent and so on up the tree.  The recursion
is followed up the line of ancestors: what it leaves is linked and counted as before, and
only nodes that the kernel does not hold and nobody has locked are gone.
-/

namespace ShadowFs.Libfuse

open CLib Library LinearHash

/-- The references to a node: one for the lookups of the kernel, one for each child, and
those of `extra` that are about to be given up. -/
def Counted (f : Fuse) (named : List Nat) (extra : Nat -> Nat) : Prop :=
  forall id node, f.nodes id = some node ->
    node.refctr = (if 0 < node.nlookup then 1 else 0) + f.children named id + extra id

/-- A locked node is held by the kernel or has a locked child. -/
def Anchored (f : Fuse) (named : List Nat) : Prop :=
  forall id node, f.nodes id = some node -> node.treelock ≠ 0 -> 0 < node.nlookup ∨
    exists c cnode, f.up named c = some id ∧ f.nodes c = some cnode ∧ cnode.treelock ≠ 0

structure Linked (f : Fuse) (ids named loose : List Nat) (extra : Nat -> Nat) : Prop extends
    Shape f ids named loose where
  counted : Counted f named extra
  anchored : Anchored f named
  freed : forall node, node ∈ f.freeNodes -> node.nlookup = 0
  rootHeld : exists node, f.nodes rootId = some node ∧ 0 < node.nlookup

def oneAt (id x : Nat) : Nat :=
  if x = id then 1 else 0

def noExtra (_ : Nat) : Nat := 0

variable {f f' : Fuse} {ids named loose : List Nat} {extra : Nat -> Nat} {id : Nat}
  {node : Node}

/-!
## One node
-/

theorem put_nodes_cases {x : Nat} {node node1 node' : Node} (hnode : f.nodes id = some node)
    (h : (f.put id (some node1)).nodes x = some node') :
    (x = id ∧ f.nodes x = some node ∧ node' = node1) ∨ (x ≠ id ∧ f.nodes x = some node') := by
  by_cases hx : x = id
  · left
    rw [hx, put_nodes_self] at h
    cases h
    exact ⟨hx, hx ▸ hnode, rfl⟩
  · right
    rw [put_nodes_of_ne f hx] at h
    exact ⟨hx, h⟩

theorem exists_put_node {x : Nat} {node old : Node} (hnode : f.nodes id = some node)
    (h : f.nodes x = some old) (node1 : Node) :
    exists node', (f.put id (some node1)).nodes x = some node' ∧
      ((x = id ∧ old = node ∧ node' = node1) ∨ (x ≠ id ∧ node' = old)) := by
  by_cases hx : x = id
  · rw [hx, hnode] at h
    cases h
    refine ⟨node1, ?_, Or.inl ⟨hx, rfl, rfl⟩⟩
    rw [hx, put_nodes_self]
  · exact ⟨old, (put_nodes_of_ne f hx _).trans h, Or.inr ⟨hx, rfl⟩⟩

theorem Anchored.put (h : Anchored f named) {node1 : Node} (hnode : f.nodes id = some node)
    (hlookup : node1.nlookup = node.nlookup) (hlock : node1.treelock = node.treelock)
    (hup : (f.put id (some node1)).up named = f.up named) :
    Anchored (f.put id (some node1)) named := by
  have hsame : forall x node', (f.put id (some node1)).nodes x = some node' ->
      exists old, f.nodes x = some old ∧ node'.nlookup = old.nlookup ∧
        node'.treelock = old.treelock := by
    intro x node' hx
    rcases put_nodes_cases hnode hx with ⟨_, hold, rfl⟩ | ⟨_, hold⟩
    · exact ⟨node, hold, hlookup, hlock⟩
    · exact ⟨node', hold, rfl, rfl⟩
  intro x node' hx hlocked
  rcases hsame x node' hx with ⟨old, hold, hsameLookup, hsameLock⟩
  rw [hsameLock] at hlocked
  rw [hsameLookup, hup]
  rcases h x old hold hlocked with hheld | ⟨c, cnode, hc, hcnode, hclock⟩
  · exact Or.inl hheld
  · right
    have hlive : exists cnode', (f.put id (some node1)).nodes c = some cnode' := by
      rcases exists_put_node hnode hcnode node1 with ⟨cnode', hcnode', _⟩
      exact ⟨cnode', hcnode'⟩
    rcases hlive with ⟨cnode', hcnode'⟩
    rcases hsame c cnode' hcnode' with ⟨cold, hcold, _, hcsame⟩
    rw [hcnode] at hcold
    cases hcold
    exact ⟨c, cnode', hc, hcnode', hcsame ▸ hclock⟩

theorem rootHeld_put {node1 : Node} (hnode : f.nodes id = some node)
    (hheld : 0 < node.nlookup -> id = rootId -> 0 < node1.nlookup)
    (hroot : exists root, f.nodes rootId = some root ∧ 0 < root.nlookup) :
    exists root, (f.put id (some node1)).nodes rootId = some root ∧ 0 < root.nlookup := by
  rcases hroot with ⟨root, hroot, hlookup⟩
  rcases exists_put_node hnode hroot node1 with ⟨root', hroot', hcase⟩
  refine ⟨root', hroot', ?_⟩
  rcases hcase with ⟨hid, rfl, rfl⟩ | ⟨_, rfl⟩
  · exact hheld hlookup hid.symm
  · exact hlookup

theorem Linked.decrement (h : Linked f ids named loose (oneAt id))
    (hnode : f.nodes id = some node) :
    0 < node.refctr ∧
      Linked (f.put id (some { node with refctr := node.refctr - 1 })) ids named loose
        noExtra := by
  have hlinks : (f.put id (some { node with refctr := node.refctr - 1 })).links = f.links :=
    links_put hnode rfl rfl
  have hcount := h.counted id node hnode
  rw [oneAt, if_pos rfl] at hcount
  refine ⟨by lia, h.toShape.congr rfl rfl hlinks, ?_, ?_, h.freed, ?_⟩
  · intro x node' hnode'
    rw [children_congr (fun c _ => key_congr (congrFun hlinks c)), noExtra]
    rcases put_nodes_cases hnode hnode' with ⟨rfl, _, rfl⟩ | ⟨hx, hold⟩
    · dsimp only
      lia
    · rw [h.counted x node' hold, oneAt, if_neg hx]
  · exact h.anchored.put hnode rfl rfl
      (funext (fun x => up_congr (key_congr (congrFun hlinks x))))
  · exact rootHeld_put hnode (fun hheld _ => hheld) h.rootHeld

theorem Linked.detach (h : Linked f ids named loose noExtra) (hid : id ∈ named) {parent : Nat}
    {name : CString} (hkey : f.key id = some (parent, name)) (hnode : f.nodes id = some node)
    (hheld : node.treelock ≠ 0 ->
      exists pnode, f.nodes parent = some pnode ∧ 0 < pnode.nlookup) {t : LinearHash Nat}
    (ht : Valid f.nameKey tableMinSize t (named.erase id) (loose.length + 1)) :
    Linked { f with nameTable := t } ids (named.erase id) (id :: loose) (oneAt parent) := by
  refine ⟨h.toShape.detach ht, ?_, ?_, h.freed, h.rootHeld⟩
  · intro x xnode hx
    have hcount := h.counted x xnode hx
    have herase := children_erase hid hkey x
    rw [noExtra] at hcount
    rw [oneAt]
    change _ = _ + f.children (named.erase id) x + _
    lia
  · intro x xnode hx hlock
    rcases h.anchored x xnode hx hlock with hlookup | ⟨c, cnode, hc, hcnode, hclock⟩
    · exact Or.inl hlookup
    · by_cases hcid : c = id
      · -- The parent itself: it may lose its only locked child, but is held.
        rcases up_eq_some_iff.mp hc with ⟨_, cname, hckey⟩
        rw [hcid, hnode] at hcnode
        cases hcnode
        rw [hcid, hkey] at hckey
        cases hckey
        rcases hheld hclock with ⟨pnode, hpnode, hlookup⟩
        rw [hpnode] at hx
        cases hx
        exact Or.inl hlookup
      · right
        refine ⟨c, cnode, ?_, hcnode, hclock⟩
        change f.up (named.erase id) c = some x
        rw [up_erase h.namedNodup, Function.update_of_ne hcid]
        exact hc

theorem Linked.clear (h : Linked f ids named (id :: loose) extra) (hid : id ∉ named)
    (hnode : f.nodes id = some node) {t : LinearHash Nat}
    (ht : Valid f.nameKey tableMinSize t named loose.length) :
    Linked { f.put id (some { node with name := none, parent := none }) with nameTable := t }
      ids named loose extra := by
  generalize hnew : { node with name := none, parent := none } = node1
  have hother : forall x, x ≠ id -> (f.put id (some node1)).links x = f.links x :=
    fun x hx => links_put_of_ne f hx _
  have hshape := h.toShape.clear hid hnode ht
  rw [hnew] at hshape
  refine ⟨hshape, ?_, ?_, h.freed, ?_⟩
  · intro x xnode hx
    change _ = _ + (f.put id (some node1)).children named x + _
    rw [children_congr (fun c hc => key_of_ne_of_mem hother hid hc)]
    rcases put_nodes_cases hnode hx with ⟨rfl, _, rfl⟩ | ⟨_, hold⟩
    · rw [← hnew]
      exact h.counted x node hnode
    · exact h.counted x xnode hold
  · exact h.anchored.put hnode (by rw [← hnew]) (by rw [← hnew]) (up_of_change hother hid)
  · exact rootHeld_put hnode (fun hheld _ => by rw [← hnew]; exact hheld) h.rootHeld

theorem Linked.unreferenced (h : Linked f ids named loose noExtra)
    (hnode : f.nodes id = some node) (href : node.refctr = 0) :
    node.nlookup = 0 ∧ node.treelock = 0 ∧ id ≠ rootId ∧
      forall c, c ∈ named -> f.up named c ≠ some id := by
  have hcount := h.counted id node hnode
  rw [href, noExtra] at hcount
  have hlookup : node.nlookup = 0 := by
    by_contra hne
    rw [if_pos (Nat.pos_of_ne_zero hne)] at hcount
    lia
  have hchild : forall c, c ∈ named -> f.up named c ≠ some id :=
    children_eq_zero_iff.mp (by lia)
  refine ⟨hlookup, ?_, ?_, hchild⟩
  · by_contra hlock
    rcases h.anchored id node hnode hlock with hheld | ⟨c, _, hc, _⟩
    · lia
    · exact hchild c (up_eq_some_iff.mp hc).1 hc
  · rintro rfl
    rcases h.rootHeld with ⟨root, hroot, hheld⟩
    rw [hnode] at hroot
    cases hroot
    lia

theorem Linked.free (h : Linked f ids named loose noExtra) (hid : id ∉ named)
    (hnode : f.nodes id = some node) (href : node.refctr = 0) {t : LinearHash Nat}
    (ht : Valid idHash tableMinSize t (ids.erase id) 0) :
    Linked { ({ f with idTable := t } : Fuse).put id none with
      freeNodes := node :: f.freeNodes } (ids.erase id) named loose noExtra := by
  rcases h.unreferenced hnode href with ⟨hlookup, _, hroot, hchild⟩
  have hother : forall x, x ≠ id -> (f.put id none).links x = f.links x :=
    fun x hx => links_put_of_ne f hx _
  have hself : (f.put id none).links id = none := by
    rw [Fuse.links, put_nodes_self, Option.map_none]
  have hold : forall x xnode, (f.put id none).nodes x = some xnode ->
      x ≠ id ∧ f.nodes x = some xnode := by
    intro x xnode hx
    have hne : x ≠ id := by
      rintro rfl
      rw [put_nodes_self] at hx
      cases hx
    rw [put_nodes_of_ne f hne] at hx
    exact ⟨hne, hx⟩
  refine ⟨h.toShape.free hother hid hroot hchild ht rfl hself, ?_, ?_, ?_, ?_⟩
  · intro x xnode hx
    change _ = _ + (f.put id none).children named x + _
    rw [children_congr (fun c hc => key_of_ne_of_mem hother hid hc)]
    exact h.counted x xnode (hold x xnode hx).2
  · intro x xnode hx hlock
    rcases h.anchored x xnode (hold x xnode hx).2 hlock with hheld | ⟨c, cnode, hc, hcnode, hclock⟩
    · exact Or.inl hheld
    · right
      refine ⟨c, cnode, ?_, ?_, hclock⟩
      · change (f.put id none).up named c = some x
        rw [up_of_change hother hid]
        exact hc
      · have hne : c ≠ id := by
          rintro rfl
          exact hid (up_eq_some_iff.mp hc).1
        exact (put_nodes_of_ne f hne none).trans hcnode
  · intro x hx
    rcases List.mem_cons.mp hx with rfl | hx
    · exact hlookup
    · exact h.freed x hx
  · rcases h.rootHeld with ⟨root, hrootNode, hheld⟩
    exact ⟨root, (put_nodes_of_ne f hroot.symm none).trans hrootNode, hheld⟩

/-!
## The recursion
-/

/-- A node that was referred to still is, if it is there. -/
def StillUsed (f f' : Fuse) (x : Nat) : Prop :=
  forall node node', f.nodes x = some node -> f'.nodes x = some node' -> 0 < node.refctr ->
    0 < node'.refctr

theorem StillUsed.of_eq {x : Nat} (h : f'.nodes x = f.nodes x) : StillUsed f f' x := by
  intro node node' hnode hnode' hpos
  rw [h, hnode] at hnode'
  cases hnode'
  exact hpos

/-- What removing nodes on a line does at one node: it is unchanged outside of the line; else
it may lose references, and is gone only if nobody holds or locks it. -/
structure PrunedAt (f f' : Fuse) (named named' line : List Nat) (x : Nat) : Prop where
  outside : x ∉ line -> f'.nodes x = f.nodes x
  kept : forall node', f'.nodes x = some node' -> exists node, f.nodes x = some node ∧
    node' = { node with refctr := node'.refctr }
  gone : forall node, f.nodes x = some node -> f'.nodes x = none ->
    node.nlookup = 0 ∧ node.treelock = 0
  named : x ∈ named' <-> x ∈ named ∧ f'.nodes x ≠ none
  used : StillUsed f f' x

def Fuse.counters (f : Fuse) : Nat × Nat × Nat :=
  (f.ctr, f.generation, f.currTicket)

variable (supply : Supply)

/-- `unref_node`, with the recursion limited to a depth. -/
def UnrefCorrect (depth : Nat) : Prop :=
  forall (f : Fuse) (ids named loose : List Nat) (id : Nat) (line : List Nat),
    Linked f ids named loose (oneAt id) -> id ∈ ids -> Line (f.up named) id line ->
    line.length ≤ depth -> (forall x, x ∈ line -> x ∉ loose) ->
    exists f' ids' named', unrefNode supply (unhashName supply depth) id f = some f' ∧
      Linked f' ids' named' loose noExtra ∧
      (forall x, PrunedAt f f' named named' line x) ∧ f'.counters = f.counters

/-- `unhash_name` of a node with a name, if `unref_node` can be trusted. -/
theorem unhashName_of_unref {depth : Nat} (hunref : UnrefCorrect supply depth)
    (h : Linked f ids named loose noExtra) (hid : id ∈ named) (hnode : f.nodes id = some node)
    {parent : Nat} {name : CString} (hkey : f.key id = some (parent, name))
    (hheld : node.treelock ≠ 0 ->
      exists pnode, f.nodes parent = some pnode ∧ 0 < pnode.nlookup) {above : List Nat}
    (hline : Line (f.up named) parent above) (hself : id ∉ above)
    (hdepth : above.length ≤ depth) (hloose : forall x, x ∈ above -> x ∉ loose) :
    exists f' ids' named', unhashName supply (depth + 1) id f = some f' ∧
      Linked f' ids' named' loose noExtra ∧ id ∉ named' ∧
      f'.nodes id = some { node with name := none, parent := none } ∧
      (forall x, x ≠ id -> PrunedAt f f' named named' above x) ∧ f'.counters = f.counters := by
  rcases h.nameTable.detach hid with ⟨t, ht, hvalid⟩
  have hdetach := h.detach hid hkey hnode hheld hvalid
  have hcut : Line (({ f with nameTable := t } : Fuse).up (named.erase id)) parent above := by
    change Line (f.up (named.erase id)) parent above
    rw [up_erase h.namedNodup]
    refine hline.congr ?_
    intro x hx
    have hne : x ≠ id := by
      rintro rfl
      exact hself hx
    exact Function.update_of_ne hne _ _
  have hfree : forall x, x ∈ above -> x ∉ id :: loose := by
    intro x hx hmem
    rcases List.mem_cons.mp hmem with rfl | hmem
    · exact hself hx
    · exact hloose x hx hmem
  have hparent : parent ∈ ids := by
    rcases h.parent id hid with ⟨parent', name', hkey', hparent⟩
    rw [hkey] at hkey'
    cases hkey'
    exact hparent
  rcases hunref _ _ _ _ parent above hdetach hparent hcut hdepth hfree with
    ⟨f2, ids2, named2, hcall, hlinked, hpruned, hcounters⟩
  have hnode2 : f2.nodes id = some node := (hpruned id).outside hself |>.trans hnode
  have hid2 : id ∉ named2 := by
    intro hmem
    exact h.namedNodup.not_mem_erase ((hpruned id).named.mp hmem).1
  have hpend : Valid f2.nameKey tableMinSize f2.nameTable named2 (loose.length + 1) :=
    hlinked.nameTable
  rcases hpend.release (supply.realloc f2.nameTable) with ⟨t2, hrelease, hvalid2⟩
  refine ⟨_, ids2, named2, ?_, hlinked.clear hid2 hnode2 hvalid2, hid2, ?_, ?_, ?_⟩
  · rcases links_eq_some (key_eq_some_iff.mp hkey) with ⟨node', hnode', hpar, hnam⟩
    rw [hnode] at hnode'
    cases hnode'
    simp only [unhashName, hnode, hnam, hpar, ht, hcall, hnode2, put_nameTable, hrelease,
      Option.isSome_some, if_true, Option.bind_eq_bind, Option.bind_some, Option.pure_def]
  · exact put_nodes_self f2 id _
  · intro x hx
    have hsame : ({ f2.put id (some { node with name := none, parent := none }) with
        nameTable := t2 } : Fuse).nodes x = f2.nodes x := put_nodes_of_ne f2 hx _
    refine ⟨?_, ?_, ?_, ?_, ?_⟩
    · rw [hsame]
      exact (hpruned x).outside
    · rw [hsame]
      exact (hpruned x).kept
    · rw [hsame]
      exact (hpruned x).gone
    · rw [hsame, (hpruned x).named, List.mem_erase_of_ne hx]
    · rw [StillUsed, hsame]
      exact (hpruned x).used
  · exact hcounters

theorem deleteNode_of_unhash {unhash : Nat -> Fuse -> Option Fuse} {f f1 : Fuse}
    {node node1 : Node} (hnode : f.nodes id = some node) (hlock : node.treelock = 0)
    (hunhash : unhash id f = some f1) (h : Linked f1 ids named loose noExtra)
    (hid : id ∉ named) (hnode1 : f1.nodes id = some node1) (href : node1.refctr = 0) :
    exists f' ids', deleteNode supply unhash id f = some f' ∧
      Linked f' ids' named loose noExtra ∧ f'.nodes id = none ∧
      (forall x, x ≠ id -> f'.nodes x = f1.nodes x) ∧ f'.counters = f1.counters := by
  rcases h.idTable.detach (h.mem_of_node hnode1) with ⟨t, ht, hvalid⟩
  rcases hvalid.release (supply.realloc t) with ⟨t', ht', hvalid'⟩
  refine ⟨_, _, ?_, h.free hid hnode1 href hvalid', ?_, ?_, rfl⟩
  · simp only [deleteNode, hnode, hlock, hunhash, unhashId, ht, ht', freeNode, hnode1,
      if_true, Option.bind_eq_bind, Option.bind_some, Option.pure_def]
  · exact put_nodes_self f1 id none
  · intro x hx
    exact put_nodes_of_ne f1 hx none

theorem PrunedAt.delete {f f0 f1 f' : Fuse} {named named' above : List Nat} {x : Nat}
    (hbefore : f0.nodes x = f.nodes x)
    (hpruned : PrunedAt f0 f1 named named' above x) (hafter : f'.nodes x = f1.nodes x) :
    PrunedAt f f' named named' (id :: above) x where
  outside := by
    intro hmem
    rw [hafter, hpruned.outside (fun habove => hmem (List.mem_cons_of_mem _ habove)), hbefore]
  kept := by
    rw [hafter, ← hbefore]
    exact hpruned.kept
  gone := by
    rw [hafter, ← hbefore]
    exact hpruned.gone
  named := by
    rw [hafter]
    exact hpruned.named
  used := by
    rw [StillUsed, hafter, ← hbefore]
    exact hpruned.used

theorem PrunedAt.of_put {f : Fuse} {node : Node} (hnode : f.nodes id = some node) {n : Nat}
    (hpos : 0 < n) (h : Shape f ids named loose) {line : List Nat} (hid : id ∈ line) (x : Nat) :
    PrunedAt f (f.put id (some { node with refctr := n })) named named line x := by
  refine ⟨?_, ?_, ?_, ?_, ?_⟩
  · intro hx
    refine put_nodes_of_ne f ?_ _
    rintro rfl
    exact hx hid
  · intro node' hx
    rcases put_nodes_cases hnode hx with ⟨_, hold, rfl⟩ | ⟨_, hold⟩
    · exact ⟨node, hold, rfl⟩
    · exact ⟨node', hold, rfl⟩
  · intro old hold hnone
    rcases exists_put_node hnode hold { node with refctr := n } with ⟨node', hnode', _⟩
    rw [hnone] at hnode'
    cases hnode'
  · refine ⟨fun hx => ⟨hx, ?_⟩, fun hx => hx.1⟩
    rcases h.exists_node (h.mem_ids hx) with ⟨old, hold⟩
    rcases exists_put_node hnode hold { node with refctr := n } with ⟨node', hnode', _⟩
    rw [hnode']
    exact Option.some_ne_none _
  · intro old node' hold hnode' hused
    rcases put_nodes_cases hnode hnode' with ⟨_, _, rfl⟩ | ⟨_, hsame⟩
    · exact hpos
    · rw [hold] at hsame
      cases hsame
      exact hused

/-- The name of a node that nobody refers to is taken away: it has none, or its parent follows. -/
theorem unhashName_unreferenced {depth : Nat} (hunref : UnrefCorrect supply depth)
    (h : Linked f ids named loose noExtra) (hnode : f.nodes id = some node)
    (href : node.refctr = 0) {line : List Nat} (hline : Line (f.up named) id line)
    (hdepth : line.length ≤ depth + 1) (hloose : forall x, x ∈ line -> x ∉ loose) :
    exists f' ids' named' node', unhashName supply (depth + 1) id f = some f' ∧
      Linked f' ids' named' loose noExtra ∧ id ∉ named' ∧ f'.nodes id = some node' ∧
      node'.refctr = 0 ∧ (forall x, x ≠ id -> PrunedAt f f' named named' line.tail x) ∧
      f'.counters = f.counters := by
  rcases h.unreferenced hnode href with ⟨_, hlock, hroot, _⟩
  by_cases hnamed : id ∈ named
  · rcases h.parent id hnamed with ⟨parent, name, hkey, _⟩
    have hup : f.up named id = some parent := up_eq_some_iff.mpr ⟨hnamed, name, hkey⟩
    rcases hline.of_parent hup with ⟨above, rfl, habove⟩
    rw [List.length_cons] at hdepth
    rcases unhashName_of_unref supply hunref h hnamed hnode hkey (fun hne => absurd hlock hne)
      habove (List.nodup_cons.mp hline.nodup).1 (by lia)
      (fun x hx => hloose x (List.mem_cons_of_mem _ hx)) with
      ⟨f', ids', named', hcall, hlinked, hgone, hnode', hpruned, hcounters⟩
    exact ⟨f', ids', named', _, hcall, hlinked, hgone, hnode', href, hpruned, hcounters⟩
  · have hlinks := h.unnamed id (h.mem_of_node hnode) hroot hnamed (hloose id hline.mem_self)
    rcases links_eq_some hlinks with ⟨node', hnode', _, hname⟩
    rw [hnode] at hnode'
    cases hnode'
    refine ⟨f, ids, named, node, ?_, h, hnamed, hnode, href, ?_, rfl⟩
    · simp [unhashName, hnode, hname]
    · intro x _
      refine ⟨fun _ => rfl, fun node' hx => ⟨node', hx, rfl⟩, ?_, ?_, StillUsed.of_eq rfl⟩
      · intro xnode hx hnone
        rw [hnone] at hx
        cases hx
      · refine ⟨fun hx => ⟨hx, ?_⟩, fun hx => hx.1⟩
        exact nodes_ne_none_iff_links.mpr ((h.live x).mp (h.mem_ids hx))

/-- Giving up a reference never fails, and keeps what holds of the nodes. -/
theorem unref_correct (depth : Nat) : UnrefCorrect supply depth := by
  induction depth with
  | zero =>
      intro f ids named loose id line h hid hline hdepth
      rcases hline.eq_cons with ⟨above, rfl⟩
      rw [List.length_cons] at hdepth
      lia
  | succ depth ih =>
      intro f ids named loose id line h hid hline hdepth hloose
      rcases h.exists_node hid with ⟨node, hnode⟩
      rcases h.decrement hnode with ⟨hpos, hdec⟩
      generalize hless : ({ node with refctr := node.refctr - 1 } : Node) = node0 at hdec
      generalize hput : f.put id (some node0) = f0 at hdec
      have hnode0 : f0.nodes id = some node0 := by
        rw [← hput, put_nodes_self]
      have hcall : unrefNode supply (unhashName supply (depth + 1)) id f =
          if node.refctr - 1 = 0 then
            deleteNode supply (unhashName supply (depth + 1)) id f0 else some f0 := by
        simp only [unrefNode, hnode, hpos, hless, hput, if_true, Option.bind_eq_bind,
          Option.bind_some, Option.pure_def]
      rw [hcall]
      by_cases hzero : node.refctr - 1 = 0
      · rw [if_pos hzero]
        have href0 : node0.refctr = 0 := by
          rw [← hless]
          exact hzero
        rcases hdec.unreferenced hnode0 href0 with ⟨hlookup, hlock, _, _⟩
        have hself : node.nlookup = 0 ∧ node.treelock = 0 := by
          rw [← hless] at hlookup hlock
          exact ⟨hlookup, hlock⟩
        have hbefore : forall x, x ≠ id -> f0.nodes x = f.nodes x := by
          intro x hx
          rw [← hput, put_nodes_of_ne f hx]
        have hlinks0 : f0.links = f.links := by
          rw [← hput]
          exact links_put hnode (by rw [← hless]) (by rw [← hless])
        have hline0 : Line (f0.up named) id line :=
          hline.congr (fun x _ => up_congr (key_congr (congrFun hlinks0 x)))
        rcases unhashName_unreferenced supply ih hdec hnode0 href0 hline0 hdepth hloose with
          ⟨f1, ids1, named1, node1, hf1, hlinked, hgone, hnode1, href1, hpruned, hcounters⟩
        rcases deleteNode_of_unhash supply hnode0 hlock hf1 hlinked hgone hnode1 href1 with
          ⟨f', ids', hdelete, hlinked', hnone, hrest, hcounters'⟩
        refine ⟨f', ids', named1, hdelete, hlinked', ?_, ?_⟩
        · intro x
          by_cases hx : x = id
          · subst hx
            refine ⟨fun hmem => absurd hline.mem_self hmem, ?_, ?_, ?_, ?_⟩
            · intro node' hnode'
              rw [hnone] at hnode'
              cases hnode'
            · intro xnode hxnode _
              rw [hnode] at hxnode
              cases hxnode
              exact hself
            · exact ⟨fun hmem => absurd hmem hgone, fun hmem => absurd hnone hmem.2⟩
            · intro old node' _ hnode'
              rw [hnone] at hnode'
              cases hnode'
          · rcases hline.eq_cons with ⟨above, rfl⟩
            exact PrunedAt.delete (hbefore x hx) (hpruned x hx) (hrest x hx)
        · rw [hcounters', hcounters, ← hput]
          rfl
      · rw [if_neg hzero]
        refine ⟨f0, ids, named, rfl, hdec, ?_, ?_⟩
        · intro x
          rw [← hput, ← hless]
          exact PrunedAt.of_put hnode (Nat.pos_of_ne_zero hzero) h.toShape hline.mem_self x
        · rw [← hput]
          rfl

end ShadowFs.Libfuse

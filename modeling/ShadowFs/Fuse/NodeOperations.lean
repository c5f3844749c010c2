import ShadowFs.Fuse.References

/-!
# Operations on nodes

What each of the operations of `fuse.c` does to a state in which the nodes are linked and
counted.  None of them fails, as long as the kernel names only nodes it holds, a lookup does
not come upon a node that the kernel has forgotten, and the numbers do not run out.
-/

namespace ShadowFs.Libfuse

open CLib Library LinearHash

variable {f f' : Fuse} {ids named loose : List Nat} {extra : Nat -> Nat} {id : Nat}
  {node : Node}

/-!
## Searches
-/

theorem getNodeNocheck_eq (h : Valid idHash tableMinSize f.idTable ids 0) (nodeid : Nat) :
    getNodeNocheck f nodeid = some (if nodeid ∈ ids then some nodeid else none) := by
  have hp : forall a, (a == nodeid) = true -> idHash a = idHash nodeid := by
    intro a ha
    rw [eq_of_beq ha]
  rcases h.find hp with ⟨found, hfind, hsome, hnone⟩
  rw [getNodeNocheck, hfind]
  rcases found with _ | a
  · have habsent : nodeid ∉ ids := by
      intro hmem
      have hne := hnone rfl nodeid hmem
      rw [beq_self_eq_true] at hne
      cases hne
    rw [if_neg habsent]
  · rcases hsome a rfl with ⟨hmem, heq⟩
    rw [← eq_of_beq heq, if_pos hmem]

theorem getNode_eq (h : Valid idHash tableMinSize f.idTable ids 0) (hid : id ∈ ids) :
    getNode f id = some id := by
  rw [getNode, getNodeNocheck_eq h, if_pos hid]
  rfl

theorem Shape.lookupNode (h : Shape f ids named loose) (dir : Nat) (name : CString) :
    exists found, lookupNode f dir name = some found ∧
      (forall id, found = some id -> id ∈ named ∧ f.key id = some (dir, name)) ∧
      (found = none -> forall a, a ∈ named -> f.key a ≠ some (dir, name)) := by
  have hp : forall a, decide (f.key a = some (dir, name)) = true ->
      f.nameKey a = nameHash dir name := by
    intro a ha
    rw [Fuse.nameKey, of_decide_eq_true ha]
  rcases h.nameTable.find hp with ⟨found, hfind, hsome, hnone⟩
  refine ⟨found, hfind, ?_, ?_⟩
  · intro a ha
    rcases hsome a ha with ⟨hmem, hkey⟩
    exact ⟨hmem, of_decide_eq_true hkey⟩
  · intro hfound a ha
    exact of_decide_eq_false (hnone hfound a ha)

theorem Shape.lookupNode_eq_some_iff (h : Shape f ids named loose) {dir : Nat}
    {name : CString} :
    Libfuse.lookupNode f dir name = some (some id) <->
      id ∈ named ∧ f.key id = some (dir, name) := by
  rcases h.lookupNode dir name with ⟨found, hfound, hsome, hnone⟩
  rw [hfound, Option.some.injEq]
  constructor
  · exact hsome id
  · rintro ⟨hmem, hkey⟩
    rcases found with _ | a
    · exact absurd hkey (hnone rfl id hmem)
    · rcases hsome a rfl with ⟨hamem, hakey⟩
      rw [h.unique a id hamem hmem (hakey.trans hkey.symm)]

/-!
## Numbers
-/

/-- How often the counter of `next_id` has been advanced. -/
def Fuse.stamp (f : Fuse) : Nat :=
  f.generation * 2 ^ 32 + f.ctr

def Fuse.CtrValid (f : Fuse) : Prop :=
  f.ctr < 2 ^ 32 ∧ f.generation < 2 ^ 32

def Fuse.advance (f : Fuse) : Fuse :=
  { f with
    ctr := (f.ctr + 1) % 2 ^ 32
    generation := if (f.ctr + 1) % 2 ^ 32 = 0 then (f.generation + 1) % 2 ^ 32
      else f.generation }

theorem nextIdLoop_succ (h : Valid idHash tableMinSize f.idTable ids 0) (rounds : Nat) :
    nextIdLoop (rounds + 1) f =
      if f.advance.ctr ∈ 0 :: FUSE_UNKNOWN_INO :: ids then nextIdLoop rounds f.advance
      else some (f.advance.ctr, f.advance) := by
  rw [nextIdLoop]
  change (if f.advance.ctr = 0 ∨ f.advance.ctr = FUSE_UNKNOWN_INO then nextIdLoop rounds f.advance
    else do
      let found ← getNodeNocheck f.advance f.advance.ctr
      if found.isSome then nextIdLoop rounds f.advance
      else return (f.advance.ctr, f.advance)) = _
  rw [getNodeNocheck_eq (f := f.advance) h]
  by_cases hspecial : f.advance.ctr = 0 ∨ f.advance.ctr = FUSE_UNKNOWN_INO
  · rw [if_pos hspecial, if_pos]
    rcases hspecial with hzero | hunknown
    · rw [hzero]
      exact List.mem_cons_self
    · rw [hunknown]
      exact List.mem_cons_of_mem _ List.mem_cons_self
  · rw [if_neg hspecial]
    rcases not_or.mp hspecial with ⟨hzero, hunknown⟩
    by_cases hmem : f.advance.ctr ∈ ids
    · rw [if_pos hmem, if_pos (List.mem_cons_of_mem _ (List.mem_cons_of_mem _ hmem))]
      rfl
    · rw [if_neg hmem, if_neg]
      · rfl
      · rw [List.mem_cons, List.mem_cons]
        exact fun hor => hor.elim hzero (fun hor => hor.elim hunknown hmem)

/-- A round advances the count by one, as long as the generation does not wrap. -/
theorem advance_stamp (hctr : f.CtrValid) (hroom : f.stamp + 1 < 2 ^ 64) :
    f.advance.CtrValid ∧ f.advance.stamp = f.stamp + 1 := by
  rcases hctr with ⟨hlow, hhigh⟩
  rw [Fuse.stamp] at hroom
  by_cases hwrap : (f.ctr + 1) % 2 ^ 32 = 0
  · have hgen : (f.generation + 1) % 2 ^ 32 = f.generation + 1 := Nat.mod_eq_of_lt (by lia)
    simp only [Fuse.CtrValid, Fuse.stamp, Fuse.advance, if_pos hwrap, hgen]
    lia
  · simp only [Fuse.CtrValid, Fuse.stamp, Fuse.advance, if_neg hwrap]
    lia

theorem exists_lt_not_mem (l : List Nat) {n : Nat} (h : l.length < n) :
    exists v, v < n ∧ v ∉ l := by
  by_contra hall
  have hsub : List.range n ⊆ l := by
    intro v hv
    by_contra hmem
    exact hall ⟨v, List.mem_range.mp hv, hmem⟩
  have hle := (List.subperm_of_subset List.nodup_range hsub).length_le
  rw [List.length_range] at hle
  lia

theorem nextIdLoop_spec (rounds : Nat) (f : Fuse)
    (h : Valid idHash tableMinSize f.idTable ids 0) (hctr : f.CtrValid)
    (hroom : f.stamp + rounds < 2 ^ 64)
    (hfresh : exists j, j < rounds ∧ (f.stamp + 1 + j) % 2 ^ 32 ∉ 0 :: FUSE_UNKNOWN_INO :: ids) :
    exists f', nextIdLoop rounds f = some (f'.ctr, f') ∧
      f' = { f with ctr := f'.ctr, generation := f'.generation } ∧
      f'.ctr ∉ 0 :: FUSE_UNKNOWN_INO :: ids ∧ f'.CtrValid ∧ f.stamp < f'.stamp ∧
      f'.stamp ≤ f.stamp + rounds := by
  induction rounds generalizing f with
  | zero =>
      rcases hfresh with ⟨j, hj, _⟩
      lia
  | succ rounds ih =>
      rcases advance_stamp hctr (by lia) with ⟨hctr', hstamp⟩
      rw [nextIdLoop_succ h]
      split
      · rename_i htaken
        have hnext : exists j, j < rounds ∧
            (f.advance.stamp + 1 + j) % 2 ^ 32 ∉ 0 :: FUSE_UNKNOWN_INO :: ids := by
          rcases hfresh with ⟨j, hj, hfree⟩
          rcases j with _ | j
          · have hfirst : (f.stamp + 1 + 0) % 2 ^ 32 = f.advance.ctr := by
              rw [Fuse.stamp, Fuse.advance]
              dsimp only
              lia
            rw [hfirst] at hfree
            exact absurd htaken hfree
          · refine ⟨j, by lia, ?_⟩
            rw [hstamp, show f.stamp + 1 + 1 + j = f.stamp + 1 + (j + 1) by lia]
            exact hfree
        rcases ih f.advance h hctr' (by lia) hnext with
          ⟨f', hcall, hsame, hfree, hvalid, hlt, hle⟩
        exact ⟨f', hcall, hsame, hfree, hvalid, by lia, by lia⟩
      · rename_i hfree
        exact ⟨f.advance, rfl, rfl, hfree, hctr', by lia, by lia⟩

/-- There is a number left that is not in use, and the counter comes to it. -/
theorem nextId_spec (h : Valid idHash tableMinSize f.idTable ids 0) (hctr : f.CtrValid)
    (hroom : f.generation + 1 < 2 ^ 32) (hfew : ids.length + 2 < 2 ^ 32) :
    exists f', nextId f = some (f'.ctr, f') ∧
      f' = { f with ctr := f'.ctr, generation := f'.generation } ∧
      f'.ctr ∉ 0 :: FUSE_UNKNOWN_INO :: ids ∧ f'.CtrValid ∧ f.stamp < f'.stamp := by
  have hlength : (0 :: FUSE_UNKNOWN_INO :: ids).length < 2 ^ 32 := by
    rw [List.length_cons, List.length_cons]
    exact hfew
  rcases exists_lt_not_mem _ hlength with ⟨v, hv, hfree⟩
  have hreach : exists j, j < 2 ^ 32 ∧
      (f.stamp + 1 + j) % 2 ^ 32 ∉ 0 :: FUSE_UNKNOWN_INO :: ids := by
    refine ⟨(v + 2 ^ 32 - (f.stamp + 1) % 2 ^ 32) % 2 ^ 32, Nat.mod_lt _ (by lia), ?_⟩
    rw [show (f.stamp + 1 + (v + 2 ^ 32 - (f.stamp + 1) % 2 ^ 32) % 2 ^ 32) % 2 ^ 32 = v by lia]
    exact hfree
  have hstamp : f.stamp + 2 ^ 32 < 2 ^ 64 := by
    rw [Fuse.stamp]
    have hlow := hctr.1
    lia
  rcases nextIdLoop_spec (2 ^ 32) f h hctr hstamp hreach with
    ⟨f', hcall, hsame, hnew, hvalid, hlt, _⟩
  exact ⟨f', hcall, hsame, hnew, hvalid, hlt⟩

/-!
## Names
-/

theorem put_put (f : Fuse) (id : Nat) (a b : Option Node) :
    (f.put id a).put id b = f.put id b := by
  simp [Fuse.put]

theorem put_comm (f : Fuse) {id x : Nat} (h : id ≠ x) (a b : Option Node) :
    (f.put id a).put x b = (f.put x b).put id a := by
  simp [Fuse.put, Function.update_comm h]

section Names

variable (supply : Supply)

theorem hashName_cases {parent : Nat} {pnode : Node} (name : CString)
    (hget : getNode f parent = some parent) (hnode : f.nodes id = some node)
    (hpnode : f.nodes parent = some pnode) (hne : parent ≠ id) (hid : id ∉ named)
    (hvalid : Valid f.nameKey tableMinSize f.nameTable named 0) :
    hashName supply id parent name f =
        some (false, f.put id (some { node with name := none })) ∨
      exists t, hashName supply id parent name f = some (true,
          { (f.put parent (some { pnode with refctr := pnode.refctr + 1 })).put id
            (some { node with name := some name, parent := some parent }) with
            nameTable := t }) ∧
        Valid ((f.put parent (some { pnode with refctr := pnode.refctr + 1 })).put id
          (some { node with name := some name, parent := some parent })).nameKey
          tableMinSize t (id :: named) 0 := by
  by_cases hroom : name.length < 32 ∨ supply.strdup = true
  · right
    generalize hlast : (f.put parent (some { pnode with refctr := pnode.refctr + 1 })).put id
      (some { node with name := some name, parent := some parent }) = f1
    have hkey : forall x, x ∈ named -> f1.key x = f.key x := by
      intro x hx
      have hxid : x ≠ id := by
        rintro rfl
        exact hid hx
      have hlinks : (f.put parent (some { pnode with refctr := pnode.refctr + 1 })).links =
          f.links := links_put hpnode rfl rfl
      rw [← hlast, key_put_of_ne _ hxid]
      exact key_congr (congrFun hlinks x)
    have hvalid1 : Valid f1.nameKey tableMinSize f1.nameTable named 0 := by
      rw [← hlast, put_nameTable, put_nameTable, hlast]
      exact hvalid.congr_hash (fun x hx => nameKey_congr (hkey x hx))
    rcases hvalid1.insert (supply.realloc f1.nameTable) id with ⟨t, ht, hvalid2⟩
    refine ⟨t, ?_, hvalid2⟩
    have hstate : ((f.put id (some { node with name := some name })).put parent
        (some { pnode with refctr := pnode.refctr + 1 })).put id
        (some { node with name := some name, parent := some parent }) = f1 := by
      rw [put_comm f hne.symm, put_put, hlast]
    simp only [hashName, hget, hnode, if_pos hroom, put_nodes_of_ne f hne, hpnode,
      put_nodes_of_ne _ hne.symm, put_nodes_self, hstate, ht, Option.bind_eq_bind,
      Option.bind_some, Option.pure_def]
  · left
    simp only [hashName, hget, hnode, if_neg hroom, Option.bind_eq_bind, Option.bind_some,
      Option.pure_def]

theorem Linked.create (h : Linked f ids named [] noExtra) (hid : id ∉ ids)
    (hlinks : node.parent = none ∧ node.name = none)
    (href : node.refctr = if 0 < node.nlookup then 1 else 0) (hlock : node.treelock = 0)
    {t : LinearHash Nat} (ht : Valid idHash tableMinSize t (id :: ids) 0) :
    Linked { f.put id (some node) with idTable := t } (id :: ids) named [] noExtra := by
  have hnone := h.nodes_eq_none hid
  have hother : forall x, x ≠ id -> (f.put id (some node)).links x = f.links x :=
    fun x hx => links_put_of_ne f hx _
  have hself : (f.put id (some node)).links id = some (none, none) := by
    rw [Fuse.links, put_nodes_self, Option.map_some, hlinks.1, hlinks.2]
  have hnamed : id ∉ named := fun hmem => hid (h.mem_ids hmem)
  have hup := up_of_change hother hnamed
  have hkept : forall x xnode, f.nodes x = some xnode -> (f.put id (some node)).nodes x =
      some xnode := by
    intro x xnode hx
    have hxid : x ≠ id := by
      rintro rfl
      rw [hnone] at hx
      cases hx
    rw [put_nodes_of_ne f hxid, hx]
  have hcases : forall x xnode, (f.put id (some node)).nodes x = some xnode ->
      (x = id ∧ xnode = node) ∨ f.nodes x = some xnode := by
    intro x xnode hx
    by_cases hxid : x = id
    · rw [hxid, put_nodes_self] at hx
      cases hx
      exact Or.inl ⟨hxid, rfl⟩
    · rw [put_nodes_of_ne f hxid] at hx
      exact Or.inr hx
  refine ⟨h.toShape.create hother hid ht rfl hself, ?_, ?_, h.freed, ?_⟩
  · intro x xnode hx
    change _ = _ + (f.put id (some node)).children named x + _
    rw [children_congr (fun c hc => key_of_ne_of_mem hother hnamed hc)]
    rcases hcases x xnode hx with ⟨rfl, rfl⟩ | hold
    · have hchildless : f.children named x = 0 := by
        refine children_eq_zero_iff.mpr ?_
        intro c hc hupc
        rcases h.parent c hc with ⟨parent, name, hkey, hparent⟩
        rcases up_eq_some_iff.mp hupc with ⟨_, name', hkey'⟩
        rw [hkey] at hkey'
        cases hkey'
        exact hid hparent
      rw [hchildless, noExtra, href]
      rfl
    · exact h.counted x xnode hold
  · intro x xnode hx hlocked
    rcases hcases x xnode hx with ⟨rfl, rfl⟩ | hold
    · exact absurd hlock hlocked
    · rcases h.anchored x xnode hold hlocked with hheld | ⟨c, cnode, hc, hcnode, hclock⟩
      · exact Or.inl hheld
      · exact Or.inr ⟨c, cnode, (congrFun hup c).trans hc, hkept c cnode hcnode, hclock⟩
  · rcases h.rootHeld with ⟨root, hroot, hheld⟩
    exact ⟨root, hkept rootId root hroot, hheld⟩

theorem Linked.attach (h : Linked f ids named [] noExtra) (hnode : f.nodes id = some node)
    (hid : id ∉ named) (hroot : id ≠ rootId) {parent : Nat} {pnode : Node} {name : CString}
    (hpnode : f.nodes parent = some pnode) (hne : parent ≠ id) {line : List Nat}
    (hline : Line (f.up named) parent line) (hbelow : id ∉ line)
    (hfresh : forall a, a ∈ named -> f.key a ≠ some (parent, name)) {t : LinearHash Nat}
    (ht : Valid ((f.put parent (some { pnode with refctr := pnode.refctr + 1 })).put id
      (some { node with name := some name, parent := some parent })).nameKey
      tableMinSize t (id :: named) 0) :
    Linked { (f.put parent (some { pnode with refctr := pnode.refctr + 1 })).put id
      (some { node with name := some name, parent := some parent }) with
      nameTable := t } ids (id :: named) [] noExtra := by
  generalize hmid : f.put parent (some { pnode with refctr := pnode.refctr + 1 }) = f1 at ht
  have hlinks1 : f1.links = f.links := by
    rw [← hmid]
    exact links_put hpnode rfl rfl
  have hnode1 : f1.nodes id = some node := by
    rw [← hmid, put_nodes_of_ne f hne.symm, hnode]
  generalize hput : f1.put id (some { node with name := some name, parent := some parent }) = f2
    at ht
  have hother : forall x, x ≠ id -> f2.links x = f.links x := by
    intro x hx
    rw [← hput, links_put_of_ne f1 hx, hlinks1]
  have hself : f2.links id = some (some parent, some name) := by
    rw [← hput, Fuse.links, put_nodes_self, Option.map_some]
  have hidTable : f2.idTable = f.idTable := by
    rw [← hput, ← hmid, put_idTable, put_idTable]
  have hcases : forall x xnode, f2.nodes x = some xnode -> exists old, f.nodes x = some old ∧
      xnode.nlookup = old.nlookup ∧ xnode.treelock = old.treelock ∧
      xnode.refctr = old.refctr + if x = parent then 1 else 0 := by
    intro x xnode hx
    rw [← hput] at hx
    rcases put_nodes_cases hnode1 hx with ⟨rfl, _, rfl⟩ | ⟨_, hx1⟩
    · exact ⟨node, hnode, rfl, rfl, by rw [if_neg hne.symm]; rfl⟩
    · rw [← hmid] at hx1
      rcases put_nodes_cases hpnode hx1 with ⟨rfl, hold, rfl⟩ | ⟨hxp, hold⟩
      · exact ⟨pnode, hold, rfl, rfl, by rw [if_pos rfl]⟩
      · exact ⟨xnode, hold, rfl, rfl, by rw [if_neg hxp]; rfl⟩
  have hkept : forall x old, f.nodes x = some old -> exists xnode, f2.nodes x = some xnode := by
    intro x old hold
    refine Option.ne_none_iff_exists'.mp (nodes_ne_none_iff_links.mpr ?_)
    by_cases hx : x = id
    · rw [hx, hself]
      exact Option.some_ne_none _
    · rw [hother x hx, ← nodes_ne_none_iff_links, hold]
      exact Option.some_ne_none _
  have hkey2 : f2.key id = some (parent, name) := key_eq_some_iff.mpr hself
  refine ⟨h.toShape.attach hother (h.mem_of_node hnode) hid hroot (h.mem_of_node hpnode) hline
    hbelow hfresh hidTable ht hself, ?_, ?_, ?_, ?_⟩
  · intro x xnode hx
    rcases hcases x xnode hx with ⟨old, hold, hlookup, _, href⟩
    change _ = _ + f2.children (id :: named) x + _
    rw [href, h.counted x old hold, hlookup, children_cons, hkey2,
      children_congr (fun c hc => key_of_ne_of_mem hother hid hc)]
    simp only [Option.map_some, Option.some.injEq, eq_comm]
    lia
  · intro x xnode hx hlock
    rcases hcases x xnode hx with ⟨old, hold, hlookup, htree, _⟩
    rw [htree] at hlock
    rw [hlookup]
    rcases h.anchored x old hold hlock with hheld | ⟨c, cnode, hc, hcnode, hclock⟩
    · exact Or.inl hheld
    · right
      have hcne : c ≠ id := by
        rintro rfl
        exact hid (up_eq_some_iff.mp hc).1
      rcases hkept c cnode hcnode with ⟨cnode', hcnode'⟩
      rcases hcases c cnode' hcnode' with ⟨cold, hcold, _, hctree, _⟩
      rw [hcnode] at hcold
      cases hcold
      refine ⟨c, cnode', ?_, hcnode', hctree ▸ hclock⟩
      change f2.up (id :: named) c = some x
      rw [up_cons_of_change hother hid hself, Function.update_of_ne hcne]
      exact hc
  · change forall node, node ∈ f2.freeNodes -> _
    rw [← hput, ← hmid]
    exact h.freed
  · rcases h.rootHeld with ⟨root, hrootNode, hheld⟩
    rcases hkept rootId root hrootNode with ⟨root', hroot'⟩
    rcases hcases rootId root' hroot' with ⟨old, hold, hlookup, _⟩
    rw [hrootNode] at hold
    cases hold
    exact ⟨root', hroot', hlookup ▸ hheld⟩

end Names

/-!
## Lookups
-/

theorem Linked.congr (h : Linked f ids named loose extra) (hnodes : f'.nodes = f.nodes)
    (hidTable : f'.idTable = f.idTable) (hnameTable : f'.nameTable = f.nameTable)
    (hfreed : forall node, node ∈ f'.freeNodes -> node.nlookup = 0) :
    Linked f' ids named loose extra := by
  have hlinks : f'.links = f.links := by
    funext x
    rw [Fuse.links, Fuse.links, hnodes]
  have hkey : forall x, f'.key x = f.key x := fun x => key_congr (congrFun hlinks x)
  refine ⟨h.toShape.congr hidTable hnameTable hlinks, ?_, ?_, hfreed, hnodes ▸ h.rootHeld⟩
  · intro x node hx
    rw [hnodes] at hx
    rw [children_congr (fun c _ => hkey c)]
    exact h.counted x node hx
  · intro x node hx hlock
    have hup : f'.up named = f.up named := funext (fun c => up_congr (hkey c))
    rw [hnodes] at hx ⊢
    rw [hup]
    exact h.anchored x node hx hlock

theorem put_none_nodes (h : f.nodes id = none) : (f.put id none).nodes = f.nodes := by
  funext x
  by_cases hx : x = id
  · rw [hx, put_nodes_self, h]
  · exact put_nodes_of_ne f hx none

section Lookups

variable (supply : Supply)

theorem allocNode_cases (h : forall node, node ∈ f.freeNodes -> node.nlookup = 0) :
    allocNode supply f = none ∨
      exists stale rest, allocNode supply f = some (stale, { f with freeNodes := rest }) ∧
        stale.nlookup = 0 ∧ forall node, node ∈ rest -> node.nlookup = 0 := by
  rw [allocNode]
  rcases supply.allocNode with _ | _ | i
  · exact Or.inl rfl
  · exact Or.inr ⟨Node.zero, f.freeNodes, rfl, rfl, h⟩
  · dsimp only
    rcases hi : f.freeNodes[i]? with _ | stale
    · exact Or.inl rfl
    · exact Or.inr ⟨stale, f.freeNodes.eraseIdx i, rfl, h stale (List.mem_of_getElem? hi),
        fun node hnode => h node (List.mem_of_mem_eraseIdx hnode)⟩

def freshNode (f : Fuse) (dir : Nat) (name : CString) : Node :=
  { generation := f.generation, refctr := 1, parent := some dir, name := some name
    nlookup := 1, treelock := 0, ticket := 0 }

/-- The outcome of `find_node` for a name without a node. -/
inductive NewNode (f : Fuse) (ids named : List Nat) (dir : Nat) (name : CString) :
    Option Nat -> Fuse -> Prop
  | failed {f' : Fuse} (hlinked : Linked f' ids named [] noExtra) (hnodes : f'.nodes = f.nodes) :
      NewNode f ids named dir name none f'
  | made {f' : Fuse} {id : Nat} {pnode : Node} (hctr : f'.ctr = id)
      (hfresh : id ∉ 0 :: FUSE_UNKNOWN_INO :: ids)
      (hlinked : Linked f' (id :: ids) (id :: named) [] noExtra)
      (hpnode : f.nodes dir = some pnode)
      (hnodes : f'.nodes = Function.update
        (Function.update f.nodes dir (some { pnode with refctr := pnode.refctr + 1 }))
        id (some (freshNode f' dir name)))
      (hstamp : f.stamp < f'.stamp) :
      NewNode f ids named dir name (some id) f'

theorem Linked.make (h : Linked f ids named [] noExtra) (hid : id ∉ ids) {dir : Nat}
    {name : CString} {pnode : Node} (hdir : dir ∈ ids) (hpnode : f.nodes dir = some pnode)
    (hfree : forall a, a ∈ named -> f.key a ≠ some (dir, name)) {t t' : LinearHash Nat}
    (hids : Valid idHash tableMinSize t' (id :: ids) 0)
    (hnames : Valid ((f.put dir (some { pnode with refctr := pnode.refctr + 1 })).put id
      (some (freshNode f dir name))).nameKey tableMinSize t (id :: named) 0) :
    Linked { (f.put dir (some { pnode with refctr := pnode.refctr + 1 })).put id
      (some (freshNode f dir name)) with idTable := t', nameTable := t }
      (id :: ids) (id :: named) [] noExtra := by
  have hnamed : id ∉ named := fun hmem => hid (h.mem_ids hmem)
  have hne : dir ≠ id := by
    rintro rfl
    exact hid hdir
  generalize hgrow : ({ pnode with refctr := pnode.refctr + 1 } : Node) = pnode1 at hnames
  generalize hbare : ({ freshNode f dir name with parent := none, name := none } : Node) = bare
  -- The state with the number entered before the name.
  generalize hstate : ({ f.put id (some bare) with idTable := t' } : Fuse) = g
  have hg : Linked g (id :: ids) named [] noExtra := by
    rw [← hstate]
    refine h.create hid ?_ ?_ ?_ hids
    · rw [← hbare]
      exact ⟨rfl, rfl⟩
    · rw [← hbare]
      rfl
    · rw [← hbare]
      rfl
  have hgput : (g.put dir (some pnode1)).put id (some (freshNode f dir name)) =
      { (f.put dir (some pnode1)).put id (some (freshNode f dir name)) with idTable := t' } := by
    rw [← hstate]
    change ({ ((f.put id (some bare)).put dir (some pnode1)).put id
      (some (freshNode f dir name)) with idTable := t' } : Fuse) = _
    rw [put_comm f hne.symm, put_put]
  have hother : forall x, x ≠ id -> g.links x = f.links x := by
    intro x hx
    rw [← hstate]
    exact links_put_of_ne f hx _
  have hgnode : g.nodes id = some bare := by
    rw [← hstate]
    exact put_nodes_self f id _
  have hgpnode : g.nodes dir = some pnode := by
    rw [← hstate]
    exact (put_nodes_of_ne f hne _).trans hpnode
  have hroot : id ≠ rootId := by
    rintro rfl
    exact hid h.root.1
  rcases h.lines dir hdir with ⟨line, hline⟩
  have hbelow : id ∉ line := fun hmem => hid (h.line_subset hdir hline id hmem)
  have hgline : Line (g.up named) dir line := by
    rw [up_of_change hother hnamed]
    exact hline
  have hgfree : forall a, a ∈ named -> g.key a ≠ some (dir, name) := by
    intro a ha
    rw [key_of_ne_of_mem hother hnamed ha]
    exact hfree a ha
  have hfresh : ({ bare with name := some name, parent := some dir } : Node) =
      freshNode f dir name := by
    rw [← hbare]
    rfl
  have hgnames : Valid ((g.put dir (some pnode1)).put id
      (some (freshNode f dir name))).nameKey tableMinSize t (id :: named) 0 := by
    rw [hgput]
    exact hnames
  rw [← hgrow, ← hfresh] at hgnames
  have hattach := hg.attach hgnode hnamed hroot hgpnode hne hgline hbelow hgfree hgnames
  rw [hgrow, hfresh, hgput] at hattach
  exact hattach

theorem newNode_spec (h : Linked f ids named [] noExtra) (hctr : f.CtrValid)
    (hroom : f.generation + 1 < 2 ^ 32) (hfew : ids.length + 2 < 2 ^ 32) {dir : Nat}
    {name : CString} (hdir : dir ∈ ids)
    (hfree : forall a, a ∈ named -> f.key a ≠ some (dir, name)) :
    exists out f', newNode supply dir name f = some (out, f') ∧
      NewNode f ids named dir name out f' ∧ f'.CtrValid ∧ f.stamp ≤ f'.stamp ∧
      f'.currTicket = f.currTicket := by
  rcases allocNode_cases supply h.freed with hnone | ⟨stale, rest, halloc, hstale, hrest⟩
  · refine ⟨none, f, ?_, NewNode.failed h rfl, hctr, Nat.le_refl _, rfl⟩
    rw [newNode, hnone]
  · have h1 : Linked { f with freeNodes := rest } ids named [] noExtra :=
      h.congr rfl rfl rfl hrest
    rcases nextId_spec (f := { f with freeNodes := rest }) h1.idTable hctr hroom hfew with
      ⟨f2, hnext, hsame, hid, hctr2, hstamp⟩
    change f.stamp < f2.stamp at hstamp
    have hnodes2 : f2.nodes = f.nodes := by
      rw [hsame]
    have h2 : Linked f2 ids named [] noExtra := by
      refine h.congr hnodes2 ?_ ?_ ?_
      · rw [hsame]
      · rw [hsame]
      · rw [hsame]
        exact hrest
    have hticket : f2.currTicket = f.currTicket := by
      rw [hsame]
    generalize hnum : f2.ctr = id at hnext hid
    have hnew : id ∉ ids := fun hmem => hid (List.mem_cons_of_mem _ (List.mem_cons_of_mem _ hmem))
    have hne : dir ≠ id := by
      rintro rfl
      exact hnew hdir
    have hnamed : id ∉ named := fun hmem => hnew (h.mem_ids hmem)
    rcases h2.exists_node hdir with ⟨pnode, hpnode⟩
    generalize hraw : ({ stale with
      refctr := 1, generation := f2.generation, treelock := 0, ticket := 0 } : Node) = node0
    have hpnode3 : (f2.put id (some node0)).nodes dir = some pnode :=
      (put_nodes_of_ne f2 hne _).trans hpnode
    have hvalid3 : Valid (f2.put id (some node0)).nameKey tableMinSize
        (f2.put id (some node0)).nameTable named 0 := by
      refine h2.nameTable.congr_hash ?_
      intro x hx
      refine nameKey_congr (key_put_of_ne f2 ?_ _)
      rintro rfl
      exact hnamed hx
    have hget : getNode (f2.put id (some node0)) dir = some dir :=
      getNode_eq (f := f2.put id (some node0)) h2.idTable hdir
    have hself : (f2.put id (some node0)).nodes id = some node0 := put_nodes_self f2 id _
    rcases hashName_cases supply name hget hself hpnode3 hne hnamed hvalid3 with
      hfailed | ⟨t, hhashed, hvalid⟩
    · -- The node is freed again; only the counter has moved on.
      generalize hback : ({ node0 with name := none } : Node) = node1 at hfailed
      refine ⟨none, { f2.put id none with freeNodes := node1 :: f2.freeNodes }, ?_,
        NewNode.failed ?_ ?_, hctr2, Nat.le_of_lt hstamp, hticket⟩
      · simp only [newNode, halloc, hnext, hraw, hfailed, freeNode, put_nodes_self, put_put,
          put_freeNodes, Option.bind_eq_bind, Option.bind_some, Option.pure_def,
          Bool.false_eq_true, if_false]
      · refine h2.congr (put_none_nodes (h2.nodes_eq_none hnew)) rfl rfl ?_
        intro x hx
        rcases List.mem_cons.mp hx with rfl | hx
        · rw [← hback, ← hraw]
          exact hstale
        · exact h2.freed x hx
      · exact (put_none_nodes (h2.nodes_eq_none hnew)).trans hnodes2
    · rcases h2.idTable.insert (supply.realloc f2.idTable) id with ⟨t', ht', hvalid'⟩
      generalize hgrow : ({ pnode with refctr := pnode.refctr + 1 } : Node) = pnode1
        at hhashed hvalid
      have hfree2 : forall a, a ∈ named -> f2.key a ≠ some (dir, name) := by
        intro a ha
        rw [Fuse.key, hnodes2]
        exact hfree a ha
      have hnames : Valid ((f2.put dir (some pnode1)).put id
          (some (freshNode f2 dir name))).nameKey tableMinSize t (id :: named) 0 := by
        rw [put_comm f2 hne.symm, put_put] at hvalid
        refine hvalid.congr_hash ?_
        intro x _
        refine nameKey_congr (key_congr ?_)
        by_cases hx : x = id
        · rw [hx, Fuse.links, Fuse.links, put_nodes_self, put_nodes_self]
          rfl
        · rw [links_put_of_ne _ hx, links_put_of_ne _ hx]
      rw [← hgrow] at hnames
      have hlinked := h2.make hnew hdir hpnode hfree2 hvalid' hnames
      rw [hgrow] at hlinked
      have hnodes : ((f2.put dir (some pnode1)).put id (some (freshNode f2 dir name))).nodes =
          Function.update (Function.update f.nodes dir (some pnode1)) id
            (some (freshNode f2 dir name)) := by
        rw [← hnodes2]
        rfl
      have hmade : NewNode f ids named dir name (some id)
          { (f2.put dir (some pnode1)).put id (some (freshNode f2 dir name)) with
            idTable := t', nameTable := t } := by
        rw [← hgrow] at hnodes hlinked ⊢
        exact NewNode.made hnum hid hlinked (hnodes2 ▸ hpnode) hnodes hstamp
      have hfirst : ({ node0 with
          name := some name, parent := some dir, nlookup := node0.nlookup + 1 } : Node) =
          freshNode f2 dir name := by
        rw [← hraw, freshNode, hstale]
      have hlast : forall n : Node, ({ ((f2.put id (some node0)).put dir (some pnode1)).put id
          (some n) with nameTable := t, idTable := t' } : Fuse).put id
          (some (freshNode f2 dir name)) =
          { (f2.put dir (some pnode1)).put id (some (freshNode f2 dir name)) with
            idTable := t', nameTable := t } := by
        intro n
        change ({ (((f2.put id (some node0)).put dir (some pnode1)).put id (some n)).put id
          (some (freshNode f2 dir name)) with nameTable := t, idTable := t' } : Fuse) = _
        rw [put_put, put_comm f2 hne.symm, put_put]
      refine ⟨some id, _, ?_, hmade, hctr2, Nat.le_of_lt hstamp, hticket⟩
      simp only [newNode, halloc, hnext, hraw, hhashed, hashId, put_idTable, ht', countLookup,
        put_nodes_self, hfirst, Option.bind_eq_bind, Option.bind_some, Option.pure_def, if_true]
      exact congrArg (fun g => some (some id, g)) (hlast _)

theorem Linked.touch (h : Linked f ids named loose extra) (hnode : f.nodes id = some node)
    {node1 : Node} (hparent : node1.parent = node.parent) (hname : node1.name = node.name)
    (href : node1.refctr = node.refctr) (hheld : 0 < node1.nlookup <-> 0 < node.nlookup)
    (hanchored : Anchored (f.put id (some node1)) named) :
    Linked (f.put id (some node1)) ids named loose extra := by
  have hlinks : (f.put id (some node1)).links = f.links := links_put hnode hparent hname
  refine ⟨h.toShape.congr rfl rfl hlinks, ?_, hanchored, h.freed, ?_⟩
  · intro x xnode hx
    rw [children_congr (fun c _ => key_congr (congrFun hlinks c))]
    rcases put_nodes_cases hnode hx with ⟨rfl, _, rfl⟩ | ⟨_, hold⟩
    · rw [href, h.counted x node hnode]
      simp only [hheld]
    · exact h.counted x xnode hold
  · exact rootHeld_put hnode (fun hold _ => hheld.mpr hold) h.rootHeld

theorem Linked.lookups (h : Linked f ids named loose extra) (hnode : f.nodes id = some node)
    {n : Nat} (hpos : 0 < n) (hheld : 0 < node.nlookup) :
    Linked (f.put id (some { node with nlookup := n })) ids named loose extra := by
  have hlinks : (f.put id (some { node with nlookup := n })).links = f.links :=
    links_put hnode rfl rfl
  refine h.touch hnode rfl rfl rfl ⟨fun _ => hheld, fun _ => hpos⟩ ?_
  intro x xnode hx hlock
  have hup : (f.put id (some { node with nlookup := n })).up named = f.up named :=
    funext (fun c => up_congr (key_congr (congrFun hlinks c)))
  rw [hup]
  rcases put_nodes_cases hnode hx with ⟨rfl, _, rfl⟩ | ⟨_, hold⟩
  · exact Or.inl hpos
  · rcases h.anchored x xnode hold hlock with hlookup | ⟨c, cnode, hc, hcnode, hclock⟩
    · exact Or.inl hlookup
    · right
      rcases exists_put_node hnode hcnode { node with nlookup := n } with
        ⟨cnode', hcnode', hcase⟩
      refine ⟨c, cnode', hc, hcnode', ?_⟩
      rcases hcase with ⟨_, rfl, rfl⟩ | ⟨_, rfl⟩
      · exact hclock
      · exact hclock

/-- The outcome of `find_node`: the node is there, or one is made. -/
inductive Found (f : Fuse) (ids named : List Nat) (dir : Nat) (name : CString) :
    Option Nat -> Fuse -> Prop
  | old {id : Nat} {node : Node} (hid : id ∈ named) (hkey : f.key id = some (dir, name))
      (hnode : f.nodes id = some node)
      (hlinked : Linked (f.put id (some { node with nlookup := node.nlookup + 1 })) ids named []
        noExtra) :
      Found f ids named dir name (some id)
        (f.put id (some { node with nlookup := node.nlookup + 1 }))
  | new {out : Option Nat} {f' : Fuse}
      (hfree : forall a, a ∈ named -> f.key a ≠ some (dir, name))
      (hnew : NewNode f ids named dir name out f') : Found f ids named dir name out f'

theorem findNode_spec (h : Linked f ids named [] noExtra) (hctr : f.CtrValid)
    (hroom : f.generation + 1 < 2 ^ 32) (hfew : ids.length + 2 < 2 ^ 32) {dir : Nat}
    {name : CString} (hdir : dir ∈ ids)
    (hheld : forall id node, lookupNode f dir name = some (some id) -> f.nodes id = some node ->
      0 < node.nlookup) :
    exists out f', findNode supply dir name f = some (out, f') ∧
      Found f ids named dir name out f' ∧ f'.CtrValid ∧ f.stamp ≤ f'.stamp ∧
      f'.currTicket = f.currTicket := by
  rcases h.lookupNode dir name with ⟨found, hfound, hsome, hnone⟩
  rcases found with _ | id
  · rcases newNode_spec supply h hctr hroom hfew hdir (hnone rfl) with
      ⟨out, f', hcall, hnew, hrest⟩
    refine ⟨out, f', ?_, Found.new (hnone rfl) hnew, hrest⟩
    rw [findNode, hfound, Option.bind_eq_bind, Option.bind_some]
    exact hcall
  · rcases hsome id rfl with ⟨hid, hkey⟩
    rcases h.exists_node (h.mem_ids hid) with ⟨node, hnode⟩
    have hlinked := h.lookups hnode (Nat.succ_pos node.nlookup) (hheld id node hfound hnode)
    refine ⟨some id, _, ?_, Found.old hid hkey hnode hlinked, hctr, Nat.le_refl _, rfl⟩
    simp only [findNode, hfound, countLookup, hnode, Option.bind_eq_bind, Option.bind_some,
      Option.pure_def]

end Lookups

/-!
## Forgetting
-/

section Removal

variable (supply : Supply)

theorem forgetWaits_eq_false_iff (hnode : f.nodes id = some node) (n : Nat) :
    forgetWaits f id n = false <-> (node.nlookup = n -> node.treelock = 0) := by
  rw [forgetWaits, hnode]
  simp

/-- Nothing is lost of a node but names and references. -/
def Node.Alike (node node' : Node) : Prop :=
  node'.generation = node.generation ∧ node'.nlookup = node.nlookup ∧
    node'.treelock = node.treelock ∧ node'.ticket = node.ticket

/-- Only the nodes `gone` are linked in another way; of the others some may be freed that
nobody holds or locks. -/
structure Relinked (f f' : Fuse) (named named' gone : List Nat) : Prop where
  alike : forall x node', f'.nodes x = some node' -> exists node, f.nodes x = some node ∧
    node.Alike node'
  held : forall x node, f.nodes x = some node -> 0 < node.nlookup ∨ node.treelock ≠ 0 ->
    f'.nodes x ≠ none
  names : forall x, x ∉ gone -> (x ∈ named' <-> x ∈ named ∧ f'.nodes x ≠ none)
  links : forall x, x ∉ gone -> f'.nodes x ≠ none -> f'.links x = f.links x
  used : forall x, StillUsed f f' x

/-- The names of the nodes `gone` are taken away. -/
structure Cut (f f' : Fuse) (named named' gone : List Nat) : Prop extends
    Relinked f f' named named' gone where
  removed : forall x, x ∈ gone -> x ∉ named'
  cleared : forall x, x ∈ gone -> f'.nodes x ≠ none -> f'.links x = some (none, none)

theorem Cut.refl (h : Shape f ids named loose) : Cut f f named named [] where
  alike := fun x node hx => ⟨node, hx, rfl, rfl, rfl, rfl⟩
  held := by
    intro x node hx _ hnone
    rw [hx] at hnone
    cases hnone
  names := by
    intro x _
    refine ⟨fun hx => ⟨hx, ?_⟩, fun hx => hx.1⟩
    exact nodes_ne_none_iff_links.mpr ((h.live x).mp (h.mem_ids hx))
  links := fun x _ _ => rfl
  used := fun x => StillUsed.of_eq rfl
  removed := fun x hx => absurd hx List.not_mem_nil
  cleared := fun x hx => absurd hx List.not_mem_nil

section Relinked

variable {named' gone : List Nat}

theorem Relinked.live (h : Relinked f f' named named' gone) {x : Nat}
    (hx : f'.nodes x ≠ none) : f.nodes x ≠ none := by
  rcases Option.ne_none_iff_exists'.mp hx with ⟨node', hnode'⟩
  rcases h.alike x node' hnode' with ⟨node, hnode, _⟩
  rw [hnode]
  exact Option.some_ne_none _

theorem Relinked.exists_alike (h : Relinked f f' named named' gone) {x : Nat} {node : Node}
    (hnode : f.nodes x = some node) (hheld : 0 < node.nlookup ∨ node.treelock ≠ 0) :
    exists node', f'.nodes x = some node' ∧ node.Alike node' := by
  rcases Option.ne_none_iff_exists'.mp (h.held x node hnode hheld) with ⟨node', hnode'⟩
  rcases h.alike x node' hnode' with ⟨old, hold, halike⟩
  rw [hnode] at hold
  cases hold
  exact ⟨node', hnode', halike⟩

theorem Relinked.trans {f1 f2 : Fuse} {named1 named2 gone1 gone2 : List Nat}
    (h1 : Relinked f f1 named named1 gone1) (h2 : Relinked f1 f2 named1 named2 gone2) :
    Relinked f f2 named named2 (gone1 ++ gone2) where
  alike := by
    intro x node2 hx
    rcases h2.alike x node2 hx with ⟨node1, hnode1, hgen2, hlookup2, hlock2, hticket2⟩
    rcases h1.alike x node1 hnode1 with ⟨node, hnode, hgen1, hlookup1, hlock1, hticket1⟩
    exact ⟨node, hnode, hgen2.trans hgen1, hlookup2.trans hlookup1, hlock2.trans hlock1,
      hticket2.trans hticket1⟩
  held := by
    intro x node hx hheld
    rcases h1.exists_alike hx hheld with ⟨node1, hnode1, _, hlookup, hlock, _⟩
    rw [← hlookup, ← hlock] at hheld
    exact h2.held x node1 hnode1 hheld
  names := by
    intro x hx
    rw [List.mem_append, not_or] at hx
    rw [h2.names x hx.2, h1.names x hx.1]
    exact ⟨fun hmem => ⟨hmem.1.1, hmem.2⟩, fun hmem => ⟨⟨hmem.1, h2.live hmem.2⟩, hmem.2⟩⟩
  links := by
    intro x hx hlive
    rw [List.mem_append, not_or] at hx
    rw [h2.links x hx.2 hlive, h1.links x hx.1 (h2.live hlive)]
  used := by
    intro x node node2 hnode hnode2 hpos
    rcases h2.alike x node2 hnode2 with ⟨node1, hnode1, _⟩
    exact h2.used x node1 node2 hnode1 hnode2 (h1.used x node node1 hnode hnode1 hpos)

theorem Cut.names_subset (h : Cut f f' named named' gone) {x : Nat} (hx : x ∈ named') :
    x ∈ named ∧ x ∉ gone ∧ f'.links x = f.links x := by
  have hgone : x ∉ gone := fun hmem => h.removed x hmem hx
  rcases (h.names x hgone).mp hx with ⟨hmem, hlive⟩
  exact ⟨hmem, hgone, h.links x hgone hlive⟩

/-- Without some of the names, the way up from a node is no longer. -/
theorem Cut.up_fewer (h : Cut f f' named named' gone) :
    forall x y, f'.up named' x = some y -> f.up named x = some y := by
  intro x y hup
  rcases up_eq_some_iff.mp hup with ⟨hx, name, hkey⟩
  rcases h.names_subset hx with ⟨hmem, _, hlinks⟩
  rw [key_congr hlinks] at hkey
  exact up_eq_some_iff.mpr ⟨hmem, name, hkey⟩

end Relinked

theorem PrunedAt.links {named' line : List Nat} {x : Nat}
    (h : PrunedAt f f' named named' line x) (hlive : f'.nodes x ≠ none) :
    f'.links x = f.links x := by
  rcases Option.ne_none_iff_exists'.mp hlive with ⟨node', hnode'⟩
  rcases h.kept node' hnode' with ⟨node, hnode, heq⟩
  rw [Fuse.links, Fuse.links, hnode', hnode, Option.map_some, Option.map_some, heq]

theorem PrunedAt.alike {named' line : List Nat} {x : Nat}
    (h : PrunedAt f f' named named' line x) {node' : Node} (hnode' : f'.nodes x = some node') :
    exists node, f.nodes x = some node ∧ node.Alike node' := by
  rcases h.kept node' hnode' with ⟨node, hnode, heq⟩
  rw [heq]
  exact ⟨node, hnode, rfl, rfl, rfl, rfl⟩

theorem PrunedAt.survives {named' line : List Nat} {x : Nat}
    (h : PrunedAt f f' named named' line x) {node : Node} (hnode : f.nodes x = some node)
    (hheld : 0 < node.nlookup ∨ node.treelock ≠ 0) : f'.nodes x ≠ none := by
  intro hnone
  rcases h.gone node hnode hnone with ⟨hlookup, hlock⟩
  rcases hheld with hheld | hheld
  · lia
  · exact hheld hlock

theorem Cut.of_pruned {named' line : List Nat}
    (h : forall x, PrunedAt f f' named named' line x) : Cut f f' named named' [] where
  alike := fun x _ hx => (h x).alike hx
  held := fun x _ hx => (h x).survives hx
  names := fun x _ => (h x).named
  links := fun x _ hx => (h x).links hx
  used := fun x => (h x).used
  removed := fun _ hx => absurd hx List.not_mem_nil
  cleared := fun _ hx => absurd hx List.not_mem_nil

theorem Linked.noLookups (h : Linked f ids named loose noExtra) (hnode : f.nodes id = some node)
    (hroot : id ≠ rootId) (hheld : 0 < node.nlookup) (hfree : node.treelock = 0) :
    Linked (f.put id (some { node with nlookup := 0 })) ids named loose (oneAt id) := by
  have hlinks : (f.put id (some { node with nlookup := 0 })).links = f.links :=
    links_put hnode rfl rfl
  have hup : (f.put id (some { node with nlookup := 0 })).up named = f.up named :=
    funext (fun c => up_congr (key_congr (congrFun hlinks c)))
  refine ⟨h.toShape.congr rfl rfl hlinks, ?_, ?_, h.freed, ?_⟩
  · intro x xnode hx
    rw [children_congr (fun c _ => key_congr (congrFun hlinks c))]
    rcases put_nodes_cases hnode hx with ⟨rfl, _, rfl⟩ | ⟨hne, hold⟩
    · have hcount := h.counted x node hnode
      rw [if_pos hheld, noExtra] at hcount
      rw [oneAt, if_pos rfl]
      dsimp only
      rw [if_neg (Nat.lt_irrefl 0)]
      lia
    · rw [h.counted x xnode hold, oneAt, if_neg hne, noExtra]
  · intro x xnode hx hlock
    rw [hup]
    rcases put_nodes_cases hnode hx with ⟨rfl, _, rfl⟩ | ⟨_, hold⟩
    · exact absurd hfree hlock
    · rcases h.anchored x xnode hold hlock with hlookup | ⟨c, cnode, hc, hcnode, hclock⟩
      · exact Or.inl hlookup
      · right
        have hcne : c ≠ id := by
          rintro rfl
          rw [hnode] at hcnode
          cases hcnode
          exact hclock hfree
        exact ⟨c, cnode, hc, (put_nodes_of_ne f hcne _).trans hcnode, hclock⟩
  · exact rootHeld_put hnode (fun _ heq => absurd heq hroot) h.rootHeld

theorem forgetNode_spec (h : Linked f ids named [] noExtra) (hroot : id ≠ rootId)
    (hnode : f.nodes id = some node) {n : Nat} (hpos : 0 < n) (hle : n ≤ node.nlookup)
    (hwait : forgetWaits f id n = false) :
    exists f' ids' named', forgetNode supply id n f = some f' ∧
      Linked f' ids' named' [] noExtra ∧ f'.counters = f.counters ∧
      Cut (f.put id (some { node with nlookup := node.nlookup - n })) f' named named' [] := by
  have hget := getNode_eq h.idTable (h.mem_of_node hnode)
  generalize hless : ({ node with nlookup := node.nlookup - n } : Node) = node0
  generalize hput : f.put id (some node0) = f0
  have hnode0 : f0.nodes id = some node0 := by
    rw [← hput, put_nodes_self]
  have hcall : forgetNode supply id n f =
      if node.nlookup - n = 0 then unrefNode supply (unhashName supply f0.depth) id f0
      else some f0 := by
    simp only [forgetNode, if_neg hroot, hget, hnode, if_pos hle, hless, hput,
      Option.bind_eq_bind, Option.bind_some, Option.pure_def]
  rw [hcall]
  by_cases hzero : node.nlookup - n = 0
  · have hlast : node.nlookup = n := by lia
    have hfree := (forgetWaits_eq_false_iff hnode n).mp hwait hlast
    have hextra : Linked f0 ids named [] (oneAt id) := by
      rw [← hput, ← hless, hzero]
      exact h.noLookups hnode hroot (by lia) hfree
    have hid := hextra.mem_of_node hnode0
    rcases hextra.lines id hid with ⟨line, hline⟩
    rcases unref_correct supply f0.depth f0 ids named [] id line hextra hid hline
      (hextra.line_length_le hid hline) (fun x _ => List.not_mem_nil) with
      ⟨f', ids', named', hunref, hlinked, hpruned, hcounters⟩
    refine ⟨f', ids', named', ?_, hlinked, ?_, Cut.of_pruned hpruned⟩
    · rw [if_pos hzero]
      exact hunref
    · rw [hcounters, ← hput]
      rfl
  · have hlinked : Linked f0 ids named [] noExtra := by
      rw [← hput, ← hless]
      exact h.lookups hnode (by lia) (by lia)
    refine ⟨f0, ids, named, if_neg hzero, hlinked, ?_, Cut.refl hlinked.toShape⟩
    rw [← hput]
    rfl

/-!
## Removing and renaming
-/

/-- The kernel holds a node. -/
def Fuse.Holds (f : Fuse) (id : Nat) : Prop :=
  exists node, f.nodes id = some node ∧ 0 < node.nlookup

theorem Fuse.Holds.live (h : f.Holds id) : f.nodes id ≠ none := by
  rcases h with ⟨node, hnode, _⟩
  rw [hnode]
  exact Option.some_ne_none _

theorem Relinked.holds {named' gone : List Nat} (h : Relinked f f' named named' gone)
    (hheld : f.Holds id) : f'.Holds id := by
  rcases hheld with ⟨node, hnode, hlookup⟩
  rcases h.exists_alike hnode (Or.inl hlookup) with ⟨node', hnode', _, hsame, _⟩
  exact ⟨node', hnode', hsame ▸ hlookup⟩

theorem unhashName_spec (h : Linked f ids named [] noExtra) (hid : id ∈ named) {dir : Nat}
    {name : CString} (hkey : f.key id = some (dir, name)) (hdir : f.Holds dir) :
    exists f' ids' named', unhashName supply (f.depth + 1) id f = some f' ∧
      Linked f' ids' named' [] noExtra ∧ f'.counters = f.counters ∧
      f'.nodes id ≠ none ∧ Cut f f' named named' [id] := by
  rcases h.exists_node (h.mem_ids hid) with ⟨node, hnode⟩
  rcases h.lines id (h.mem_ids hid) with ⟨line, hline⟩
  rcases hline.of_parent (up_eq_some_iff.mpr ⟨hid, name, hkey⟩) with ⟨above, rfl, habove⟩
  have hdepth := h.line_length_le (h.mem_ids hid) hline
  rw [List.length_cons] at hdepth
  rcases unhashName_of_unref supply (unref_correct supply f.depth) h hid hnode hkey
    (fun _ => hdir) habove (List.nodup_cons.mp hline.nodup).1 (by lia)
    (fun x _ => List.not_mem_nil) with
    ⟨f', ids', named', hcall, hlinked, hgone, hnode', hpruned, hcounters⟩
  have hlive : f'.nodes id ≠ none := by
    rw [hnode']
    exact Option.some_ne_none _
  refine ⟨f', ids', named', hcall, hlinked, hcounters, hlive, ⟨?_, ?_, ?_, ?_, ?_⟩, ?_, ?_⟩
  · intro x xnode hx
    by_cases hxid : x = id
    · rw [hxid, hnode'] at hx
      cases hx
      exact ⟨node, hxid ▸ hnode, rfl, rfl, rfl, rfl⟩
    · exact (hpruned x hxid).alike hx
  · intro x xnode hx hheld
    by_cases hxid : x = id
    · rw [hxid]
      exact hlive
    · exact (hpruned x hxid).survives hx hheld
  · intro x hx
    exact (hpruned x (fun heq => hx (List.mem_singleton.mpr heq))).named
  · intro x hx hxlive
    exact (hpruned x (fun heq => hx (List.mem_singleton.mpr heq))).links hxlive
  · intro x
    by_cases hxid : x = id
    · intro old new hold hnew hpos
      rw [hxid, hnode] at hold
      rw [hxid, hnode'] at hnew
      cases hold
      cases hnew
      exact hpos
    · exact (hpruned x hxid).used
  · intro x hx
    rw [List.mem_singleton.mp hx]
    exact hgone
  · intro x hx _
    rw [List.mem_singleton.mp hx, Fuse.links, hnode', Option.map_some]

theorem removeNode_spec (h : Linked f ids named [] noExtra) {dir : Nat} (name : CString)
    (hdir : f.Holds dir) :
    exists f' ids' named', removeNode supply dir name f = some f' ∧
      Linked f' ids' named' [] noExtra ∧ f'.counters = f.counters ∧
      exists gone, Cut f f' named named' gone ∧
        forall x, x ∈ gone <-> lookupNode f dir name = some (some x) := by
  rcases h.lookupNode dir name with ⟨found, hfound, hsome, _⟩
  rcases found with _ | id
  · refine ⟨f, ids, named, ?_, h, rfl, [], Cut.refl h.toShape, ?_⟩
    · rw [removeNode, hfound]
      rfl
    · intro x
      rw [hfound]
      simp
  · rcases hsome id rfl with ⟨hid, hkey⟩
    rcases unhashName_spec supply h hid hkey hdir with
      ⟨f', ids', named', hcall, hlinked, hcounters, _, hcut⟩
    refine ⟨f', ids', named', ?_, hlinked, hcounters, [id], hcut, ?_⟩
    · rw [removeNode, hfound]
      exact hcall
    · intro x
      rw [hfound]
      simp [eq_comm]

theorem hashName_spec (h : Linked f ids named [] noExtra)
    (hlinks : f.links id = some (none, none)) (hid : id ∉ named) (hroot : id ≠ rootId)
    {dir : Nat} {name : CString} (hdir : dir ∈ ids) {line : List Nat}
    (hline : Line (f.up named) dir line) (hbelow : id ∉ line)
    (hfresh : forall a, a ∈ named -> f.key a ≠ some (dir, name)) :
    exists hashed f' named', hashName supply id dir name f = some (hashed, f') ∧
      Linked f' ids named' [] noExtra ∧ f'.counters = f.counters ∧
      Relinked f f' named named' [id] ∧
      ((hashed = false ∧ id ∉ named' ∧ f'.links id = some (none, none)) ∨
        (hashed = true ∧ id ∈ named' ∧ f'.links id = some (some dir, some name))) := by
  rcases links_eq_some hlinks with ⟨node, hnode, hparent, hname⟩
  rcases h.exists_node hdir with ⟨pnode, hpnode⟩
  have hne : dir ≠ id := by
    rintro rfl
    exact hbelow hline.mem_self
  have hget := getNode_eq h.idTable hdir
  rcases hashName_cases supply name hget hnode hpnode hne hid h.nameTable with
    hfailed | ⟨t, hhashed, hvalid⟩
  · have hsame : f.put id (some { node with name := none }) = f := by
      have heq : ({ node with name := none } : Node) = node := by
        rw [← hname]
      rw [heq, Fuse.put, ← hnode, Function.update_eq_self]
    rw [hsame] at hfailed
    refine ⟨false, f, named, hfailed, h, rfl, ?_, Or.inl ⟨rfl, hid, hlinks⟩⟩
    have hrefl := (Cut.refl h.toShape).toRelinked
    exact ⟨hrefl.alike, hrefl.held, fun x _ => hrefl.names x List.not_mem_nil,
      fun x _ => hrefl.links x List.not_mem_nil, hrefl.used⟩
  · have hlinked := h.attach hnode hid hroot hpnode hne hline hbelow hfresh hvalid
    generalize hgrow : ({ pnode with refctr := pnode.refctr + 1 } : Node) = pnode1
      at hhashed hlinked
    generalize hgive : ({ node with name := some name, parent := some dir } : Node) = node1
      at hhashed hlinked
    have hself : ((f.put dir (some pnode1)).put id (some node1)).links id =
        some (some dir, some name) := by
      rw [Fuse.links, put_nodes_self, Option.map_some, ← hgive]
    have hcases : forall x xnode, ((f.put dir (some pnode1)).put id (some node1)).nodes x =
        some xnode -> exists old, f.nodes x = some old ∧ old.Alike xnode ∧
          old.refctr ≤ xnode.refctr := by
      intro x xnode hx
      have hmid : (f.put dir (some pnode1)).nodes id = some node :=
        (put_nodes_of_ne f hne.symm _).trans hnode
      rcases put_nodes_cases hmid hx with ⟨rfl, _, rfl⟩ | ⟨_, hx1⟩
      · refine ⟨node, hnode, ?_⟩
        rw [← hgive]
        exact ⟨⟨rfl, rfl, rfl, rfl⟩, Nat.le_refl _⟩
      · rcases put_nodes_cases hpnode hx1 with ⟨rfl, hold, rfl⟩ | ⟨_, hold⟩
        · refine ⟨pnode, hold, ?_⟩
          rw [← hgrow]
          exact ⟨⟨rfl, rfl, rfl, rfl⟩, Nat.le_succ _⟩
        · exact ⟨xnode, hold, ⟨rfl, rfl, rfl, rfl⟩, Nat.le_refl _⟩
    have hlive : forall x, f.nodes x ≠ none ->
        ((f.put dir (some pnode1)).put id (some node1)).nodes x ≠ none := by
      intro x hx
      by_cases hxid : x = id
      · rw [hxid, put_nodes_self]
        exact Option.some_ne_none _
      · rw [put_nodes_of_ne _ hxid]
        by_cases hxdir : x = dir
        · rw [hxdir, put_nodes_self]
          exact Option.some_ne_none _
        · rw [put_nodes_of_ne f hxdir]
          exact hx
    refine ⟨true, _, id :: named, hhashed, hlinked, rfl, ⟨?_, ?_, ?_, ?_, ?_⟩,
      Or.inr ⟨rfl, List.mem_cons_self, hself⟩⟩
    · intro x xnode hx
      rcases hcases x xnode hx with ⟨old, hold, halike, _⟩
      exact ⟨old, hold, halike⟩
    · intro x xnode hx _
      refine hlive x ?_
      rw [hx]
      exact Option.some_ne_none _
    · intro x hx
      rw [List.mem_singleton] at hx
      rw [List.mem_cons, or_iff_right hx]
      refine ⟨fun hmem => ⟨hmem, hlive x ?_⟩, fun hmem => hmem.1⟩
      exact nodes_ne_none_iff_links.mpr ((h.live x).mp (h.mem_ids hmem))
    · intro x hx _
      rw [List.mem_singleton] at hx
      change ((f.put dir (some pnode1)).put id (some node1)).links x = f.links x
      rw [links_put_of_ne _ hx]
      refine congrFun (links_put hpnode ?_ ?_) x
      · rw [← hgrow]
      · rw [← hgrow]
    · intro x old xnode hold hx hpos
      rcases hcases x xnode hx with ⟨old', hold', _, hle⟩
      rw [hold] at hold'
      cases hold'
      exact Nat.lt_of_lt_of_le hpos hle

/-- What `rename_node` does: the node that is moved and the one in its place are linked in
another way; they are left without names, but for the first if it gets the new name. -/
structure Renamed (f f' : Fuse) (named named' : List Nat) (olddir : Nat) (oldname : CString)
    (newdir : Nat) (newname : CString) (err : Int) (gone : List Nat) : Prop extends
    Relinked f f' named named' gone where
  entries : forall x, x ∈ gone -> lookupNode f olddir oldname = some (some x) ∨
    lookupNode f newdir newname = some (some x)
  outcome : forall x, x ∈ gone -> f'.nodes x ≠ none ->
    (x ∉ named' ∧ f'.links x = some (none, none)) ∨
      (err = 0 ∧ lookupNode f olddir oldname = some (some x) ∧ x ∈ named' ∧
        f'.links x = some (some newdir, some newname))

theorem moveNode_spec (h : Linked f ids named [] noExtra) (hid : id ∈ named) {olddir : Nat}
    {oldname : CString} (hkey : f.key id = some (olddir, oldname)) (hold : f.Holds olddir)
    {newdir : Nat} {newname : CString} (hnew : f.Holds newdir)
    (hbelow : forall line, Line (f.up named) newdir line -> id ∉ line)
    (hfree : forall a, a ∈ named -> f.key a ≠ some (newdir, newname)) :
    exists f1 hashed f' ids' named', unhashName supply (f.depth + 1) id f = some f1 ∧
      hashName supply id newdir newname f1 = some (hashed, f') ∧
      Linked f' ids' named' [] noExtra ∧ f'.counters = f.counters ∧
      Relinked f f' named named' ([id] ++ [id]) ∧
      ((hashed = false ∧ id ∉ named' ∧ f'.links id = some (none, none)) ∨
        (hashed = true ∧ id ∈ named' ∧ f'.links id = some (some newdir, some newname))) := by
  rcases unhashName_spec supply h hid hkey hold with
    ⟨f1, ids1, named1, hunhash, h1, hcounters1, hlive1, hcut⟩
  have hroot : id ≠ rootId := by
    rintro rfl
    exact h.root.2 hid
  rcases hcut.holds hnew with ⟨pnode, hpnode, _⟩
  have hdir := h1.mem_of_node hpnode
  rcases h1.lines newdir hdir with ⟨line1, hline1⟩
  have habove : id ∉ line1 := by
    intro hmem
    rcases hnew with ⟨dnode, hdnode, _⟩
    rcases h.lines newdir (h.mem_of_node hdnode) with ⟨line, hline⟩
    exact hbelow line hline (hline1.subset_of_fewer hline hcut.up_fewer id hmem)
  have hfresh : forall a, a ∈ named1 -> f1.key a ≠ some (newdir, newname) := by
    intro a ha hakey
    rcases hcut.names_subset ha with ⟨hmem, _, hlinks⟩
    rw [key_congr hlinks] at hakey
    exact hfree a hmem hakey
  have hself : id ∈ [id] := List.mem_singleton_self id
  rcases hashName_spec supply h1 (hcut.cleared id hself hlive1) (hcut.removed id hself) hroot
    hdir hline1 habove hfresh with ⟨hashed, f', named', hhash, h', hcounters', hrelinked, hresult⟩
  exact ⟨f1, hashed, f', ids1, named', hunhash, hhash, h', hcounters'.trans hcounters1,
    hcut.toRelinked.trans hrelinked, hresult⟩

theorem renameNode_spec (h : Linked f ids named [] noExtra) {olddir newdir : Nat}
    {oldname newname : CString} (hide : Bool) (hold : f.Holds olddir) (hnew : f.Holds newdir)
    (hdiffer : (olddir, oldname) ≠ (newdir, newname))
    (hsource : forall id, lookupNode f olddir oldname = some (some id) -> f.Holds id ∧
      forall line, Line (f.up named) newdir line -> id ∉ line) :
    exists err f' ids' named' gone,
      renameNode supply olddir oldname newdir newname hide f = some (err, f') ∧
      Linked f' ids' named' [] noExtra ∧ f'.counters = f.counters ∧
      Renamed f f' named named' olddir oldname newdir newname err gone := by
  rcases h.lookupNode olddir oldname with ⟨source, hfind, hfound, _⟩
  rcases h.lookupNode newdir newname with ⟨target, hfind', _, _⟩
  have hstay : forall err, Renamed f f named named olddir oldname newdir newname err [] :=
    fun _ => ⟨(Cut.refl h.toShape).toRelinked, fun x hx => absurd hx List.not_mem_nil,
      fun x hx => absurd hx List.not_mem_nil⟩
  rcases source with _ | id
  · refine ⟨0, f, ids, named, [], ?_, h, rfl, hstay 0⟩
    simp only [renameNode, hfind, hfind', Option.bind_eq_bind, Option.bind_some,
      Option.pure_def]
  by_cases hbusy : target.isSome = true ∧ hide = true
  · refine ⟨-EBUSY, f, ids, named, [], ?_, h, rfl, hstay _⟩
    simp only [renameNode, hfind, hfind', if_pos hbusy, Option.bind_eq_bind, Option.bind_some,
      Option.pure_def]
  rcases hfound id rfl with ⟨hid, hkey⟩
  rcases hsource id hfind with ⟨hheld, hbelow⟩
  -- The node in the way is unlinked.
  rcases removeNode_spec supply h newname hnew with
    ⟨f1, ids1, named1, hremove, h1, hcounters1, gone, hcut1, hgone⟩
  have hkeep : id ∉ gone := by
    intro hmem
    rw [hgone, h.lookupNode_eq_some_iff, hkey, Option.some.injEq] at hmem
    exact hdiffer hmem.2
  have hlive1 : f1.nodes id ≠ none := (hcut1.holds hheld).live
  have hid1 : id ∈ named1 := (hcut1.names id hkeep).mpr ⟨hid, hlive1⟩
  have hkey1 : f1.key id = some (olddir, oldname) :=
    (key_congr (hcut1.links id hkeep hlive1)).trans hkey
  have habove : forall line1, Line (f1.up named1) newdir line1 -> id ∉ line1 := by
    intro line1 hline1 hmem
    rcases hnew with ⟨dnode, hdnode, _⟩
    rcases h.lines newdir (h.mem_of_node hdnode) with ⟨line, hline⟩
    exact hbelow line hline (hline1.subset_of_fewer hline hcut1.up_fewer id hmem)
  have hfree1 : forall a, a ∈ named1 -> f1.key a ≠ some (newdir, newname) := by
    intro a ha hakey
    rcases hcut1.names_subset ha with ⟨hmem, hout, hlinks⟩
    rw [key_congr hlinks] at hakey
    exact hout ((hgone a).mpr (h.lookupNode_eq_some_iff.mpr ⟨hmem, hakey⟩))
  -- The node itself is moved.
  rcases moveNode_spec supply h1 hid1 hkey1 (hcut1.holds hold) (hcut1.holds hnew) habove hfree1
    with ⟨f2, hashed, f3, ids3, named3, hunhash, hhash, h3, hcounters3, hrelinked, hresult⟩
  refine ⟨if hashed then 0 else -ENOMEM, f3, ids3, named3, gone ++ ([id] ++ [id]), ?_, h3,
    hcounters3.trans hcounters1, hcut1.toRelinked.trans hrelinked, ?_, ?_⟩
  · rcases target with _ | newid
    · have hunlink : removeNode supply newdir newname f = some f := by
        rw [removeNode, hfind']
        rfl
      rw [hremove] at hunlink
      cases hunlink
      simp only [renameNode, hfind, hfind', if_neg hbusy, hunhash, hhash,
        Option.bind_eq_bind, Option.bind_some, Option.pure_def]
    · have hunlink : unlinkNode supply newid f = some f1 := by
        rw [← hremove, removeNode, hfind']
        rfl
      simp only [renameNode, hfind, hfind', if_neg hbusy, hunlink, hunhash, hhash,
        Option.bind_eq_bind, Option.bind_some, Option.pure_def]
  · intro x hx
    rw [List.mem_append] at hx
    rcases hx with hx | hx
    · exact Or.inr ((hgone x).mp hx)
    · have hxid : x = id := by simpa using hx
      rw [hxid]
      exact Or.inl hfind
  · intro x hx hlive
    by_cases hxid : x = id
    · subst hxid
      rcases hresult with ⟨_, hout, hlinks⟩ | ⟨rfl, hin, hlinks⟩
      · exact Or.inl ⟨hout, hlinks⟩
      · exact Or.inr ⟨rfl, hfind, hin, hlinks⟩
    · left
      have hother : x ∉ [id] ++ [id] := by
        simpa using hxid
      have hxgone : x ∈ gone := (List.mem_append.mp hx).resolve_right hother
      have hxlive := hrelinked.live hlive
      refine ⟨?_, ?_⟩
      · rw [hrelinked.names x hother]
        exact fun hmem => hcut1.removed x hxgone hmem.1
      · rw [hrelinked.links x hother hlive]
        exact hcut1.cleared x hxgone hxlive

end Removal

end ShadowFs.Libfuse

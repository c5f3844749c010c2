import ShadowFs.Fuse.Nodes
import ShadowFs.Library.Ancestry

/-!
# What holds of the nodes

The tables hold exactly the nodes they should, no two nodes have the same parent and name,
the parents make a forest, and the reference counts are exact.  While a node is being removed
its reference count or that of its parent is one too high, and it has a name that is no
longer in the table; `Linked` has parameters for both.
-/

namespace ShadowFs.Libfuse

open CLib Library LinearHash

/-!
## Links between nodes
-/

namespace Fuse

def links (f : Fuse) (id : Nat) : Option (Option Nat × Option CString) :=
  (f.nodes id).map (fun node => (node.parent, node.name))

/-- The parent by which a node of the given ones is found. -/
def up (f : Fuse) (named : List Nat) (id : Nat) : Option Nat :=
  if id ∈ named then (f.key id).map Prod.fst else none

/-- How many of the given nodes have a parent. -/
def children (f : Fuse) (named : List Nat) (id : Nat) : Nat :=
  named.countP (fun c => (f.key c).map Prod.fst = some id)

end Fuse

variable {f f' : Fuse} {ids named loose : List Nat} {id : Nat} {node : Node}

@[simp] theorem put_nodes_self (f : Fuse) (id : Nat) (node : Option Node) :
    (f.put id node).nodes id = node := by
  simp [Fuse.put]

theorem put_nodes_of_ne (f : Fuse) {id x : Nat} (h : x ≠ id) (node : Option Node) :
    (f.put id node).nodes x = f.nodes x := by
  simp [Fuse.put, h]

@[simp] theorem put_nameTable (f : Fuse) (id : Nat) (node : Option Node) :
    (f.put id node).nameTable = f.nameTable := rfl

@[simp] theorem put_idTable (f : Fuse) (id : Nat) (node : Option Node) :
    (f.put id node).idTable = f.idTable := rfl

@[simp] theorem put_freeNodes (f : Fuse) (id : Nat) (node : Option Node) :
    (f.put id node).freeNodes = f.freeNodes := rfl

theorem links_eq_some {parent : Option Nat} {name : Option CString}
    (h : f.links id = some (parent, name)) :
    exists node, f.nodes id = some node ∧ node.parent = parent ∧ node.name = name := by
  rw [Fuse.links, Option.map_eq_some_iff] at h
  rcases h with ⟨node, hnode, heq⟩
  cases heq
  exact ⟨node, hnode, rfl, rfl⟩

theorem nodes_ne_none_iff_links : f.nodes id ≠ none <-> f.links id ≠ none := by
  rw [Fuse.links, ne_eq, ne_eq, Option.map_eq_none_iff]

theorem key_congr (h : f'.links id = f.links id) : f'.key id = f.key id := by
  rw [Fuse.key, Fuse.key]
  rw [Fuse.links, Fuse.links] at h
  cases hold : f.nodes id with
  | none =>
      rw [hold, Option.map_none, Option.map_eq_none_iff] at h
      rw [h]
  | some node =>
      rw [hold, Option.map_some, Option.map_eq_some_iff] at h
      rcases h with ⟨node', hnode', heq⟩
      rw [Prod.mk.injEq] at heq
      rw [hnode', Option.bind_some, Option.bind_some, Node.key, Node.key, heq.1, heq.2]

theorem nameKey_congr (h : f'.key id = f.key id) : f'.nameKey id = f.nameKey id := by
  rw [Fuse.nameKey, Fuse.nameKey, h]

theorem up_congr (h : f'.key id = f.key id) : f'.up named id = f.up named id := by
  rw [Fuse.up, Fuse.up, h]

theorem children_congr (h : forall c, c ∈ named -> f'.key c = f.key c) (id : Nat) :
    f'.children named id = f.children named id := by
  rw [Fuse.children, Fuse.children]
  refine List.countP_congr ?_
  intro c hc
  rw [h c hc]

theorem links_put (hnode : f.nodes id = some node) {node' : Node}
    (hparent : node'.parent = node.parent) (hname : node'.name = node.name) :
    (f.put id (some node')).links = f.links := by
  funext x
  rw [Fuse.links, Fuse.links]
  by_cases hx : x = id
  · rw [hx, put_nodes_self, hnode, Option.map_some, Option.map_some, hparent, hname]
  · rw [put_nodes_of_ne f hx]

theorem links_put_of_ne (f : Fuse) {id x : Nat} (h : x ≠ id) (node : Option Node) :
    (f.put id node).links x = f.links x := by
  rw [Fuse.links, Fuse.links, put_nodes_of_ne f h]

theorem key_put_of_ne (f : Fuse) {id x : Nat} (h : x ≠ id) (node : Option Node) :
    (f.put id node).key x = f.key x :=
  key_congr (links_put_of_ne f h node)

theorem key_eq_some_iff {parent : Nat} {name : CString} :
    f.key id = some (parent, name) <->
      f.links id = some (some parent, some name) := by
  rw [Fuse.key, Fuse.links]
  cases hnode : f.nodes id with
  | none => simp
  | some node =>
      rw [Option.bind_some, Option.map_some, Node.key]
      rcases hp : node.parent with _ | p
      · simp
      · rcases hn : node.name with _ | n
        · simp
        · simp

theorem key_eq_none (h : f.links id = some (none, none)) : f.key id = none := by
  rcases links_eq_some h with ⟨node, hnode, hparent, hname⟩
  rw [Fuse.key, hnode, Option.bind_some, Node.key, hparent, hname]

theorem up_eq_some_iff {parent : Nat} :
    f.up named id = some parent <-> id ∈ named ∧ exists name, f.key id = some (parent, name) := by
  rw [Fuse.up]
  by_cases hmem : id ∈ named
  · rw [if_pos hmem, Option.map_eq_some_iff]
    constructor
    · rintro ⟨⟨p, name⟩, hkey, heq⟩
      cases heq
      exact ⟨hmem, name, hkey⟩
    · rintro ⟨_, name, hkey⟩
      exact ⟨(parent, name), hkey, rfl⟩
  · rw [if_neg hmem]
    constructor
    · intro h
      cases h
    · intro h
      exact absurd h.1 hmem

theorem up_of_not_mem (h : id ∉ named) : f.up named id = none :=
  if_neg h

theorem up_erase (hnodup : named.Nodup) (id : Nat) :
    f.up (named.erase id) = Function.update (f.up named) id none := by
  funext x
  by_cases hx : x = id
  · rw [hx, Function.update_self]
    exact up_of_not_mem (fun h => (List.Nodup.not_mem_erase hnodup) h)
  · rw [Function.update_of_ne hx, Fuse.up, Fuse.up]
    simp only [List.mem_erase_of_ne hx]

theorem children_cons (f : Fuse) (named : List Nat) (id x : Nat) :
    f.children (id :: named) x =
      f.children named x + if (f.key id).map Prod.fst = some x then 1 else 0 := by
  rw [Fuse.children, Fuse.children, List.countP_cons]
  simp only [decide_eq_true_eq]

/-- The node that is taken from the list is a child of its parent only. -/
theorem children_erase (hid : id ∈ named) {parent : Nat} {name : CString}
    (hkey : f.key id = some (parent, name)) (x : Nat) :
    f.children named x = f.children (named.erase id) x + if x = parent then 1 else 0 := by
  have hperm : f.children named x = f.children (id :: named.erase id) x :=
    (List.perm_cons_erase hid).countP_eq _
  rw [hperm, children_cons, hkey, Option.map_some]
  simp only [Option.some.injEq, eq_comm]

theorem children_eq_zero_iff :
    f.children named id = 0 <-> forall c, c ∈ named -> f.up named c ≠ some id := by
  rw [Fuse.children, List.countP_eq_zero]
  constructor
  · intro h c hc
    rw [Fuse.up, if_pos hc]
    simpa using h c hc
  · intro h c hc
    have hup := h c hc
    rw [Fuse.up, if_pos hc] at hup
    simpa using hup

/-- The parent by which a node is found, whether or not it is in the table. -/
def Fuse.parentOf (f : Fuse) (id : Nat) : Option Nat :=
  (f.key id).map Prod.fst

theorem parentOf_congr (h : f'.key id = f.key id) : f'.parentOf id = f.parentOf id := by
  rw [Fuse.parentOf, Fuse.parentOf, h]

/-!
## The forest
-/

/-- The tables and the links: `ids` are the nodes there are, `named` those in the name table.
The nodes of `loose` have been taken out of it, but their links are not cleared yet. -/
structure Shape (f : Fuse) (ids named loose : List Nat) : Prop where
  idTable : Valid idHash tableMinSize f.idTable ids 0
  nameTable : Valid f.nameKey tableMinSize f.nameTable named loose.length
  idsNodup : ids.Nodup
  namedNodup : named.Nodup
  live : forall id, id ∈ ids <-> f.links id ≠ none
  parent : forall id, id ∈ named ->
    exists parent name, f.key id = some (parent, name) ∧ parent ∈ ids
  unique : forall a b, a ∈ named -> b ∈ named -> f.key a = f.key b -> a = b
  unnamed : forall id, id ∈ ids -> id ≠ rootId -> id ∉ named -> id ∉ loose ->
    f.links id = some (none, none)
  root : rootId ∈ ids ∧ rootId ∉ named
  rootKey : f.key rootId = none
  lines : forall id, id ∈ ids -> exists line, Line (f.up named) id line

theorem Shape.mem_ids (h : Shape f ids named loose) (hid : id ∈ named) : id ∈ ids := by
  rcases h.parent id hid with ⟨parent, name, hkey, _⟩
  rw [h.live, key_eq_some_iff.mp hkey]
  exact Option.some_ne_none _

theorem Shape.exists_node (h : Shape f ids named loose) (hid : id ∈ ids) :
    exists node, f.nodes id = some node :=
  Option.ne_none_iff_exists'.mp (nodes_ne_none_iff_links.mpr ((h.live id).mp hid))

theorem Shape.mem_of_node (h : Shape f ids named loose) (hnode : f.nodes id = some node) :
    id ∈ ids := by
  rw [h.live, ← nodes_ne_none_iff_links, hnode]
  exact Option.some_ne_none _

theorem Shape.nodes_eq_none (h : Shape f ids named loose) (hid : id ∉ ids) :
    f.nodes id = none := by
  by_contra hsome
  rw [← ne_eq, nodes_ne_none_iff_links] at hsome
  exact hid ((h.live id).mpr hsome)

/-- Unless a node is being removed, the nodes in the name table are those with a parent and a
name. -/
theorem Shape.mem_named_iff (h : Shape f ids named []) : id ∈ named <-> f.key id ≠ none := by
  constructor
  · intro hid
    rcases h.parent id hid with ⟨parent, name, hkey, _⟩
    rw [hkey]
    exact Option.some_ne_none _
  · intro hkey
    by_contra hid
    have hlive : id ∈ ids := by
      rcases Option.ne_none_iff_exists'.mp hkey with ⟨⟨parent, name⟩, hsome⟩
      rw [h.live, key_eq_some_iff.mp hsome]
      exact Option.some_ne_none _
    have hroot : id ≠ rootId := by
      rintro rfl
      exact hkey h.rootKey
    exact hkey (key_eq_none (h.unnamed id hlive hroot hid List.not_mem_nil))

theorem Shape.up_eq (h : Shape f ids named []) : f.up named = f.parentOf := by
  funext x
  rw [Fuse.up, Fuse.parentOf]
  by_cases hx : x ∈ named
  · rw [if_pos hx]
  · rw [if_neg hx, not_not.mp (fun hkey => hx (h.mem_named_iff.mpr hkey)), Option.map_none]

theorem Shape.line_subset (h : Shape f ids named loose) (hid : id ∈ ids) {line : List Nat}
    (hline : Line (f.up named) id line) : forall x, x ∈ line -> x ∈ ids := by
  refine hline.subset hid ?_
  intro x y _ hup
  rcases up_eq_some_iff.mp hup with ⟨hx, name, hkey⟩
  rcases h.parent x hx with ⟨parent, name', hkey', hparent⟩
  rw [hkey] at hkey'
  cases hkey'
  exact hparent

/-- No node has more ancestors than there are nodes. -/
theorem Shape.line_length_le (h : Shape f ids named loose) (hid : id ∈ ids) {line : List Nat}
    (hline : Line (f.up named) id line) : line.length ≤ f.depth := by
  have hsub : line ⊆ ids := h.line_subset hid hline
  have hle := (List.subperm_of_subset hline.nodup hsub).length_le
  rw [Fuse.depth, h.idTable.use]
  exact hle

theorem Shape.congr (h : Shape f ids named loose) (hid : f'.idTable = f.idTable)
    (hname : f'.nameTable = f.nameTable) (hlinks : f'.links = f.links) :
    Shape f' ids named loose := by
  have hkey : forall x, f'.key x = f.key x := fun x => key_congr (congrFun hlinks x)
  have hup : f'.up named = f.up named := funext (fun x => up_congr (hkey x))
  refine ⟨hid ▸ h.idTable, ?_, h.idsNodup, h.namedNodup, ?_, ?_, ?_, ?_, h.root,
    (hkey rootId).trans h.rootKey, ?_⟩
  · rw [hname]
    exact h.nameTable.congr_hash (fun x _ => nameKey_congr (hkey x))
  · rw [hlinks]
    exact h.live
  · intro x hx
    rw [hkey]
    exact h.parent x hx
  · intro a b ha hb
    rw [hkey, hkey]
    exact h.unique a b ha hb
  · rw [hlinks]
    exact h.unnamed
  · rw [hup]
    exact h.lines

theorem Shape.detach (h : Shape f ids named loose) {t : LinearHash Nat}
    (ht : Valid f.nameKey tableMinSize t (named.erase id) (loose.length + 1)) :
    Shape { f with nameTable := t } ids (named.erase id) (id :: loose) where
  idTable := h.idTable
  nameTable := ht
  idsNodup := h.idsNodup
  namedNodup := h.namedNodup.erase id
  live := h.live
  parent := fun x hx => h.parent x (List.mem_of_mem_erase hx)
  unique := fun a b ha hb => h.unique a b (List.mem_of_mem_erase ha) (List.mem_of_mem_erase hb)
  unnamed := by
    intro x hx hroot hnamed hloose
    rcases not_or.mp (fun hor => hloose (List.mem_cons.mpr hor)) with ⟨hne, hother⟩
    exact h.unnamed x hx hroot (fun hmem => hnamed ((List.mem_erase_of_ne hne).mpr hmem)) hother
  root := ⟨h.root.1, fun hmem => h.root.2 (List.mem_of_mem_erase hmem)⟩
  rootKey := h.rootKey
  lines := by
    intro x hx
    rcases h.lines x hx with ⟨line, hline⟩
    have hcut := hline.cut id
    rw [← up_erase h.namedNodup] at hcut
    exact hcut

theorem Shape.clear (h : Shape f ids named (id :: loose)) (hid : id ∉ named)
    (hnode : f.nodes id = some node) {t : LinearHash Nat}
    (ht : Valid f.nameKey tableMinSize t named loose.length) :
    Shape { f.put id (some { node with name := none, parent := none }) with nameTable := t }
      ids named loose := by
  generalize hnew : f.put id (some { node with name := none, parent := none }) = f1
  have hself : f1.links id = some (none, none) := by
    rw [← hnew, Fuse.links, put_nodes_self, Option.map_some]
  have hne : forall x, x ≠ id -> f1.links x = f.links x := by
    intro x hx
    rw [← hnew]
    exact links_put_of_ne f hx _
  have hkey : forall x, x ∈ named -> f1.key x = f.key x := by
    intro x hx
    refine key_congr (hne x ?_)
    rintro rfl
    exact hid hx
  have hup : f1.up named = f.up named := by
    funext x
    by_cases hx : x ∈ named
    · exact up_congr (hkey x hx)
    · rw [up_of_not_mem hx, up_of_not_mem hx]
  have hidTable : f1.idTable = f.idTable := by
    rw [← hnew, put_idTable]
  exact {
    idTable := hidTable ▸ h.idTable
    nameTable := ht.congr_hash (fun x hx => nameKey_congr (hkey x hx))
    idsNodup := h.idsNodup
    namedNodup := h.namedNodup
    live := by
      intro x
      by_cases hx : x = id
      · have hold : f.links id ≠ none := by
          rw [← nodes_ne_none_iff_links, hnode]
          exact Option.some_ne_none _
        have hnow : f1.links id ≠ none := by
          rw [hself]
          exact Option.some_ne_none _
        rw [hx]
        exact ⟨fun _ => hnow, fun _ => (h.live id).mpr hold⟩
      · exact (h.live x).trans (by rw [← hne x hx]; rfl)
    parent := by
      intro x hx
      rcases h.parent x hx with ⟨parent, name, hold, hparent⟩
      exact ⟨parent, name, (hkey x hx).trans hold, hparent⟩
    unique := by
      intro a b ha hb heq
      exact h.unique a b ha hb ((hkey a ha).symm.trans (heq.trans (hkey b hb)))
    unnamed := by
      intro x hx hroot hnamed hloose
      by_cases hxid : x = id
      · rw [hxid]
        exact hself
      · refine (hne x hxid).trans (h.unnamed x hx hroot hnamed ?_)
        rw [List.mem_cons, not_or]
        exact ⟨hxid, hloose⟩
    root := h.root
    rootKey := by
      change f1.key rootId = none
      by_cases hroot : rootId = id
      · rw [hroot]
        exact key_eq_none hself
      · exact (key_congr (hne rootId hroot)).trans h.rootKey
    lines := fun x hx => hup ▸ h.lines x hx }

section Changes

variable (hother : forall x, x ≠ id -> f'.links x = f.links x)

include hother in
theorem key_of_ne_of_mem (hid : id ∉ named) {x : Nat} (hx : x ∈ named) : f'.key x = f.key x := by
  refine key_congr (hother x ?_)
  rintro rfl
  exact hid hx

include hother in
theorem up_of_change (hid : id ∉ named) : f'.up named = f.up named := by
  funext x
  by_cases hx : x ∈ named
  · exact up_congr (key_of_ne_of_mem hother hid hx)
  · rw [up_of_not_mem hx, up_of_not_mem hx]

include hother in
theorem up_cons_of_change (hid : id ∉ named) {parent : Nat} {name : CString}
    (hself : f'.links id = some (some parent, some name)) :
    f'.up (id :: named) = Function.update (f.up named) id (some parent) := by
  funext x
  by_cases hx : x = id
  · rw [hx, Function.update_self]
    exact up_eq_some_iff.mpr ⟨List.mem_cons_self, name, key_eq_some_iff.mpr hself⟩
  · rw [Function.update_of_ne hx, ← up_of_change hother hid, Fuse.up, Fuse.up]
    simp only [List.mem_cons, hx, false_or]

include hother in
theorem Shape.free (h : Shape f ids named loose) (hid : id ∉ named) (hroot : id ≠ rootId)
    (hchild : forall c, c ∈ named -> f.up named c ≠ some id)
    (hidTable : Valid idHash tableMinSize f'.idTable (ids.erase id) 0)
    (hnameTable : f'.nameTable = f.nameTable) (hself : f'.links id = none) :
    Shape f' (ids.erase id) named loose where
  idTable := hidTable
  nameTable := by
    rw [hnameTable]
    exact h.nameTable.congr_hash
      (fun x hx => nameKey_congr (key_of_ne_of_mem hother hid hx))
  idsNodup := h.idsNodup.erase id
  namedNodup := h.namedNodup
  live := by
    intro x
    by_cases hx : x = id
    · rw [hx, hself]
      exact ⟨fun hmem => absurd hmem h.idsNodup.not_mem_erase, fun hne => absurd rfl hne⟩
    · rw [List.mem_erase_of_ne hx, hother x hx]
      exact h.live x
  parent := by
    intro x hx
    rcases h.parent x hx with ⟨parent, name, hkey, hparent⟩
    refine ⟨parent, name, (key_of_ne_of_mem hother hid hx).trans hkey, ?_⟩
    have hne : parent ≠ id := by
      rintro rfl
      exact hchild x hx (up_eq_some_iff.mpr ⟨hx, name, hkey⟩)
    exact (List.mem_erase_of_ne hne).mpr hparent
  unique := by
    intro a b ha hb heq
    rw [key_of_ne_of_mem hother hid ha, key_of_ne_of_mem hother hid hb] at heq
    exact h.unique a b ha hb heq
  unnamed := by
    intro x hx hxroot hnamed hloose
    have hne : x ≠ id := by
      rintro rfl
      exact h.idsNodup.not_mem_erase hx
    rw [hother x hne]
    exact h.unnamed x (List.mem_of_mem_erase hx) hxroot hnamed hloose
  root := ⟨(List.mem_erase_of_ne hroot.symm).mpr h.root.1, h.root.2⟩
  rootKey := (key_congr (hother rootId hroot.symm)).trans h.rootKey
  lines := by
    intro x hx
    rw [up_of_change hother hid]
    exact h.lines x (List.mem_of_mem_erase hx)

include hother in
theorem Shape.create (h : Shape f ids named loose) (hid : id ∉ ids)
    (hidTable : Valid idHash tableMinSize f'.idTable (id :: ids) 0)
    (hnameTable : f'.nameTable = f.nameTable) (hself : f'.links id = some (none, none)) :
    Shape f' (id :: ids) named loose := by
  have hnamed : id ∉ named := fun hmem => hid (h.mem_ids hmem)
  have hup := up_of_change hother hnamed
  exact {
    idTable := hidTable
    nameTable := by
      rw [hnameTable]
      exact h.nameTable.congr_hash
        (fun x hx => nameKey_congr (key_of_ne_of_mem hother hnamed hx))
    idsNodup := List.nodup_cons.mpr ⟨hid, h.idsNodup⟩
    namedNodup := h.namedNodup
    live := by
      intro x
      by_cases hx : x = id
      · rw [hx, hself]
        exact ⟨fun _ => Option.some_ne_none _, fun _ => List.mem_cons_self⟩
      · rw [List.mem_cons, hother x hx]
        exact ⟨fun hor => (h.live x).mp (hor.resolve_left hx),
          fun hne => Or.inr ((h.live x).mpr hne)⟩
    parent := by
      intro x hx
      rcases h.parent x hx with ⟨parent, name, hkey, hparent⟩
      exact ⟨parent, name, (key_of_ne_of_mem hother hnamed hx).trans hkey,
        List.mem_cons_of_mem _ hparent⟩
    unique := by
      intro a b ha hb heq
      rw [key_of_ne_of_mem hother hnamed ha, key_of_ne_of_mem hother hnamed hb] at heq
      exact h.unique a b ha hb heq
    unnamed := by
      intro x hx hroot hxnamed hloose
      by_cases hxid : x = id
      · rw [hxid]
        exact hself
      · rw [hother x hxid]
        exact h.unnamed x ((List.mem_cons.mp hx).resolve_left hxid) hroot hxnamed hloose
    root := ⟨List.mem_cons_of_mem _ h.root.1, h.root.2⟩
    rootKey := by
      refine (key_congr (hother rootId ?_)).trans h.rootKey
      rintro rfl
      exact hid h.root.1
    lines := by
      intro x hx
      rw [hup]
      rcases List.mem_cons.mp hx with rfl | hold
      · exact ⟨[x], Line.top (up_of_not_mem hnamed)⟩
      · exact h.lines x hold }

include hother in
theorem Shape.attach (h : Shape f ids named loose) (hid : id ∈ ids) (hnamed : id ∉ named)
    (hroot : id ≠ rootId) {parent : Nat} {name : CString} (hparent : parent ∈ ids)
    {line : List Nat} (hline : Line (f.up named) parent line) (hbelow : id ∉ line)
    (hfresh : forall a, a ∈ named -> f.key a ≠ some (parent, name))
    (hidTable : f'.idTable = f.idTable)
    (hnameTable : Valid f'.nameKey tableMinSize f'.nameTable (id :: named) loose.length)
    (hself : f'.links id = some (some parent, some name)) :
    Shape f' ids (id :: named) loose := by
  have hkey : forall x, x ∈ named -> f'.key x = f.key x :=
    fun x hx => key_of_ne_of_mem hother hnamed hx
  have hnew := key_eq_some_iff.mpr hself
  exact {
    idTable := hidTable ▸ h.idTable
    nameTable := hnameTable
    idsNodup := h.idsNodup
    namedNodup := List.nodup_cons.mpr ⟨hnamed, h.namedNodup⟩
    live := by
      intro x
      by_cases hx : x = id
      · rw [hx, hself]
        exact ⟨fun _ => Option.some_ne_none _, fun _ => hid⟩
      · rw [hother x hx]
        exact h.live x
    parent := by
      intro x hx
      rcases List.mem_cons.mp hx with rfl | hx
      · exact ⟨parent, name, hnew, hparent⟩
      · rw [hkey x hx]
        exact h.parent x hx
    unique := by
      intro a b ha hb heq
      rcases List.mem_cons.mp ha with hself' | hmema
      · rcases List.mem_cons.mp hb with hself'' | hmemb
        · rw [hself', hself'']
        · rw [hself', hnew, hkey b hmemb] at heq
          exact absurd heq.symm (hfresh b hmemb)
      · rcases List.mem_cons.mp hb with hself' | hmemb
        · rw [hself', hnew, hkey a hmema] at heq
          exact absurd heq (hfresh a hmema)
        · rw [hkey a hmema, hkey b hmemb] at heq
          exact h.unique a b hmema hmemb heq
    unnamed := by
      intro x hx hxroot hxnamed hloose
      rcases not_or.mp (fun hor => hxnamed (List.mem_cons.mpr hor)) with ⟨hne, hold⟩
      rw [hother x hne]
      exact h.unnamed x hx hxroot hold hloose
    root := by
      refine ⟨h.root.1, ?_⟩
      rw [List.mem_cons, not_or]
      exact ⟨hroot.symm, h.root.2⟩
    rootKey := (key_congr (hother rootId hroot.symm)).trans h.rootKey
    lines := by
      intro x hx
      rcases h.lines x hx with ⟨below, hbelowLine⟩
      rw [up_cons_of_change hother hnamed hself]
      exact hbelowLine.graft hline hbelow }

end Changes

end ShadowFs.Libfuse

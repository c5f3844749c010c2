import ShadowFs.Fuse.Attempts

/-!
# Waiting requests

A request that does not get its locks leaves its ticket on nodes of its way up and comes back
later.  Meanwhile nobody else can lock these nodes for writing, so nobody renames or removes
them: when the request comes back, each node that has its ticket still has a name.
-/

namespace ShadowFs.Libfuse

open CLib Library LinearHash

/-- A request that is going to come back with its ticket. -/
structure Waiting where
  ticket : Nat
  nodeid : Nat
  name : Option CString
  wr : Bool
deriving DecidableEq

/-- No ticket is ahead of the counter, and no waiting request is stuck at its own. -/
structure Queued (f : Fuse) (waiting : List Waiting) : Prop where
  tickets : forall x node, f.nodes x = some node -> node.ticket ≤ f.currTicket
  numbered : forall w, w ∈ waiting -> w.ticket ≠ 0 ∧ w.ticket ≤ f.currTicket
  passable : forall w, w ∈ waiting -> Passable f w.nodeid w.ticket

section Waiting

variable {f f' : Fuse} {ids named : List Nat} {locks : List Lock} {waiting : List Waiting}
  {id nodeid ticket : Nat} {node : Node}

theorem Queued.subset (h : Queued f waiting) {waiting' : List Waiting}
    (hsub : forall w, w ∈ waiting' -> w ∈ waiting) : Queued f waiting' where
  tickets := h.tickets
  numbered := fun w hw => h.numbered w (hsub w hw)
  passable := fun w hw => h.passable w (hsub w hw)

theorem Queued.advance (h : Queued f waiting) {t : Nat} (ht : f.currTicket ≤ t) :
    Queued { f with currTicket := t } waiting where
  tickets := fun x node hx => (h.tickets x node hx).trans ht
  numbered := fun w hw => ⟨(h.numbered w hw).1, (h.numbered w hw).2.trans ht⟩
  passable := h.passable

theorem passable_of_fresh (hticket : forall x node, f.nodes x = some node -> node.ticket < ticket)
    (nodeid : Nat) : Passable f nodeid ticket := by
  intro line x node _ _ _ hnode htag
  exact absurd htag (Nat.ne_of_lt (hticket x node hnode))

/-!
## Locking
-/

theorem Passable.relock (h : Passable f nodeid ticket) (hticket : ticket ≠ 0)
    (hrelocked : Relocked f f') (hquiet : Quiet f f') : Passable f' nodeid ticket := by
  intro line x node' hline hx hroot hnode' htag
  rcases hrelocked.symm.exists_node hnode' with ⟨node, hnode, _⟩
  rcases hquiet x node node' hnode hnode' (htag ▸ hticket) with ⟨hsame, hlock⟩
  rw [hrelocked.parentOf] at hline
  rw [hrelocked.key]
  rcases h line x node hline hx hroot hnode (hsame.symm.trans htag) with ⟨hkey, hfree⟩
  exact ⟨hkey, fun hneg => hfree (hlock hneg)⟩

theorem Passable.retag (h : Passable f nodeid ticket) (hticket : ticket ≠ 0)
    {otherid other : Nat} (hretagged : Retagged otherid other f f') (hother : ticket ≠ other) :
    Passable f' nodeid ticket := by
  intro line x node' hline hx hroot hnode' htag
  rcases hretagged.symm.exists_node hnode' with ⟨node, hnode, _⟩
  rcases hretagged.locks x node node' hnode hnode' with ⟨hlock, htagged⟩
  rw [hretagged.parentOf] at hline
  rw [hretagged.key, hlock]
  rcases htagged (htag ▸ hticket) with hsame | ⟨hnew, _⟩
  · exact h line x node hline hx hroot hnode (hsame.symm.trans htag)
  · exact absurd (htag.symm.trans hnew) hother

theorem Queued.relock (h : Queued f waiting) (hrelocked : Relocked f f') (hquiet : Quiet f f') :
    Queued f' waiting := by
  have hcurr : f'.currTicket = f.currTicket := by
    rw [hrelocked.rest]
  refine ⟨?_, ?_, fun w hw => (h.passable w hw).relock (h.numbered w hw).1 hrelocked hquiet⟩
  · intro x node' hnode'
    rcases hrelocked.symm.exists_node hnode' with ⟨node, hnode, _⟩
    rw [hcurr]
    by_cases hzero : node'.ticket = 0
    · rw [hzero]
      exact Nat.zero_le _
    · rw [(hquiet x node node' hnode hnode' hzero).1]
      exact h.tickets x node hnode
  · rw [hcurr]
    exact h.numbered

theorem Queued.retag (h : Queued f waiting) (hretagged : Retagged nodeid ticket f f')
    (hticket : ticket ≤ f.currTicket) (hother : forall w, w ∈ waiting -> w.ticket ≠ ticket) :
    Queued f' waiting := by
  have hcurr : f'.currTicket = f.currTicket := by
    rw [hretagged.rest]
  refine ⟨?_, ?_, fun w hw => (h.passable w hw).retag (h.numbered w hw).1 hretagged
    (hother w hw)⟩
  · intro x node' hnode'
    rcases hretagged.symm.exists_node hnode' with ⟨node, hnode, _⟩
    rw [hcurr]
    by_cases hzero : node'.ticket = 0
    · rw [hzero]
      exact Nat.zero_le _
    · rcases (hretagged.locks x node node' hnode hnode').2 hzero with hsame | ⟨hnew, _⟩
      · rw [hsame]
        exact h.tickets x node hnode
      · rw [hnew]
        exact hticket
  · rw [hcurr]
    exact h.numbered

theorem Queued.cons (h : Queued f waiting) {w : Waiting} (hticket : w.ticket ≠ 0)
    (hle : w.ticket ≤ f.currTicket) (hpassable : Passable f w.nodeid w.ticket) :
    Queued f (w :: waiting) where
  tickets := h.tickets
  numbered := by
    intro v hv
    rcases List.mem_cons.mp hv with rfl | hv
    · exact ⟨hticket, hle⟩
    · exact h.numbered v hv
  passable := by
    intro v hv
    rcases List.mem_cons.mp hv with rfl | hv
    · exact hpassable
    · exact h.passable v hv

/-!
## Other requests
-/

/-- Nodes keep their links, their locks and their tickets; on the nodes of the way up this is
all that counts. -/
theorem Queued.transfer (h : Queued f waiting) (hcurr : f'.currTicket = f.currTicket)
    (hlines : forall w line', w ∈ waiting -> Line f'.parentOf w.nodeid line' ->
      Line f.parentOf w.nodeid line' ∧ forall x, x ∈ line' -> f'.key x = f.key x)
    (hnodes : forall x node', f'.nodes x = some node' -> node'.ticket = 0 ∨
      exists node, f.nodes x = some node ∧ node'.ticket = node.ticket ∧
        node'.treelock = node.treelock) : Queued f' waiting := by
  refine ⟨?_, ?_, ?_⟩
  · intro x node' hx
    rw [hcurr]
    rcases hnodes x node' hx with hzero | ⟨node, hnode, hsame, _⟩
    · rw [hzero]
      exact Nat.zero_le _
    · rw [hsame]
      exact h.tickets x node hnode
  · rw [hcurr]
    exact h.numbered
  · intro w hw line' x node' hline' hx hroot hnode' htag
    rcases hlines w line' hw hline' with ⟨hline, hkeys⟩
    rcases hnodes x node' hnode' with hzero | ⟨node, hnode, hsame, hlock⟩
    · exact absurd (htag.symm.trans hzero) (h.numbered w hw).1
    · rw [hkeys x hx, hlock]
      exact h.passable w hw line' x node hline hx hroot hnode (hsame.symm.trans htag)

theorem Queued.transfer_links (h : Queued f waiting) (hcurr : f'.currTicket = f.currTicket)
    (hlinks : f'.links = f.links)
    (hnodes : forall x node', f'.nodes x = some node' ->
      exists node, f.nodes x = some node ∧ node'.ticket = node.ticket ∧
        node'.treelock = node.treelock) : Queued f' waiting := by
  have hkey : forall x, f'.key x = f.key x := fun x => key_congr (congrFun hlinks x)
  have hparent : f'.parentOf = f.parentOf := funext (fun x => parentOf_congr (hkey x))
  refine h.transfer hcurr ?_ (fun x node' hx => Or.inr (hnodes x node' hx))
  intro w line' _ hline'
  rw [hparent] at hline'
  exact ⟨hline', fun x _ => hkey x⟩

theorem Queued.congr (h : Queued f waiting) (hcurr : f'.currTicket = f.currTicket)
    (hnodes : f'.nodes = f.nodes) : Queued f' waiting := by
  refine h.transfer_links hcurr ?_ ?_
  · funext x
    rw [Fuse.links, Fuse.links, hnodes]
  · intro x node' hx
    rw [hnodes] at hx
    exact ⟨node', hx, rfl, rfl⟩

theorem Queued.lookups (h : Queued f waiting) (hnode : f.nodes id = some node) {n : Nat} :
    Queued (f.put id (some { node with nlookup := n })) waiting := by
  refine h.transfer_links rfl (links_put hnode rfl rfl) ?_
  intro x node' hx
  rcases put_nodes_cases hnode hx with ⟨_, hold, rfl⟩ | ⟨_, hold⟩
  · exact ⟨node, hold, rfl, rfl⟩
  · exact ⟨node', hold, rfl, rfl⟩

theorem Queued.made (h : Queued f waiting) (hlinked : Linked f ids named [] noExtra)
    (hcurr : f'.currTicket = f.currTicket) {dir : Nat} {name : CString}
    (hmade : MadeBelow f f' dir name id) (hheld : forall w, w ∈ waiting -> f.Holds w.nodeid) :
    Queued f' waiting := by
  refine h.transfer hcurr ?_ ?_
  · intro w line' hw hline'
    have hmem : w.nodeid ∈ ids :=
      (hlinked.live w.nodeid).mpr (nodes_ne_none_iff_links.mp (hheld w hw).live)
    rcases hlinked.lines w.nodeid hmem with ⟨line, hline⟩
    have hids := hlinked.line_subset hmem hline
    rw [hlinked.up_eq] at hline
    have hsame : forall x, x ∈ line -> f'.key x = f.key x := fun x hx =>
      hmade.key (nodes_ne_none_iff_links.mpr ((hlinked.live x).mp (hids x hx)))
    have hline2 : Line f'.parentOf w.nodeid line :=
      hline.congr (fun x hx => parentOf_congr (hsame x hx))
    rw [hline'.unique hline2]
    exact ⟨hline, hsame⟩
  · intro x node' hx
    rcases hmade.node_cases hx with ⟨rfl, rfl⟩ | ⟨old, n, hold, _, _, rfl⟩
    · exact Or.inl rfl
    · exact Or.inr ⟨old, hold, rfl, rfl⟩

/-!
## Removing and renaming
-/

/-- What is linked in another way is locked for writing, and what is moved comes into a
directory whose path is locked. -/
structure Exclusive (f f' : Fuse) (locks : List Lock) (gone : List Nat) : Prop where
  written : forall x node, x ∈ gone -> f.nodes x = some node -> node.treelock = -1
  moved : forall x dir, x ∈ gone -> f'.parentOf x = some dir ->
    exists l, l ∈ locks ∧ l.nodeid = dir

theorem exclusive_nil (f f' : Fuse) (locks : List Lock) : Exclusive f f' locks [] where
  written := fun _ _ hx => absurd hx List.not_mem_nil
  moved := fun _ _ hx => absurd hx List.not_mem_nil

variable {ids' named' gone : List Nat}

/-- A node that is locked for writing is on nobody's path. -/
theorem Exclusive.not_above (h : Exclusive f f' locks gone) (hlocked : Locked f locks)
    (hshape : Shape f ids named []) :
    forall x l, x ∈ gone -> l ∈ locks -> ¬ Above f l.nodeid x := by
  rintro x l hx hl ⟨line, text, hroute, hmem⟩
  have hnamed := hshape.mem_named_iff.mpr (hroute.key_ne_none hmem)
  rcases hshape.exists_node (hshape.mem_ids hnamed) with ⟨node, hnode⟩
  have hpos := (hlocked.treelock_pos hl ⟨line, text, hroute, hmem⟩ hnode).2
  rw [h.written x node hx hnode] at hpos
  exact absurd hpos (by decide)

/-- A new way up goes along the old one and, behind a node that was moved, along a path that
is locked. -/
theorem Exclusive.line_cases (h : Exclusive f f' locks gone) (hlocked : Locked f locks)
    (hshape : Shape f ids named []) (hshape' : Shape f' ids' named' [])
    (hrelinked : Relinked f f' named named' gone) {a : Nat} {line' line : List Nat}
    (hline' : Line f'.parentOf a line') (hlive : f'.nodes a ≠ none)
    (hline : Line f.parentOf a line) :
    forall x, x ∈ line' -> x ∈ line ∨ x = rootId ∨ exists l, l ∈ locks ∧ Above f l.nodeid x := by
  induction hline' generalizing line with
  | top htop =>
      intro x hx
      rw [List.mem_singleton.mp hx]
      exact Or.inl hline.mem_self
  | @up a b rest hup hrest ih =>
      intro x hx
      rcases List.mem_cons.mp hx with rfl | hmem
      · exact Or.inl hline.mem_self
      by_cases hgone : a ∈ gone
      · rcases h.moved a b hgone hup with ⟨l, hl, rfl⟩
        rcases hlocked.reach l hl with ⟨below, text, hroute, _⟩
        have hroute' := hlocked.route_relinked hshape hrelinked
          (h.not_above hlocked hshape) hl hroute
        rw [hrest.unique (hroute'.line hshape'.rootKey)] at hmem
        rcases List.mem_append.mp hmem with hbelow | hroot
        · exact Or.inr (Or.inr ⟨l, hl, below, text, hroute, hbelow⟩)
        · exact Or.inr (Or.inl (List.mem_singleton.mp hroot))
      · have hkey : f'.key a = f.key a := key_congr (hrelinked.links a hgone hlive)
        have hup0 : f.parentOf a = some b := by
          rw [Fuse.parentOf, ← hkey]
          exact hup
        rcases hline.of_parent hup0 with ⟨above, rfl, habove⟩
        rw [Fuse.parentOf, Option.map_eq_some_iff] at hup
        rcases hup with ⟨⟨parent, name⟩, hentry, rfl⟩
        have hnamed : a ∈ named' := by
          rw [hshape'.mem_named_iff, hentry]
          exact Option.some_ne_none _
        rcases hshape'.parent a hnamed with ⟨dir, name', hentry', hdir⟩
        rw [hentry] at hentry'
        cases hentry'
        have hlive' := nodes_ne_none_iff_links.mpr ((hshape'.live parent).mp hdir)
        rcases ih hlive' habove x hmem with hold | hother
        · exact Or.inl (List.mem_cons_of_mem a hold)
        · exact Or.inr hother

/-- Names are taken away or given by requests that have locked them. -/
theorem Queued.relinked (h : Queued f waiting) (hexclusive : Exclusive f f' locks gone)
    (hlocked : Locked f locks) (hshape : Shape f ids named [])
    (hshape' : Shape f' ids' named' []) (hrelinked : Relinked f f' named named' gone)
    (hcurr : f'.currTicket = f.currTicket)
    (hheld : forall w, w ∈ waiting -> f.Holds w.nodeid) : Queued f' waiting := by
  refine ⟨?_, ?_, ?_⟩
  · intro x node' hx
    rcases hrelinked.alike x node' hx with ⟨node, hnode, _, _, _, hsame⟩
    rw [hcurr, hsame]
    exact h.tickets x node hnode
  · rw [hcurr]
    exact h.numbered
  · intro w hw line' x node' hline' hx hroot hnode' htag
    rcases hrelinked.alike x node' hnode' with ⟨node, hnode, _, _, hlock, hsame⟩
    have hlive : f'.nodes x ≠ none := by
      rw [hnode']
      exact Option.some_ne_none _
    have hstart : f'.nodes w.nodeid ≠ none := (hrelinked.holds (hheld w hw)).live
    rcases hheld w hw with ⟨start, hstartNode, _⟩
    rcases hshape.lines w.nodeid (hshape.mem_of_node hstartNode) with ⟨line, hline⟩
    rw [hshape.up_eq] at hline
    have hfree : f.key x ≠ none ∧ node.treelock ≠ -1 := by
      rcases hexclusive.line_cases hlocked hshape hshape' hrelinked hline' hstart hline x hx
        with hold | hend | ⟨l, hl, line1, text, hroute, hmem⟩
      · exact h.passable w hw line x node hline hold hroot hnode (hsame.symm.trans htag)
      · exact absurd hend hroot
      · have hpos := (hlocked.treelock_pos hl ⟨line1, text, hroute, hmem⟩ hnode).2
        exact ⟨hroute.key_ne_none hmem, by lia⟩
    have hstays : x ∉ gone := fun hgone => hfree.2 (hexclusive.written x node hgone hnode)
    rw [key_congr (hrelinked.links x hstays hlive), hlock]
    exact hfree

end Waiting

end ShadowFs.Libfuse

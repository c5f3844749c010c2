import ShadowFs.Fuse.Locks

/-!
# What locking does to the nodes

Locking and unlocking change the locks and the tickets of the nodes on the way up and nothing
else.  An attempt that fails leaves all locks as they were.
-/

namespace ShadowFs.Libfuse

open CLib Library LinearHash

/-!
## Locks and tickets
-/

def Node.unlocked (node : Node) : Node :=
  { node with treelock := 0, ticket := 0 }

/-- Two states that differ only in locks and tickets. -/
structure Relocked (f f' : Fuse) : Prop where
  rest : f' = { f with nodes := f'.nodes }
  nodes : forall x, (f'.nodes x).map Node.unlocked = (f.nodes x).map Node.unlocked

section Relocked

variable {f f' f1 f2 : Fuse} {ids named loose : List Nat} {extra : Nat -> Nat} {id : Nat}
  {node : Node}

theorem Relocked.refl (f : Fuse) : Relocked f f :=
  ⟨rfl, fun _ => rfl⟩

theorem Relocked.trans (h1 : Relocked f f1) (h2 : Relocked f1 f2) : Relocked f f2 := by
  refine ⟨?_, fun x => (h2.nodes x).trans (h1.nodes x)⟩
  have hrest := h2.rest
  rw [h1.rest] at hrest
  exact hrest

theorem Relocked.put (hnode : f.nodes id = some node) {node' : Node}
    (hsame : node'.unlocked = node.unlocked) : Relocked f (f.put id (some node')) := by
  refine ⟨rfl, ?_⟩
  intro x
  by_cases hx : x = id
  · rw [hx, put_nodes_self, hnode, Option.map_some, Option.map_some, hsame]
  · rw [put_nodes_of_ne f hx]

theorem Relocked.exists_node (h : Relocked f f') (hnode : f.nodes id = some node) :
    exists node', f'.nodes id = some node' ∧ node'.unlocked = node.unlocked := by
  have hsame := h.nodes id
  rw [hnode, Option.map_some, Option.map_eq_some_iff] at hsame
  exact hsame

theorem Relocked.symm (h : Relocked f f') : Relocked f' f := by
  refine ⟨?_, fun x => (h.nodes x).symm⟩
  rw [h.rest]

theorem unlocked_links {node node' : Node} (h : node'.unlocked = node.unlocked) :
    node'.parent = node.parent ∧ node'.name = node.name := by
  have hparent := congrArg Node.parent h
  have hname := congrArg Node.name h
  exact ⟨hparent, hname⟩

theorem unlocked_counts {node node' : Node} (h : node'.unlocked = node.unlocked) :
    node'.refctr = node.refctr ∧ node'.nlookup = node.nlookup := by
  have href := congrArg Node.refctr h
  have hlookup := congrArg Node.nlookup h
  exact ⟨href, hlookup⟩

theorem Relocked.links (h : Relocked f f') : f'.links = f.links := by
  funext x
  rw [Fuse.links, Fuse.links]
  cases hx : f.nodes x with
  | none =>
      have hnone := h.nodes x
      rw [hx, Option.map_none, Option.map_eq_none_iff] at hnone
      rw [hnone, Option.map_none]
  | some node =>
      rcases h.exists_node hx with ⟨node', hnode', hsame⟩
      rw [hnode', Option.map_some, Option.map_some, (unlocked_links hsame).1,
        (unlocked_links hsame).2]

theorem Relocked.key (h : Relocked f f') : f'.key = f.key :=
  funext (fun x => key_congr (congrFun h.links x))

theorem Relocked.parentOf (h : Relocked f f') : f'.parentOf = f.parentOf :=
  funext (fun x => parentOf_congr (congrFun h.key x))

theorem Relocked.idTable (h : Relocked f f') : f'.idTable = f.idTable := by
  rw [h.rest]

theorem Relocked.nameTable (h : Relocked f f') : f'.nameTable = f.nameTable := by
  rw [h.rest]

theorem Relocked.depth (h : Relocked f f') : f'.depth = f.depth := by
  rw [Fuse.depth, Fuse.depth, h.idTable]

theorem Relocked.holds_iff (h : Relocked f f') : f'.Holds id <-> f.Holds id := by
  have hone : forall {g g' : Fuse}, Relocked g g' -> g.Holds id -> g'.Holds id := by
    rintro g g' hg ⟨node, hnode, hheld⟩
    rcases hg.exists_node hnode with ⟨node', hnode', hsame⟩
    exact ⟨node', hnode', (unlocked_counts hsame).2 ▸ hheld⟩
  exact ⟨hone h.symm, hone h⟩

theorem Relocked.linked (h : Relocked f f') (hlinked : Linked f ids named loose extra)
    (hanchored : Anchored f' named) : Linked f' ids named loose extra := by
  refine ⟨hlinked.toShape.congr h.idTable h.nameTable h.links, ?_, hanchored, ?_, ?_⟩
  · intro x node' hnode'
    rcases h.symm.exists_node hnode' with ⟨node, hnode, hsame⟩
    rw [children_congr (fun c _ => congrFun h.key c), ← (unlocked_counts hsame).1,
      ← (unlocked_counts hsame).2]
    exact hlinked.counted x node hnode
  · rw [h.rest]
    exact hlinked.freed
  · exact h.holds_iff.mpr hlinked.rootHeld

end Relocked

/-!
## Several nodes
-/

/-- The nodes of a list are changed in one way. -/
def Fuse.onNodes (l : List Nat) (g : Node -> Node) (f : Fuse) : Fuse :=
  { f with nodes := fun x => if x ∈ l then (f.nodes x).map g else f.nodes x }

/-- A node locked once more for reading. -/
def Node.lock (node : Node) : Node :=
  { node with treelock := node.treelock + 1, ticket := 0 }

/-- A node unlocked, with a ticket left on it. -/
def Node.unlock (ticket : Nat) (node : Node) : Node :=
  { node with
    treelock := node.treelock - 1
    ticket := if node.ticket = 0 then ticket else node.ticket }

section Several

variable {f f' : Fuse} {ids named : List Nat} {id : Nat} {node : Node} {l : List Nat}
  {g : Node -> Node}

theorem onNodes_nil (f : Fuse) (g : Node -> Node) : f.onNodes [] g = f := by
  rw [Fuse.onNodes]
  simp only [List.not_mem_nil, if_false]

theorem onNodes_of_mem {x : Nat} (hx : x ∈ l) (f : Fuse) (g : Node -> Node) :
    (f.onNodes l g).nodes x = (f.nodes x).map g :=
  if_pos hx

theorem onNodes_of_not_mem {x : Nat} (hx : x ∉ l) (f : Fuse) (g : Node -> Node) :
    (f.onNodes l g).nodes x = f.nodes x :=
  if_neg hx

theorem onNodes_cons (hnode : f.nodes id = some node) (hid : id ∉ l) :
    (f.put id (some (g node))).onNodes l g = f.onNodes (id :: l) g := by
  rw [Fuse.onNodes, Fuse.onNodes]
  refine congrArg (fun nodes => ({ f with nodes := nodes } : Fuse)) ?_
  funext x
  by_cases hx : x = id
  · rw [hx, if_neg hid, put_nodes_self, if_pos List.mem_cons_self, hnode, Option.map_some]
  · rw [put_nodes_of_ne f hx]
    simp only [List.mem_cons, hx, false_or]

theorem Relocked.onNodes (f : Fuse) (l : List Nat) (hg : forall node, (g node).unlocked =
    node.unlocked) : Relocked f (f.onNodes l g) := by
  refine ⟨rfl, ?_⟩
  intro x
  by_cases hx : x ∈ l
  · rw [onNodes_of_mem hx]
    cases f.nodes x with
    | none => rfl
    | some node => rw [Option.map_some, Option.map_some, Option.map_some, hg]
  · rw [onNodes_of_not_mem hx]

end Several

/-!
## The way up
-/

/-- The way from a node up to the root: the nodes below the root, and the path that their
names spell. -/
inductive Route (f : Fuse) : Nat -> List Nat -> List Byte -> Prop
  | root : Route f rootId [] []
  | up {id parent : Nat} {name : CString} {line : List Nat} {text : List Byte}
      (hkey : f.key id = some (parent, name)) (habove : Route f parent line text) :
      Route f id (id :: line) (text ++ slash :: name.bytes)

/-- What a node adds to the length of a path. -/
def Fuse.nameSize (f : Fuse) (id : Nat) : Nat :=
  match f.key id with
  | none => 0
  | some (_, name) => name.length + 1

def Fuse.spellSize (f : Fuse) (line : List Nat) : Nat :=
  (line.map f.nameSize).sum

theorem nameSize_eq {f : Fuse} {id parent : Nat} {name : CString}
    (hkey : f.key id = some (parent, name)) : f.nameSize id = name.length + 1 := by
  rw [Fuse.nameSize, hkey]

theorem spellSize_congr {f f' : Fuse} (h : f'.key = f.key) (line : List Nat) :
    f'.spellSize line = f.spellSize line := by
  have hsize : f'.nameSize = f.nameSize := by
    funext x
    rw [Fuse.nameSize, Fuse.nameSize, h]
  rw [Fuse.spellSize, Fuse.spellSize, hsize]

theorem Route.congr {f f' : Fuse} {id : Nat} {line : List Nat} {text : List Byte}
    (h : Route f id line text) (hsame : forall x, x ∈ line -> f'.key x = f.key x) :
    Route f' id line text := by
  induction h with
  | root => exact Route.root
  | up hkey habove ih =>
      refine Route.up ?_ (ih (fun x hx => hsame x (List.mem_cons_of_mem _ hx)))
      rw [hsame _ List.mem_cons_self, hkey]

/-- What the loop of `try_get_path` does on the way up: it comes to the root, or it is stuck at
a node with the nodes below it locked. -/
inductive Climbed (f : Fuse) (id : Nat) (line : List Nat) (b : PathBuffer) :
    Except (Int × Nat) PathBuffer -> Fuse -> Prop
  | top {below : List Nat} {text : List Byte} {b' : PathBuffer}
      (hline : line = below ++ [rootId]) (hroute : Route f id below text)
      (hfree : forall x node, x ∈ below -> f.nodes x = some node -> node.treelock ≠ -1)
      (hfits : b'.Fits) (htext : b'.text = text ++ b.text) :
      Climbed f id line b (.ok b') (f.onNodes below Node.lock)
  | stuck {err : Int} {below rest : List Nat} {stop : Nat} (hline : line = below ++ stop :: rest)
      (hfree : forall x node, x ∈ below -> f.nodes x = some node -> node.treelock ≠ -1)
      (hkeys : forall x, x ∈ below -> f.key x ≠ none) :
      Climbed f id line b (.error (err, stop)) (f.onNodes below Node.lock)

theorem Climbed.stuck_here {f : Fuse} {id : Nat} {line : List Nat} (b : PathBuffer)
    (hline : exists above, line = id :: above) (err : Int) :
    Climbed f id line b (.error (err, id)) f := by
  rcases hline with ⟨above, rfl⟩
  have hstuck : Climbed f id (id :: above) b (.error (err, id)) (f.onNodes [] Node.lock) :=
    Climbed.stuck (List.nil_append (id :: above)).symm
      (fun x _ hx => absurd hx List.not_mem_nil) (fun x hx => absurd hx List.not_mem_nil)
  rw [onNodes_nil] at hstuck
  exact hstuck

theorem Climbed.under {f f' : Fuse} {id parent : Nat} {name : CString} {node : Node}
    {above : List Nat} {b b1 : PathBuffer} {out : Except (Int × Nat) PathBuffer}
    (hnode : f.nodes id = some node) (hkey : f.key id = some (parent, name))
    (hlock : node.treelock ≠ -1) (hid : id ∉ above)
    (htext : b1.text = slash :: (name.bytes ++ b.text))
    (h : Climbed (f.put id (some node.lock)) parent above b1 out f') :
    Climbed f id (id :: above) b out f' := by
  have hrelocked : Relocked f (f.put id (some node.lock)) := Relocked.put hnode rfl
  have hfree : forall (below : List Nat), (forall x, x ∈ below -> x ∈ above) ->
      (forall x xnode, x ∈ below -> (f.put id (some node.lock)).nodes x = some xnode ->
        xnode.treelock ≠ -1) ->
      forall x xnode, x ∈ id :: below -> f.nodes x = some xnode -> xnode.treelock ≠ -1 := by
    intro below hsub hbelow x xnode hx hxnode
    rcases List.mem_cons.mp hx with hself | hmem
    · rw [hself, hnode] at hxnode
      cases hxnode
      exact hlock
    · have hne : x ≠ id := by
        rintro rfl
        exact hid (hsub x hmem)
      exact hbelow x xnode hmem ((put_nodes_of_ne f hne _).trans hxnode)
  cases h with
  | @top below text b' hline hroute hunlocked hfits htext' =>
      have hsub : forall x, x ∈ below -> x ∈ above := by
        intro x hx
        rw [hline]
        exact List.mem_append_left _ hx
      rw [onNodes_cons hnode (fun hx => hid (hsub id hx))]
      have hroute' : Route f id (id :: below) (text ++ slash :: name.bytes) :=
        Route.up hkey (hroute.congr (fun x _ => (congrFun hrelocked.key x).symm))
      refine Climbed.top ?_ hroute' (hfree below hsub hunlocked) hfits ?_
      · rw [hline, List.cons_append]
      · rw [htext', htext, List.append_assoc, List.cons_append]
  | @stuck err below rest stop hline hunlocked hkeys =>
      have hsub : forall x, x ∈ below -> x ∈ above := by
        intro x hx
        rw [hline]
        exact List.mem_append_left _ hx
      rw [onNodes_cons hnode (fun hx => hid (hsub id hx))]
      have hline' : id :: above = id :: below ++ stop :: rest := by
        rw [hline, List.cons_append]
      refine Climbed.stuck hline' (hfree below hsub hunlocked) ?_
      intro x hx
      rcases List.mem_cons.mp hx with hself | hmem
      · rw [hself, hkey]
        exact Option.some_ne_none _
      · rw [← hrelocked.key]
        exact hkeys x hmem

theorem climb_spec (room : Nat -> Option (Nat -> Byte)) {ticket : Nat} (hticket : ticket ≠ 0)
    {line : List Nat} {f : Fuse} {id depth : Nat} {b : PathBuffer}
    (hline : Line f.parentOf id line) (hlive : forall x, x ∈ line -> f.nodes x ≠ none)
    (hroot : f.key rootId = none) (hdepth : line.length ≤ depth) (hfits : b.Fits)
    (hsize : b.text.length + f.spellSize line ≤ 0xffffffff) :
    exists out f', climb room ticket depth id b f = some (out, f') ∧
      Climbed f id line b out f' := by
  induction line generalizing f id depth b with
  | nil =>
      rcases hline.eq_cons with ⟨above, habove⟩
      cases habove
  | cons start above ih =>
      rcases hline.eq_cons with ⟨rest, heq⟩
      cases heq
      rcases depth with _ | depth
      · rw [List.length_cons] at hdepth
        lia
      rcases Option.ne_none_iff_exists'.mp (hlive start List.mem_cons_self) with ⟨node, hnode⟩
      have hnodeKey : f.key start = node.key := by
        rw [Fuse.key, hnode, Option.bind_some]
      rw [climb]
      by_cases hid : start = rootId
      · rw [if_pos hid]
        have htop : f.parentOf start = none := by
          rw [hid, Fuse.parentOf, hroot, Option.map_none]
        have hend := hline.unique (Line.top htop)
        refine ⟨_, _, rfl, ?_⟩
        have hclimbed : Climbed f start (start :: above) b (.ok b) (f.onNodes [] Node.lock) := by
          refine Climbed.top (by rw [hend, hid]; rfl) (hid ▸ Route.root)
            (fun x _ hx => absurd hx List.not_mem_nil) hfits ?_
          rw [List.nil_append]
        rw [onNodes_nil] at hclimbed
        exact hclimbed
      · rw [if_neg hid, hnode]
        cases hkey : node.key with
        | none =>
            refine ⟨.error (-ENOENT, start), f, ?_, Climbed.stuck_here b ⟨above, rfl⟩ _⟩
            simp only [hkey, Option.bind_eq_bind, Option.bind_some, Option.pure_def]
        | some entry =>
            rcases entry with ⟨parent, name⟩
            rw [← hnodeKey] at hkey
            have hup : f.parentOf start = some parent := by
              rw [Fuse.parentOf, hkey, Option.map_some]
            rcases hline.of_parent hup with ⟨above', heq, habove⟩
            cases heq
            have hself : start ∉ above := (List.nodup_cons.mp hline.nodup).1
            rw [Fuse.spellSize, List.map_cons, List.sum_cons, nameSize_eq hkey] at hsize
            have hfit : b.text.length + name.length + 1 ≤ 0xffffffff := by lia
            rcases addName_spec room hfits hfit with hfull | ⟨b1, hadd, hfits1, htext1⟩
            · refine ⟨.error (-ENOMEM, start), f, ?_, Climbed.stuck_here b ⟨above, rfl⟩ _⟩
              simp only [← hnodeKey, hkey, hfull, Option.bind_eq_bind, Option.bind_some,
                Option.pure_def]
            by_cases hbusy : node.treelock = -1 ∨ (node.ticket ≠ 0 ∧ node.ticket ≠ ticket)
            · refine ⟨.error (-EAGAIN, start), f, ?_, Climbed.stuck_here b ⟨above, rfl⟩ _⟩
              simp only [← hnodeKey, hkey, hadd, if_neg hticket, if_pos hbusy,
                Option.bind_eq_bind, Option.bind_some, Option.pure_def]
            · have hrelocked : Relocked f (f.put start (some node.lock)) := Relocked.put hnode rfl
              have hsize1 : b1.text.length + (f.put start (some node.lock)).spellSize above ≤
                  0xffffffff := by
                rw [spellSize_congr hrelocked.key, htext1, List.length_cons, List.length_append,
                  Fuse.spellSize]
                have hbytes : name.bytes.length = name.length := rfl
                lia
              have hlive1 : forall x, x ∈ above ->
                  (f.put start (some node.lock)).nodes x ≠ none := by
                intro x hx
                rw [put_nodes_of_ne f]
                · exact hlive x (List.mem_cons_of_mem _ hx)
                · rintro rfl
                  exact hself hx
              have habove1 : Line (f.put start (some node.lock)).parentOf parent above := by
                rw [hrelocked.parentOf]
                exact habove
              have hdepth1 : above.length ≤ depth := by
                rw [List.length_cons] at hdepth
                lia
              rcases ih habove1 hlive1 ((congrFun hrelocked.key rootId).trans hroot) hdepth1
                hfits1 hsize1 with ⟨out, f', hcall, hclimbed⟩
              refine ⟨out, f', ?_, hclimbed.under hnode hkey
                (fun heq => hbusy (Or.inl heq)) hself htext1⟩
              rw [← hcall]
              simp only [← hnodeKey, hkey, hadd, if_neg hticket, if_neg hbusy,
                Option.bind_eq_bind, Option.bind_some, Option.pure_def]
              rfl

theorem unlockLoop_spec {stop : Option Nat} (ticket : Nat) {below rest : List Nat} {f : Fuse}
    {id last depth : Nat} (hline : Line f.parentOf id (below ++ last :: rest))
    (hlocked : forall x, x ∈ below -> exists node, f.nodes x = some node ∧ 0 < node.treelock)
    (hstop : forall x, x ∈ below -> some x ≠ stop) (hroot : f.key rootId = none)
    (hend : some last = stop ∨ last = rootId) (hdepth : below.length < depth) :
    unlockLoop stop ticket depth (some id) f = some (f.onNodes below (Node.unlock ticket)) := by
  induction below generalizing f id depth with
  | nil =>
      rcases hline.eq_cons with ⟨above, heq⟩
      cases heq
      rcases depth with _ | depth
      · exact absurd hdepth (Nat.not_lt_zero _)
      rw [onNodes_nil, unlockLoop]
      rcases hend with hend | hend
      · rw [if_pos hend]
      · by_cases hsame : some last = stop
        · rw [if_pos hsame]
        · rw [if_neg hsame]
          simp only [if_pos hend, Option.bind_eq_bind, Option.bind_some, Option.pure_def]
  | cons start below ih =>
      rcases hline.eq_cons with ⟨above, heq⟩
      cases heq
      rcases depth with _ | depth
      · exact absurd hdepth (Nat.not_lt_zero _)
      rw [List.length_cons] at hdepth
      have hnodup := hline.nodup
      rw [List.cons_append] at hline hnodup
      cases hup : f.parentOf start with
      | none =>
          have hshort := hline.unique (Line.top hup)
          rw [List.cons.injEq] at hshort
          exact absurd hshort.2 (List.append_ne_nil_of_right_ne_nil _ (List.cons_ne_nil _ _))
      | some parent =>
          rcases hline.of_parent hup with ⟨above, heq, habove⟩
          cases heq
          rcases hlocked start List.mem_cons_self with ⟨node, hnode, hpos⟩
          have hne : start ≠ rootId := by
            rintro rfl
            rw [Fuse.parentOf, hroot] at hup
            cases hup
          have hparent : node.parent = some parent := by
            rw [Fuse.parentOf, Option.map_eq_some_iff] at hup
            rcases hup with ⟨⟨p, name⟩, hkey, rfl⟩
            rcases links_eq_some (key_eq_some_iff.mp hkey) with ⟨node', hnode', hp, _⟩
            rw [hnode] at hnode'
            cases hnode'
            exact hp
          have hself : start ∉ below :=
            fun hmem => (List.nodup_cons.mp hnodup).1 (List.mem_append_left _ hmem)
          have hrelocked : Relocked f (f.put start (some (node.unlock ticket))) :=
            Relocked.put hnode rfl
          have hlocked1 : forall x, x ∈ below -> exists xnode,
              (f.put start (some (node.unlock ticket))).nodes x = some xnode ∧
                0 < xnode.treelock := by
            intro x hx
            rcases hlocked x (List.mem_cons_of_mem _ hx) with ⟨xnode, hxnode, hxpos⟩
            refine ⟨xnode, (put_nodes_of_ne f ?_ _).trans hxnode, hxpos⟩
            rintro rfl
            exact hself hx
          have hnext := ih (by rw [hrelocked.parentOf]; exact habove) hlocked1
            (fun x hx => hstop x (List.mem_cons_of_mem _ hx))
            ((congrFun hrelocked.key rootId).trans hroot) (Nat.lt_of_succ_lt_succ hdepth)
          rw [onNodes_cons hnode hself] at hnext
          have hstep : unlockLoop stop ticket (depth + 1) (some start) f =
              unlockLoop stop ticket depth node.parent
                (f.put start (some (node.unlock ticket))) := by
            simp only [unlockLoop, if_neg (hstop start List.mem_cons_self), if_neg hne, hnode,
              if_pos hpos, Option.bind_eq_bind, Option.bind_some]
            rfl
          rw [hstep, hparent, hnext]

def Node.untag (node : Node) : Node :=
  { node with ticket := 0 }

/-- `release_tickets` comes to the root, or to a node with another ticket. -/
theorem releaseLoop_spec {ticket : Nat} {line : List Nat} {f : Fuse} {id depth : Nat}
    (hline : Line f.parentOf id line) (hlive : forall x, x ∈ line -> f.nodes x ≠ none)
    (hroot : f.key rootId = none)
    (hother : forall x node, x ∈ line -> x ≠ rootId -> f.key x = none ->
      f.nodes x = some node -> node.ticket ≠ ticket) (hdepth : line.length ≤ depth) :
    exists below, (forall x, x ∈ below -> x ∈ line) ∧
      releaseLoop ticket depth (some id) f = some (f.onNodes below Node.untag) := by
  induction line generalizing f id depth with
  | nil =>
      rcases hline.eq_cons with ⟨above, habove⟩
      cases habove
  | cons start above ih =>
      rcases hline.eq_cons with ⟨rest, heq⟩
      cases heq
      rcases depth with _ | depth
      · rw [List.length_cons] at hdepth
        lia
      by_cases hid : start = rootId
      · refine ⟨[], fun x hx => absurd hx List.not_mem_nil, ?_⟩
        rw [onNodes_nil]
        simp only [releaseLoop, if_pos hid, Option.bind_eq_bind, Option.bind_some, Option.pure_def]
      rcases Option.ne_none_iff_exists'.mp (hlive start List.mem_cons_self) with ⟨node, hnode⟩
      by_cases htag : node.ticket ≠ ticket
      · refine ⟨[], fun x hx => absurd hx List.not_mem_nil, ?_⟩
        rw [onNodes_nil]
        simp only [releaseLoop, if_neg hid, hnode, if_pos htag, Option.bind_eq_bind,
          Option.bind_some, Option.pure_def]
      cases hkey : f.key start with
      | none => exact absurd (hother start node List.mem_cons_self hid hkey hnode) htag
      | some entry =>
          rcases entry with ⟨parent, name⟩
          have hup : f.parentOf start = some parent := by
            rw [Fuse.parentOf, hkey, Option.map_some]
          rcases hline.of_parent hup with ⟨above', heq, habove⟩
          cases heq
          have hself : start ∉ above := (List.nodup_cons.mp hline.nodup).1
          have hparent : node.parent = some parent := by
            rcases links_eq_some (key_eq_some_iff.mp hkey) with ⟨node', hnode', hp, _⟩
            rw [hnode] at hnode'
            cases hnode'
            exact hp
          have hrelocked : Relocked f (f.put start (some node.untag)) := Relocked.put hnode rfl
          have hsame : forall x, x ∈ above ->
              (f.put start (some node.untag)).nodes x = f.nodes x := by
            intro x hx
            refine put_nodes_of_ne f ?_ _
            rintro rfl
            exact hself hx
          have hline1 : Line (f.put start (some node.untag)).parentOf parent above := by
            rw [hrelocked.parentOf]
            exact habove
          have hlive1 : forall x, x ∈ above -> (f.put start (some node.untag)).nodes x ≠ none := by
            intro x hx
            rw [hsame x hx]
            exact hlive x (List.mem_cons_of_mem _ hx)
          have hother1 : forall x xnode, x ∈ above -> x ≠ rootId ->
              (f.put start (some node.untag)).key x = none ->
              (f.put start (some node.untag)).nodes x = some xnode -> xnode.ticket ≠ ticket := by
            intro x xnode hx hxroot hxkey hxnode
            rw [hrelocked.key] at hxkey
            rw [hsame x hx] at hxnode
            exact hother x xnode (List.mem_cons_of_mem _ hx) hxroot hxkey hxnode
          have hdepth1 : above.length ≤ depth := by
            rw [List.length_cons] at hdepth
            lia
          rcases ih hline1 hlive1 ((congrFun hrelocked.key rootId).trans hroot) hother1 hdepth1
            with ⟨below, hsub, hbelow⟩
          refine ⟨start :: below, List.cons_subset_cons start hsub, ?_⟩
          have hstep : releaseLoop ticket (depth + 1) (some start) f =
              releaseLoop ticket depth node.parent (f.put start (some node.untag)) := by
            simp only [releaseLoop, if_neg hid, hnode, if_neg htag, Option.bind_eq_bind,
              Option.bind_some]
            rfl
          rw [hstep, hparent, hbelow, onNodes_cons hnode (fun hmem => hself (hsub start hmem))]

end ShadowFs.Libfuse

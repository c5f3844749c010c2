import ShadowFs.Fuse.Buffers
import ShadowFs.Library.LinearHash

/-!
# The nodes of the library

`fuse.c` keeps a node for every inode number it has given to the kernel.  Two tables find it
by its number and by its parent and name.  A node counts its references: one as long as the
kernel holds lookups on it, and one for each of its children.

A node is designated by its number, which stands for its address.  A call that ends in
`abort`, in a failed assertion or in an access through a pointer that does not point to a
node gives `none`.  The memory of a freed node is used again without being cleared.  Nodes
are not remembered after the kernel has forgotten them (`conf.remember` is 0).
-/

namespace ShadowFs.Libfuse

open CLib Library

/-- `FUSE_ROOT_ID`. -/
abbrev rootId : Nat := 1

/-- `NODE_TABLE_MIN_SIZE`. -/
def tableMinSize : Nat := 8192

abbrev EBUSY : Int := 16

structure Node where
  generation : Nat
  refctr : Nat
  parent : Option Nat
  name : Option CString
  nlookup : Nat
  treelock : Int
  ticket : Nat
deriving DecidableEq

/-- A node in memory that was never used. -/
def Node.zero : Node :=
  { generation := 0, refctr := 0, parent := none, name := none, nlookup := 0, treelock := 0
    ticket := 0 }

/-- What the name table is searched for. -/
def Node.key (node : Node) : Option (Nat × CString) :=
  match node.parent, node.name with
  | some parent, some name => some (parent, name)
  | _, _ => none

structure Fuse where
  nodes : Nat -> Option Node
  nameTable : LinearHash Nat
  idTable : LinearHash Nat
  ctr : Nat
  generation : Nat
  currTicket : Nat
  /-- What is left in the memory of the freed nodes. -/
  freeNodes : List Node

/-- The answers of the allocation functions: `alloc_node` fails, takes new memory or that of
a freed node; an array may or may not be reallocated. -/
structure Supply where
  allocNode : Option (Option Nat)
  strdup : Bool
  realloc : LinearHash Nat -> Bool

namespace Fuse

def put (f : Fuse) (id : Nat) (node : Option Node) : Fuse :=
  { f with nodes := Function.update f.nodes id node }

def key (f : Fuse) (id : Nat) : Option (Nat × CString) :=
  (f.nodes id).bind Node.key

end Fuse

section Nodes

variable (supply : Supply)

/-!
## The table of numbers
-/

/-- The value that `id_hash` takes a remainder of. -/
def idHash (ino : Nat) : Nat :=
  ino % 2 ^ 32 * 2654435761 % 2 ^ 32

def getNodeNocheck (f : Fuse) (nodeid : Nat) : Option (Option Nat) :=
  f.idTable.find (fun id => id == nodeid) (idHash nodeid)

def getNode (f : Fuse) (nodeid : Nat) : Option Nat :=
  (getNodeNocheck f nodeid).join

def hashId (id : Nat) (f : Fuse) : Option Fuse := do
  let table ← f.idTable.insert idHash (supply.realloc f.idTable) id
  return { f with idTable := table }

def unhashId (id : Nat) (f : Fuse) : Option Fuse := do
  let (found, table) ← f.idTable.detach idHash id
  if found then
    let table ← table.release tableMinSize (supply.realloc table)
    return { f with idTable := table }
  else return f

/-!
## Memory
-/

def allocNode (f : Fuse) : Option (Node × Fuse) :=
  match supply.allocNode with
  | none => none
  | some none => some (Node.zero, f)
  | some (some i) =>
      match f.freeNodes[i]? with
      | none => none
      | some node => some (node, { f with freeNodes := f.freeNodes.eraseIdx i })

def freeNode (id : Nat) (f : Fuse) : Option Fuse := do
  let node ← f.nodes id
  return { f.put id none with freeNodes := node :: f.freeNodes }

/-!
## The table of names
-/

/-- The value that `name_hash` takes a remainder of. -/
def nameHash (parent : Nat) (name : CString) : Nat :=
  name.bytes.foldl (fun hash b => (hash * 31 + b.toNat) % 2 ^ 64) parent

def Fuse.nameKey (f : Fuse) (id : Nat) : Nat :=
  match f.key id with
  | some (parent, name) => nameHash parent name
  | none => 0

def lookupNode (f : Fuse) (parent : Nat) (name : CString) : Option (Option Nat) :=
  f.nameTable.find (fun id => f.key id = some (parent, name)) (nameHash parent name)

/-- The name is copied into the node if it fits there, else it is duplicated. -/
def hashName (id parentid : Nat) (name : CString) (f : Fuse) : Option (Bool × Fuse) := do
  let parent ← getNode f parentid
  let node ← f.nodes id
  if name.length < 32 ∨ supply.strdup = true then
    let f := f.put id (some { node with name := some name })
    let node ← f.nodes parent
    let f := f.put parent (some { node with refctr := node.refctr + 1 })
    let node ← f.nodes id
    let f := f.put id (some { node with parent := some parent })
    let table ← f.nameTable.insert f.nameKey (supply.realloc f.nameTable) id
    return (true, { f with nameTable := table })
  else
    return (false, f.put id (some { node with name := none }))

/-- `unhash_name` is called back to take the name away. -/
def deleteNode (unhashName : Nat -> Fuse -> Option Fuse) (id : Nat) (f : Fuse) :
    Option Fuse := do
  let node ← f.nodes id
  if node.treelock = 0 then
    let f ← unhashName id f
    let f ← unhashId supply id f
    freeNode id f
  else none

def unrefNode (unhashName : Nat -> Fuse -> Option Fuse) (id : Nat) (f : Fuse) :
    Option Fuse := do
  let node ← f.nodes id
  if 0 < node.refctr then
    let f := f.put id (some { node with refctr := node.refctr - 1 })
    if node.refctr - 1 = 0 then deleteNode supply unhashName id f else return f
  else none

/-- The recursion goes up through the parents; `depth` limits it. -/
def unhashName : Nat -> Nat -> Fuse -> Option Fuse
  | 0, _, _ => none
  | depth + 1, id, f => do
      let node ← f.nodes id
      if node.name.isSome then
        let parent ← node.parent
        let (found, table) ← f.nameTable.detach f.nameKey id
        if found then
          let f ← unrefNode supply (unhashName depth) parent { f with nameTable := table }
          let node ← f.nodes id
          let f := f.put id (some { node with name := none, parent := none })
          let table ← f.nameTable.release tableMinSize (supply.realloc f.nameTable)
          return { f with nameTable := table }
        else none
      else return f

/-- No node has more ancestors than there are nodes. -/
def Fuse.depth (f : Fuse) : Nat :=
  f.idTable.use

/-!
## Operations
-/

/-- The loop of `next_id`.  After `2 ^ 32` rounds it has tried every number. -/
def nextIdLoop : Nat -> Fuse -> Option (Nat × Fuse)
  | 0, _ => none
  | rounds + 1, f =>
      let ctr := (f.ctr + 1) % 2 ^ 32
      let f := { f with
        ctr := ctr
        generation := if ctr = 0 then (f.generation + 1) % 2 ^ 32 else f.generation }
      if ctr = 0 ∨ ctr = FUSE_UNKNOWN_INO then nextIdLoop rounds f
      else do
        let found ← getNodeNocheck f ctr
        if found.isSome then nextIdLoop rounds f else return (ctr, f)

def nextId (f : Fuse) : Option (Nat × Fuse) :=
  nextIdLoop (2 ^ 32) f

/-- `node->nlookup ++`. -/
def countLookup (id : Nat) (f : Fuse) : Option Fuse := do
  let node ← f.nodes id
  return f.put id (some { node with nlookup := node.nlookup + 1 })

/-- The part of `find_node` for a name that has no node; `none` inside is a null pointer.
The fields that are not assigned keep what the memory held before. -/
def newNode (parent : Nat) (name : CString) (f : Fuse) : Option (Option Nat × Fuse) :=
  match allocNode supply f with
  | none => some (none, f)
  | some (node, f) => do
      let (id, f) ← nextId f
      let f := f.put id (some { node with
        refctr := 1, generation := f.generation, treelock := 0, ticket := 0 })
      let (hashed, f) ← hashName supply id parent name f
      if hashed then
        let f ← hashId supply id f
        let f ← countLookup id f
        return (some id, f)
      else
        let f ← freeNode id f
        return (none, f)

def findNode (parent : Nat) (name : CString) (f : Fuse) : Option (Option Nat × Fuse) := do
  match ← lookupNode f parent name with
  | none => newNode supply parent name f
  | some id =>
      let f ← countLookup id f
      return (some id, f)

/-- The condition under which `forget_node` waits. -/
def forgetWaits (f : Fuse) (nodeid nlookup : Nat) : Bool :=
  match f.nodes nodeid with
  | none => false
  | some node => node.nlookup = nlookup ∧ node.treelock ≠ 0

/-- `forget_node`, when it need not wait. -/
def forgetNode (nodeid nlookup : Nat) (f : Fuse) : Option Fuse :=
  if nodeid = rootId then some f
  else do
    let id ← getNode f nodeid
    let node ← f.nodes id
    if nlookup ≤ node.nlookup then
      let f := f.put id (some { node with nlookup := node.nlookup - nlookup })
      if node.nlookup - nlookup = 0 then unrefNode supply (unhashName supply f.depth) id f
      else return f
    else none

def unlinkNode (id : Nat) (f : Fuse) : Option Fuse :=
  unhashName supply (f.depth + 1) id f

def removeNode (dir : Nat) (name : CString) (f : Fuse) : Option Fuse := do
  match ← lookupNode f dir name with
  | none => return f
  | some id => unlinkNode supply id f

def renameNode (olddir : Nat) (oldname : CString) (newdir : Nat) (newname : CString)
    (hide : Bool) (f : Fuse) : Option (Int × Fuse) := do
  let node ← lookupNode f olddir oldname
  let newnode ← lookupNode f newdir newname
  match node with
  | none => return (0, f)
  | some id =>
      if newnode.isSome ∧ hide = true then return (-EBUSY, f)
      else
        let f ← match newnode with
          | none => some f
          | some newid => unlinkNode supply newid f
        let f ← unhashName supply (f.depth + 1) id f
        let (hashed, f) ← hashName supply id newdir newname f
        return (if hashed then 0 else -ENOMEM, f)

end Nodes

/-- The state after `fuse_new_common`: the root is found by its number only. -/
def fuseNew (supply : Supply) : Option Fuse :=
  hashId supply rootId
    { nodes := Function.update (fun _ => none) rootId (some { Node.zero with
        refctr := 1, nlookup := 1, name := some (CString.lit "/") })
      nameTable := LinearHash.empty tableMinSize
      idTable := LinearHash.empty tableMinSize
      ctr := 0
      generation := 0
      currTicket := 0
      freeNodes := [] }

end ShadowFs.Libfuse

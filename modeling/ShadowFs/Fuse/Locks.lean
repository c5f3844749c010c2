import ShadowFs.Callbacks.Operations
import ShadowFs.Fuse.PathBuffer
import ShadowFs.Fuse.NodeOperations

/-!
# Locking paths

A request locks the nodes on the way up from the one it is about, below the root: while it
works on the path, none of them may be renamed or removed.  A request that is going to do so
locks the node itself for writing.  A request that does not get all of its locks gives back
those it has, leaves its ticket on their nodes, and tries again later.

The definitions follow `fuse.c`; `none` is an abort, a failed assertion, an access through a
null pointer or a loop that does not end.
-/

namespace ShadowFs.Libfuse

open CLib Library LinearHash

abbrev EAGAIN : Int := 11

/-- The ticket is an `int` that skips 0. -/
def getTicket (f : Fuse) : Nat × Fuse :=
  let next := (f.currTicket + 1) % 2 ^ 32
  let ticket := if next = 0 then 1 else next
  (ticket, { f with currTicket := ticket })

/-- The loop of `unlock_path`, from a node to the root or to `stop`. -/
def unlockLoop (stop : Option Nat) (ticket : Nat) : Nat -> Option Nat -> Fuse -> Option Fuse
  | 0, _, _ => none
  | depth + 1, cursor, f =>
      if cursor = stop then some f
      else do
        let id ← cursor
        if id = rootId then return f
        else
          let node ← f.nodes id
          if 0 < node.treelock then
            unlockLoop stop ticket depth node.parent (f.put id (some { node with
              treelock := node.treelock - 1
              ticket := if node.ticket = 0 then ticket else node.ticket }))
          else none

def unlockWnode (wnode : Option Nat) (ticket : Nat) (f : Fuse) : Option Fuse :=
  match wnode with
  | none => some f
  | some id => do
      let node ← f.nodes id
      if node.treelock = -1 then
        return f.put id (some { node with
          treelock := 0
          ticket := if node.ticket = 0 then ticket else node.ticket })
      else none

def unlockPath (nodeid : Nat) (wnode stop : Option Nat) (ticket : Nat) (f : Fuse) :
    Option Fuse := do
  let f ← unlockWnode wnode ticket f
  let id ← getNode f nodeid
  unlockLoop stop ticket (f.depth + 1) (some id) f

def releaseLoop (ticket : Nat) : Nat -> Option Nat -> Fuse -> Option Fuse
  | 0, _, _ => none
  | depth + 1, cursor, f => do
      let id ← cursor
      if id = rootId then return f
      else
        let node ← f.nodes id
        if node.ticket ≠ ticket then return f
        else releaseLoop ticket depth node.parent (f.put id (some { node with ticket := 0 }))

def releaseTickets (nodeid : Nat) (wnode : Option Nat) (ticket : Nat) (f : Fuse) :
    Option Fuse := do
  match wnode with
  | none =>
      let id ← getNode f nodeid
      releaseLoop ticket (f.depth + 1) (some id) f
  | some w =>
      let node ← f.nodes w
      if node.ticket ≠ ticket then return f
      else
        let f := f.put w (some { node with ticket := 0 })
        let id ← getNode f nodeid
        releaseLoop ticket (f.depth + 1) (some id) f

/-- The loop of `try_get_path`: the path is spelled and, with a ticket, locked.  An error is
returned with the node at which it occurred. -/
def climb (room : Nat -> Option (Nat -> Byte)) (ticket : Nat) :
    Nat -> Nat -> PathBuffer -> Fuse -> Option (Except (Int × Nat) PathBuffer × Fuse)
  | 0, _, _, _ => none
  | depth + 1, id, b, f =>
      if id = rootId then some (.ok b, f)
      else do
        let node ← f.nodes id
        match node.key with
        | none => return (.error (-ENOENT, id), f)
        | some (parent, name) =>
            match ← addName room b name with
            | none => return (.error (-ENOMEM, id), f)
            | some b =>
                if ticket = 0 then climb room ticket depth parent b f
                else if node.treelock = -1 ∨ (node.ticket ≠ 0 ∧ node.ticket ≠ ticket) then
                  return (.error (-EAGAIN, id), f)
                else
                  climb room ticket depth parent b (f.put id (some { node with
                    treelock := node.treelock + 1, ticket := 0 }))

/-- The node that is going to be renamed or removed is locked for writing, if there is one.
On failure only the ticket is left. -/
def lockWnode (nodeid : Nat) (name : Option CString) (ticket : Nat) (f : Fuse) :
    Option (Except Unit (Option Nat) × Fuse) :=
  if ticket = 0 then none
  else do
    let name ← name
    match ← lookupNode f nodeid name with
    | none => return (.ok none, f)
    | some w =>
        let node ← f.nodes w
        if node.treelock ≠ 0 ∨ (node.ticket ≠ 0 ∧ node.ticket ≠ ticket) then
          return (.error (), if node.ticket = 0 then f.put w (some { node with ticket := ticket })
            else f)
        else
          return (.ok (some w), f.put w (some { node with treelock := -1, ticket := 0 }))

/-- The end of a failed attempt. -/
def pathError {α : Type} (nodeid : Nat) (wnode : Option Nat) (ticket : Nat) (err : Int)
    (f : Fuse) : Option (Except Int α × Fuse) :=
  if ticket ≠ 0 ∧ err ≠ -EAGAIN then do
    let f ← releaseTickets nodeid wnode ticket f
    return (.error err, f)
  else some (.error err, f)

/-- The first part of `try_get_path`: what is spelled before the loop. -/
def startPath (room : Nat -> Option (Nat -> Byte)) (name : Option CString) :
    Option (Option PathBuffer) :=
  match room 256 with
  | none => some none
  | some junk =>
      match name with
      | none => some (some (newPath junk))
      | some name => addName room (newPath junk) name

/-- The rest of `try_get_path`, once the node that is going to be changed is locked. -/
def climbPath (room : Nat -> Option (Nat -> Byte)) (nodeid : Nat) (wnode : Option Nat)
    (ticket : Nat) (b : PathBuffer) (f : Fuse) :
    Option (Except Int (CString × Option Nat) × Fuse) := do
  let id ← getNode f nodeid
  let (climbed, f) ← climb room ticket (f.depth + 1) id b f
  match climbed with
  | .ok b =>
      let path ← pathString b
      return (.ok (path, wnode), f)
  | .error (err, stop) =>
      let f ← if ticket ≠ 0 then unlockPath nodeid wnode (some stop) ticket f else some f
      pathError nodeid wnode ticket err f

/-- `wr` says that the caller wants the last node to be locked for writing. -/
def tryGetPath (room : Nat -> Option (Nat -> Byte)) (nodeid : Nat) (name : Option CString)
    (wr : Bool) (ticket : Nat) (f : Fuse) :
    Option (Except Int (CString × Option Nat) × Fuse) := do
  match ← startPath room name with
  | none => pathError nodeid none ticket (-ENOMEM) f
  | some b =>
      let (locked, f) ← if wr then lockWnode nodeid name ticket f else some (.ok none, f)
      match locked with
      | .error _ => pathError nodeid none ticket (-EAGAIN) f
      | .ok wnode => climbPath room nodeid wnode ticket b f

/-- A request has a new ticket at its first attempt and keeps it. -/
def ticketFor (retry : Option Nat) (f : Fuse) : Nat × Fuse :=
  match retry with
  | none => getTicket f
  | some ticket => (ticket, f)

end ShadowFs.Libfuse

import ShadowFs.Callbacks.Specs
import ShadowFs.Library.Run

/-!
# The mounted file system

`sh_oper` as one step function: a request, the environment it is served in and
the process state give a reply and the next state.  A mounted file system is a
run of this function over any list of requests.

`serve_effect` is the inversion lemma of the step function.  It says everything
a request can do to the list of users; the invariants of the following modules
are derived from it.
-/

namespace ShadowFs

open CLib UserRep

inductive Request where
  | getattr (path : Path)
  | readdir (path : Path)
  | openFile (path : Path)
  | read (path : Path) (stack : Nat -> Byte) (buf : List Byte) (size offset : Nat)
  | write (path : Path) (buf : CBuffer) (size offset : Nat)
  | truncate (path : Path) (size : Nat)
  | mkdir (path : Path)
  | rmdir (path : Path)
  | rename (source target : Path)
  | mknod (path : Path)
  | unlink (path : Path)

/-- The return value of a callback and what it filled in. -/
structure Reply where
  result : Int
  stat : Stat := Stat.zero
  names : List CString := []
  data : List Byte := []

section Serve

variable {ρ : Type} [UserRep ρ]

def serve (env : Env ρ) (p : Process ρ) : Request -> Except Fault (Reply × Process ρ)
  | .getattr path =>
      let res := shGetattr p path
      .ok ({ result := res.1, stat := res.2 }, p)
  | .readdir path =>
      let res := shReaddir p path
      .ok ({ result := res.1, names := res.2 }, p)
  | .openFile path => .ok ({ result := shOpen path }, p)
  | .read path stack buf size offset =>
      let res := shRead p stack path buf size offset
      .ok ({ result := res.1.1, data := res.1.2 }, res.2)
  | .write path buf size _ =>
      let res := shWrite env p.root path buf size
      .ok ({ result := res.1 }, { p with root := res.2 })
  | .truncate path size => .ok ({ result := shTruncate path size }, p)
  | .mkdir path =>
      let res := shMkdir env p.root path
      .ok ({ result := res.1 }, { p with root := res.2 })
  | .rmdir path =>
      match shRmdir p.root path with
      | .error fault => .error fault
      | .ok res => .ok ({ result := res.1 }, { p with root := res.2 })
  | .rename source target =>
      let res := shRename p.root source target
      .ok ({ result := res.1 }, { p with root := res.2 })
  | .mknod path =>
      match shMknod env p.root path with
      | .error fault => .error fault
      | .ok res => .ok ({ result := res.1 }, { p with root := res.2 })
  | .unlink path =>
      let res := shUnlink env p.root path
      .ok ({ result := res.1 }, { p with root := res.2 })

/-- One step of a run: a request together with its environment. -/
def serveStep (call : Env ρ × Request) (p : Process ρ) : Except Fault (Process ρ) :=
  match serve call.1 p call.2 with
  | .error fault => .error fault
  | .ok res => .ok res.2

def serveAll (calls : List (Env ρ × Request)) (p : Process ρ) :
    Except Fault (Process ρ) :=
  Library.run serveStep calls p

theorem serveStep_ok {call : Env ρ × Request} {p p' : Process ρ}
    (h : serveStep call p = .ok p') :
    exists reply, serve call.1 p call.2 = .ok (reply, p') := by
  unfold serveStep at h
  cases hserve : serve call.1 p call.2 with
  | error fault =>
      rw [hserve] at h
      cases h
  | ok res =>
      rw [hserve] at h
      cases h
      exact ⟨res.1, rfl⟩

/-!
## What a request can do to the users
-/

/-- The result and the edit of an attribute operation addressed to `name`. -/
inductive AttrEdit (env : Env ρ) (name : CString) :
    Request -> Int -> (ρ -> ρ) -> Prop where
  | write {path : Path} {buf : CBuffer} {size offset : Nat} :
      path.name = name ->
      AttrEdit env name (.write path buf size offset) (toInt size)
        (writeEdit env (attrOf (attrText name)) buf)
  | unlink {path : Path} :
      path.name = name ->
      AttrEdit env name (.unlink path) 0 (unlinkEdit env (attrOf (attrText name)))
  | mknod {path : Path} :
      path.name = name ->
      AttrEdit env name (.mknod path) 0 (setReserved (some (attrText name)))

/-- The requests that look at the users without changing them. -/
def Request.IsQuery : Request -> Prop
  | .getattr _ | .readdir _ | .openFile _ | .read .. | .truncate .. => True
  | _ => False

/-- A write to a `reserved` file.  What it stores is a pointer into the buffer that the next
request is read into, so the text of the record is the one of this request only until then. -/
def Request.WritesReserved : Request -> Prop
  | .write path _ _ _ => attrOf (attrText path.name) = some .reserved
  | _ => False

/-- The effect of a request with the given result on the list of users. -/
inductive Effect (env : Env ρ) (sf : List ρ) : Request -> Int -> List ρ -> Prop where
  | query {req : Request} {result : Int} : req.IsQuery -> Effect env sf req result sf
  | refused {req : Request} {result : Int} : result < 0 -> Effect env sf req result sf
  | append {path : Path} {block : ρ} :
      env.block = some block -> findUser sf path.name = Option.none ->
      path.name.length ≤ 16 ->
      Effect env sf (.mkdir path) 0 (sf ++ [initUser env path.name block])
  | remove {path : Path} {front back : List ρ} {u : ρ} :
      FirstMatch sf path.name front u back ->
      Effect env sf (.rmdir path) 0 (front ++ back)
  | rename {source target : Path} {front back : List ρ} {u : ρ} :
      FirstMatch sf source.name front u back ->
      Effect env sf (.rename source target) 0
        (front ++ strcpyUsername target.name u :: back)
  | edit {req : Request} {result : Int} {name : CString} {assign : ρ -> ρ}
      {front back : List ρ} {u : ρ} :
      AttrEdit env name req result assign -> Reaches sf name ->
      FirstMatch sf (headName name) front u back ->
      Effect env sf req result (front ++ assign u :: back)

theorem AttrEdit.terminated {env : Env ρ} {name : CString} {req : Request}
    {result : Int} {assign : ρ -> ρ} (h : AttrEdit env name req result assign) {u : ρ}
    (hu : terminated u) : terminated (assign u) := by
  cases h with
  | write _ => exact terminated_writeEdit env _ _ hu
  | unlink _ => exact terminated_unlinkEdit env _ hu
  | mknod _ => exact terminated_setReserved _ u hu

theorem AttrEdit.username_eq {env : Env ρ} {name : CString} {req : Request}
    {result : Int} {assign : ρ -> ρ} (h : AttrEdit env name req result assign) {u : ρ}
    (hu : UserRep.terminated u) : username (assign u) = username u := by
  cases h with
  | write _ => exact username_writeEdit env _ _ hu
  | unlink _ => exact username_unlinkEdit env _ hu
  | mknod _ => exact username_setReserved _ u hu

/-- Every served request has one of the effects above. -/
theorem serve_effect {env : Env ρ} {p p' : Process ρ} {req : Request} {reply : Reply}
    (hterm : forall u, u ∈ p.root -> terminated u)
    (h : serve env p req = .ok (reply, p')) :
    Effect env p.root req reply.result p'.root := by
  cases req with
  | getattr path =>
      cases h
      exact Effect.query trivial
  | readdir path =>
      cases h
      exact Effect.query trivial
  | openFile path =>
      cases h
      exact Effect.query trivial
  | truncate path size =>
      cases h
      exact Effect.query trivial
  | read path stack buf size offset =>
      cases h
      rw [shRead_root]
      exact Effect.query trivial
  | write path buf size offset =>
      cases h
      by_cases hreach : Reaches p.root path.name
      · rcases hreach.exists_firstMatch with ⟨front, u, back, hm⟩
        have hattr := hm.writeAttr_eq (hterm u hm.mem) env
          (attrOf (attrText path.name)) buf
        rw [shWrite_of_reaches hreach, hattr]
        exact Effect.edit (AttrEdit.write rfl) hreach hm
      · rw [shWrite_of_not_reaches hreach]
        exact Effect.refused (show -ENOENT < 0 by decide)
  | mkdir path =>
      cases h
      rcases shMkdir_cases env p.root path with hfail | hnew
      · rw [hfail]
        exact Effect.refused (show -EEXIST < 0 by decide)
      · rcases hnew with ⟨u, hblock, hnone, hlen, hadd⟩
        rw [hadd]
        exact Effect.append hblock hnone hlen
  | rmdir path =>
      rw [serve] at h
      rcases findUser_cases p.root path.name with hnone | ⟨front, u, back, hm⟩
      · rw [shRmdir_of_none hnone] at h
        cases h
        exact Effect.refused (show -ENOENT < 0 by decide)
      · rw [hm.shRmdir_eq] at h
        cases h
        exact Effect.remove hm
  | rename source target =>
      cases h
      rcases findUser_cases p.root source.name with hnone | ⟨front, u, back, hm⟩
      · rw [shRename_of_none hnone]
        exact Effect.refused (show -EACCES < 0 by decide)
      · rw [hm.shRename_eq]
        exact Effect.rename hm
  | mknod path =>
      rw [serve] at h
      by_cases hreach : Reaches p.root path.name
      · rcases hreach.exists_firstMatch with ⟨front, u, back, hm⟩
        cases hmknod : shMknod env p.root path with
        | error fault =>
            rw [hmknod] at h
            cases h
        | ok res =>
            rw [hmknod] at h
            cases h
            rw [(shMknod_ok_of_reaches hreach hm hmknod).2]
            exact Effect.edit (AttrEdit.mknod rfl) hreach hm
      · rcases shMknod_of_not_reaches hreach env with ⟨code, hneg, hmknod⟩
        rw [hmknod] at h
        cases h
        exact Effect.refused hneg
  | unlink path =>
      cases h
      by_cases hreach : Reaches p.root path.name
      · rcases hreach.exists_firstMatch with ⟨front, u, back, hm⟩
        rw [shUnlink_of_reaches hreach, hm.unlinkAttr_eq]
        exact Effect.edit (AttrEdit.unlink rfl) hreach hm
      · rw [shUnlink_of_not_reaches hreach]
        exact Effect.refused (show -ENOENT < 0 by decide)

theorem serveStep_effect {call : Env ρ × Request} {p p' : Process ρ}
    (hterm : forall u, u ∈ p.root -> terminated u) (h : serveStep call p = .ok p') :
    exists result, Effect call.1 p.root call.2 result p'.root := by
  rcases serveStep_ok h with ⟨reply, hserve⟩
  exact ⟨reply.result, serve_effect hterm hserve⟩

/-!
## What a request can do to the files
-/

/-- The requests that call `sf_deparse`. -/
def Request.Flushes : Request -> Prop
  | .read path _ _ _ _ => path.name = CString.lit "sh_file"
  | _ => False

theorem serveStep_rmdir_ok {env : Env ρ} {path : Path} {p p' : Process ρ}
    (h : serveStep (env, .rmdir path) p = .ok p') :
    exists res, shRmdir p.root path = .ok res ∧ p' = { p with root := res.2 } := by
  rw [serveStep, serve] at h
  cases hres : shRmdir p.root path with
  | error fault =>
      rw [hres] at h
      cases h
  | ok res =>
      rw [hres] at h
      cases h
      exact ⟨res, rfl, rfl⟩

theorem serveStep_mknod_ok {env : Env ρ} {path : Path} {p p' : Process ρ}
    (h : serveStep (env, .mknod path) p = .ok p') :
    exists res, shMknod env p.root path = .ok res ∧ p' = { p with root := res.2 } := by
  rw [serveStep, serve] at h
  cases hres : shMknod env p.root path with
  | error fault =>
      rw [hres] at h
      cases h
  | ok res =>
      rw [hres] at h
      cases h
      exact ⟨res, rfl, rfl⟩

/-- A request writes the backing file or changes the users, and nothing else. -/
theorem serveStep_process {call : Env ρ × Request} {p p' : Process ρ}
    (h : serveStep call p = .ok p') :
    (call.2.Flushes ∧ p' = p.flush) ∨
      (¬ call.2.Flushes ∧ p' = { p with root := p'.root }) := by
  rcases call with ⟨env, req⟩
  cases req with
  | read path stack buf size offset =>
      cases h
      rw [shRead_process]
      by_cases hpath : path.name = CString.lit "sh_file"
      · rw [if_pos hpath]
        exact Or.inl ⟨hpath, rfl⟩
      · rw [if_neg hpath]
        exact Or.inr ⟨hpath, rfl⟩
  | rmdir path =>
      rcases serveStep_rmdir_ok h with ⟨res, _, hnext⟩
      rw [hnext]
      exact Or.inr ⟨id, rfl⟩
  | mknod path =>
      rcases serveStep_mknod_ok h with ⟨res, _, hnext⟩
      rw [hnext]
      exact Or.inr ⟨id, rfl⟩
  | _ =>
      cases h
      exact Or.inr ⟨id, rfl⟩

end Serve

end ShadowFs

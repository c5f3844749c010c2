import ShadowFs.Library.OrderedMap
import ShadowFs.System.Requests
import ShadowFs.Tree.Pointers

/-!
# The user list as an insertion-ordered map

The abstract store is a map from names to records that remembers the order of
insertion.  `MapStep` says what the requests that create, remove and edit users
are meant to do to it.  Starting from distinct names, every run of these requests
follows the abstract store: the list is the graph of the map at every step, and
the results are those of the map.

`update_reserved` stores a pointer, and the bytes behind it are not the list's own:
a write stores an address in the buffer the next request is read into.  The records
of the map therefore hold the address, and the memory may read differently at each
request of the run.
-/

namespace ShadowFs

open CLib UserRep Library

section UserMap

variable {ρ : Type} [UserRep ρ]

abbrev UserMap (ρ : Type) := OrderedMap CString ρ

structure IsDefault (env : Env ρ) (name : CString) (u : ρ) : Prop where
  username : username u = name
  hash : hash u = CString.lit "*"
  dsc : day .dsc u = shadowTime env.time
  dcc : day .dcc u = 0
  dmc : day .dmc u = 99999
  dw : day .dw u = 7
  de : day .de u = 0
  dd : day .dd u = 0
  reserved : reserved u = none

/-- The map leads through the name in front to a user. -/
def Resolves (m : UserMap ρ) (name : CString) : Prop :=
  m.lookup name = none ∧ name.bytes ≠ [] ∧ m.lookup (headName name) ≠ none

/-- The operations on attribute files, with the name of their path. -/
inductive AttrRequest (name : CString) : Request -> Prop where
  | write {path : Path} {buf : CBuffer} {size offset : Nat} :
      path.name = name -> AttrRequest name (.write path buf size offset)
  | unlink {path : Path} : path.name = name -> AttrRequest name (.unlink path)
  | mknod {path : Path} : path.name = name -> AttrRequest name (.mknod path)

/-- The abstract store: results and effects of the requests. -/
inductive MapStep (env : Env ρ) (m : UserMap ρ) : Request -> Int -> UserMap ρ -> Prop where
  | mkdirNew {path : Path} {u : ρ} (h : m.lookup path.name = none) :
      IsDefault env path.name u ->
      MapStep env m (.mkdir path) 0 (m.insertLast path.name u h)
  | mkdirPresent {path : Path} :
      m.lookup path.name ≠ none -> MapStep env m (.mkdir path) (-EEXIST) m
  | rmdirPresent {path : Path} :
      m.lookup path.name ≠ none -> MapStep env m (.rmdir path) 0 (m.erase path.name)
  | rmdirAbsent {path : Path} :
      m.lookup path.name = none -> MapStep env m (.rmdir path) (-ENOENT) m
  | edit {req : Request} {result : Int} {name : CString} {assign : ρ -> ρ} :
      AttrEdit env name req result assign -> Resolves m name ->
      MapStep env m req result (m.modify (headName name) assign)
  | refused {req : Request} {result : Int} {name : CString} :
      AttrRequest name req -> ¬ Resolves m name -> result < 0 ->
      MapStep env m req result m

/-- The list is the graph of the map, in insertion order. -/
def Graphs (sf : List ρ) (m : UserMap ρ) : Prop :=
  m.graph = sf.map (fun u => (username u, u))

/-- The requests of the run: names that fit, and allocations that succeed. -/
def MapCall (call : Env ρ × Request) : Prop :=
  match call.2 with
  | .mkdir path => path.name.length ≤ usernameCapacity ∧ call.1.block ≠ none
  | .rmdir _ | .write .. | .unlink _ => True
  | .mknod path => GetsBuffer call.1 path.name
  | _ => False

/-!
## Looking up
-/

theorem Graphs.split {sf front back : List ρ} {m : UserMap ρ} {name : CString} {u : ρ}
    (h : Graphs sf m) (hm : FirstMatch sf name front u back) :
    m.graph = front.map (fun u => (username u, u)) ++
      (name, u) :: back.map (fun u => (username u, u)) := by
  rw [h, hm.split, List.map_append, List.map_cons, hm.found]

theorem Graphs.lookup_eq {sf : List ρ} {m : UserMap ρ} (h : Graphs sf m)
    (name : CString) : m.lookup name = findRecord sf name := by
  rcases OrderedMap.graph_eq_iff.mp h with ⟨hkeys, hlookup⟩
  rcases findUser_cases sf name with hnone | ⟨front, u, back, hm⟩
  · have hnot : name ∉ m.keys := by
      rw [hkeys]
      intro hmem
      rcases List.mem_map.mp hmem with ⟨e, he, hname⟩
      rcases List.mem_map.mp he with ⟨u, hu, rfl⟩
      exact findUser_eq_none_iff.mp hnone u hu hname
    rw [m.mem_keys, not_not] at hnot
    rw [hnot, findRecord_of_none hnone]
  · have hmem : (username u, u) ∈ sf.map (fun u => (username u, u)) :=
      List.mem_map_of_mem (f := fun u => (username u, u)) hm.mem
    rw [hm.findRecord_eq, ← hm.found]
    exact hlookup _ hmem

theorem Graphs.lookup_eq_none_iff {sf : List ρ} {m : UserMap ρ} (h : Graphs sf m)
    (name : CString) : m.lookup name = none <-> findUser sf name = none := by
  rw [h.lookup_eq]
  constructor
  · intro hrecord
    by_contra hfound
    rcases findUser_ne_none_iff_findRecord.mp hfound with ⟨u, hu⟩
    rw [hrecord] at hu
    cases hu
  · exact findRecord_of_none

theorem Graphs.resolves_iff {sf : List ρ} {m : UserMap ρ} (h : Graphs sf m)
    (name : CString) : Resolves m name <-> Reaches sf name := by
  simp only [Resolves, Reaches, Ne, h.lookup_eq_none_iff]

theorem exists_graphs {sf : List ρ} (h : (sf.map username).Nodup) :
    exists m : UserMap ρ, Graphs sf m := by
  apply OrderedMap.exists_graph_eq
  rw [List.map_map]
  exact h

/-!
## One step
-/

theorem isDefault_initUser (env : Env ρ) {name : CString} (u : ρ)
    (hlen : name.length ≤ usernameCapacity) : IsDefault env name (initUser env name u) := by
  constructor
  · exact username_initUser env u hlen
  · exact hash_initUser env u
  all_goals simp [initUser, day_setReserved, day_setDay_self, day_setDay_of_ne,
    reserved_setReserved_none]

/-- The list and the map belong together. -/
structure Tracks (p : Process ρ) (m : UserMap ρ) : Prop where
  terminated : forall u, u ∈ p.root -> terminated u
  graphs : Graphs p.root m

theorem Tracks.edit {p : Process ρ} {m : UserMap ρ} (h : Tracks p m) {env : Env ρ}
    {req : Request} {result : Int} {name : CString} {assign : ρ -> ρ}
    (hedit : AttrEdit env name req result assign) {front back : List ρ} {u : ρ}
    (hm : FirstMatch p.root (headName name) front u back) :
    Tracks { p with root := front ++ assign u :: back } (m.modify (headName name) assign) := by
  have hu := h.terminated u hm.mem
  constructor
  · have hall := h.terminated
    rw [hm.split] at hall
    exact forall_mem_replace hall (hedit.terminated hu)
  · rw [Graphs, OrderedMap.graph_modify (h.graphs.split hm), List.map_append, List.map_cons,
      hedit.username_eq hu, hm.found]

theorem Tracks.attr_step {p : Process ρ} {m : UserMap ρ} (h : Tracks p m) {env : Env ρ}
    {req : Request} {name : CString} (hreq : AttrRequest name req)
    (hrefused : ¬ Reaches p.root name ->
      exists reply : Reply, reply.result < 0 ∧ serve env p req = .ok (reply, p))
    (hserved : forall front u back, Reaches p.root name ->
      FirstMatch p.root (headName name) front u back ->
      exists (reply : Reply) (assign : ρ -> ρ),
        AttrEdit env name req reply.result assign ∧
        serve env p req = .ok (reply, { p with root := front ++ assign u :: back })) :
    exists reply p' m', serve env p req = .ok (reply, p') ∧
      MapStep env m req reply.result m' ∧ Tracks p' m' := by
  by_cases hreach : Reaches p.root name
  · rcases hreach.exists_firstMatch with ⟨front, u, back, hm⟩
    rcases hserved front u back hreach hm with ⟨reply, assign, hedit, hserve⟩
    exact ⟨reply, _, _, hserve,
      MapStep.edit hedit ((h.graphs.resolves_iff name).mpr hreach), h.edit hedit hm⟩
  · rcases hrefused hreach with ⟨reply, hneg, hserve⟩
    refine ⟨reply, p, m, hserve, MapStep.refused hreq ?_ hneg, h⟩
    rw [h.graphs.resolves_iff]
    exact hreach

theorem Tracks.step {env : Env ρ} {p : Process ρ} {m : UserMap ρ} (h : Tracks p m)
    {req : Request} (hcall : MapCall (env, req)) :
    exists reply p' m', serve env p req = .ok (reply, p') ∧
      MapStep env m req reply.result m' ∧ Tracks p' m' := by
  cases req with
  | mkdir path =>
      rcases hcall with ⟨hlen, hblock⟩
      have hname : path.strAt 1 = path.name := rfl
      by_cases hnone : findUser p.root path.name = none
      · have hlookup := (h.graphs.lookup_eq_none_iff path.name).mpr hnone
        cases hb : env.block with
        | none => exact absurd hb hblock
        | some block =>
            have hadd := sfTreeAddUser_of_new hnone hb (Nat.le_succ_of_le hlen)
            refine ⟨{ result := 0 }, { p with root := p.root ++ [initUser env path.name block] },
              _, ?_, MapStep.mkdirNew hlookup (isDefault_initUser env block hlen), ?_, ?_⟩
            · simp [serve, shMkdir, hname, hadd]
            · exact forall_mem_append_singleton h.terminated
                (terminated_initUser env block hlen)
            · rw [Graphs, OrderedMap.graph_insertLast, h.graphs, List.map_append,
                List.map_singleton, username_initUser env block hlen]
      · refine ⟨{ result := -EEXIST }, p, m, ?_, MapStep.mkdirPresent ?_, h⟩
        · simp [serve, shMkdir, hname, sfTreeAddUser_of_found env hnone]
        · rw [Ne, h.graphs.lookup_eq_none_iff]
          exact hnone
  | rmdir path =>
      rcases findUser_cases p.root path.name with hnone | ⟨front, u, back, hm⟩
      · refine ⟨{ result := -ENOENT }, p, m, ?_, MapStep.rmdirAbsent ?_, h⟩
        · simp [serve, shRmdir_of_none hnone]
        · exact (h.graphs.lookup_eq_none_iff path.name).mpr hnone
      · refine ⟨{ result := 0 }, { p with root := front ++ back }, m.erase path.name, ?_,
          MapStep.rmdirPresent ?_, ?_, ?_⟩
        · simp [serve, hm.shRmdir_eq]
        · rw [Ne, h.graphs.lookup_eq_none_iff]
          exact hm.ne_none
        · have hall := h.terminated
          rw [hm.split] at hall
          exact forall_mem_remove hall
        · rw [Graphs, OrderedMap.graph_erase (h.graphs.split hm), List.map_append]
  | write path buf size offset =>
      apply h.attr_step (AttrRequest.write rfl)
      · intro hnot
        exact ⟨{ result := -ENOENT }, by decide, by
          simp [serve, shWrite_of_not_reaches hnot]⟩
      · intro front u back hreach hm
        refine ⟨{ result := toInt size }, _, AttrEdit.write rfl, ?_⟩
        simp [serve, shWrite_of_reaches hreach, hm.writeAttr_eq (h.terminated u hm.mem)]
  | unlink path =>
      apply h.attr_step (AttrRequest.unlink rfl)
      · intro hnot
        exact ⟨{ result := -ENOENT }, by decide, by
          simp [serve, shUnlink_of_not_reaches hnot]⟩
      · intro front u back hreach hm
        refine ⟨{ result := 0 }, _, AttrEdit.unlink rfl, ?_⟩
        simp [serve, shUnlink_of_reaches hreach, hm.unlinkAttr_eq]
  | mknod path =>
      have hbuffer : GetsBuffer env path.name := hcall
      apply h.attr_step (AttrRequest.mknod rfl)
      · intro hnot
        rcases shMknod_of_not_reaches hnot env with ⟨code, hneg, hmknod⟩
        exact ⟨{ result := code }, hneg, by simp [serve, hmknod]⟩
      · intro front u back hreach hm
        refine ⟨{ result := 0 }, _, AttrEdit.mknod rfl, ?_⟩
        simp [serve, shMknod_of_getsBuffer hreach hm hbuffer]
  | _ => exact hcall.elim

/-- Removal is only entered with the name present, so it never meets an empty list
and never gives up; and the linked structure behind the list follows it. -/
structure Sound (sf : List ρ) : Prop where
  delete : forall path : Path, findUser sf (path.strAt 1) ≠ none ->
    sf ≠ [] ∧ exists sf', sfTreeDeleteUser sf (path.strAt 1) = .ok (0, sf')
  linked : forall root : SfRoot ρ, root.Represents sf -> root.Simulates sf

theorem sound (sf : List ρ) : Sound sf where
  delete := by
    intro path hfound
    rcases exists_firstMatch hfound with ⟨front, u, back, hm⟩
    refine ⟨List.ne_nil_of_mem hm.mem, front ++ back, ?_⟩
    exact hm.sfTreeDeleteUser_eq
  linked := fun _ h => h.simulates

end UserMap

/-!
## Records that hold a pointer
-/

/-- A record whose `reserved` is the address itself; the one of `record` is not used. -/
structure Held (ρ : Type) where
  record : ρ
  reserved : Option Nat

/-- The memory a request finds, and the address of the text it may store: of the block
it allocates, or of the data it carries. -/
structure View where
  memory : Nat -> CString
  address : Nat

@[reducible]
def View.rep {ρ : Type} [UserRep ρ] (view : View) : UserRep (Held ρ) where
  username u := username u.record
  hash u := hash u.record
  day d u := day d u.record
  reserved u := u.reserved.map view.memory
  strcpyUsername n u := { u with record := strcpyUsername n u.record }
  strcpyHash h u := { u with record := strcpyHash h u.record }
  setDay d v u := { u with record := setDay d v u.record }
  setReserved r u := { u with reserved := r.map (fun _ => view.address) }
  terminated u := terminated u.record
  terminated_strcpyUsername n u := terminated_strcpyUsername n u.record
  terminated_strcpyHash h u := terminated_strcpyHash h u.record
  terminated_setDay d v u := terminated_setDay d v u.record
  terminated_setReserved _ _ hu := hu
  username_strcpyUsername n u := username_strcpyUsername n u.record
  username_strcpyHash h u := username_strcpyHash h u.record
  username_setDay d v u := username_setDay d v u.record
  username_setReserved _ _ _ := rfl
  hash_strcpyHash h u := hash_strcpyHash h u.record
  hash_setDay d v u := hash_setDay d v u.record
  hash_setReserved _ _ := rfl
  day_setDay_self d v u := day_setDay_self d v u.record
  day_setDay_of_ne d e v u := day_setDay_of_ne d e v u.record
  day_setReserved _ _ _ := rfl
  reserved_strcpyUsername _ _ _ := rfl
  reserved_strcpyHash _ _ _ := rfl
  reserved_setDay _ _ _ := rfl
  reserved_setReserved_none _ := rfl
  reserved_setReserved_some_ne_none _ _ := Option.some_ne_none _

/-!
## Whole runs
-/

section HeldRuns

variable {ρ : Type} [UserRep ρ]

/-- A request, the environment it is served in, and the memory it finds. -/
structure HeldCall (ρ : Type) where
  env : Env (Held ρ)
  view : View
  request : Request

/-- One step of a run over records that hold the pointer. -/
def HeldCall.serve (call : HeldCall ρ) (p : Process (Held ρ)) :
    Except Fault (Reply × Process (Held ρ)) :=
  @ShadowFs.serve (Held ρ) call.view.rep call.env p call.request

/-- The step of the map, for what the memory reads at the request. -/
def HeldCall.MapStep (call : HeldCall ρ) (reply : Reply) (m m' : UserMap (Held ρ)) : Prop :=
  @ShadowFs.MapStep (Held ρ) call.view.rep call.env m call.request reply.result m'

/-- Whatever the memory reads, the list is the graph of the map, and sound. -/
def HeldGraphs (sf : List (Held ρ)) (m : UserMap (Held ρ)) : Prop :=
  forall view : View,
    @Graphs (Held ρ) view.rep sf m ∧ @Sound (Held ρ) view.rep sf

def HeldTracks (p : Process (Held ρ)) (m : UserMap (Held ρ)) : Prop :=
  forall view : View, @Tracks (Held ρ) view.rep p m

/-- No field the relation looks at is behind a pointer. -/
theorem HeldTracks.of_view {p : Process (Held ρ)} {m : UserMap (Held ρ)} (view : View)
    (h : @Tracks (Held ρ) view.rep p m) : HeldTracks p m := by
  intro other
  exact @Tracks.mk (Held ρ) other.rep p m
    (@Tracks.terminated (Held ρ) view.rep p m h) (@Tracks.graphs (Held ρ) view.rep p m h)

theorem HeldTracks.step {call : HeldCall ρ} {p : Process (Held ρ)} {m : UserMap (Held ρ)}
    (h : HeldTracks p m) (hcall : MapCall (call.env, call.request)) :
    exists reply p' m', call.serve p = .ok (reply, p') ∧
      call.MapStep reply m m' ∧ HeldTracks p' m' := by
  rcases @Tracks.step (Held ρ) call.view.rep call.env p m (h call.view) call.request hcall with
    ⟨reply, p', m', hserve, hmap, htracks⟩
  exact ⟨reply, p', m', hserve, hmap, HeldTracks.of_view call.view htracks⟩

/-- From distinct names, every run of creations, removals and attribute operations
returns and follows the map; at every step the list is the graph of the map. -/
theorem serve_follows_map (calls : List (HeldCall ρ)) (p : Process (Held ρ))
    (hterm : forall u, u ∈ p.root -> terminated u.record)
    (hnodup : (p.root.map (fun u => username u.record)).Nodup)
    (hcalls : forall call, call ∈ calls -> MapCall (call.env, call.request)) :
    exists m : UserMap (Held ρ), HeldGraphs p.root m ∧
      Matched HeldCall.serve HeldCall.MapStep (fun p m => HeldGraphs p.root m) calls p m := by
  have hgraphs : forall {p : Process (Held ρ)} {m : UserMap (Held ρ)},
      HeldTracks p m -> HeldGraphs p.root m := by
    intro p m htracks view
    exact ⟨@Tracks.graphs (Held ρ) view.rep p m (htracks view), @sound (Held ρ) view.rep p.root⟩
  have start : View := { memory := fun _ => CString.lit "", address := 0 }
  rcases @exists_graphs (Held ρ) start.rep p.root hnodup with ⟨m, hm⟩
  have htracks : HeldTracks p m :=
    HeldTracks.of_view start (@Tracks.mk (Held ρ) start.rep p m hterm hm)
  refine ⟨m, hgraphs htracks, matched_of_step (I := HeldTracks) ?_ ?_ calls p m hcalls htracks⟩
  · intro call p m hcall htracks
    exact htracks.step hcall
  · intro p m htracks
    exact hgraphs htracks

end HeldRuns

def heldBin : Held User :=
  { record := binUser, reserved := none }

def heldProcess : Process (Held User) :=
  { plainProcess [] with root := [heldBin] }

/-- A request that finds every text to read as the one it carries in its buffer. -/
def heldCall (text : String) (request : Request) : HeldCall User :=
  { env := { time := 0, block := some heldBin, buffer := true }
    view := { memory := fun _ => CString.lit text, address := 4096 }
    request := request }

/-- A user is added, edited and removed, and added twice; the text written to `reserved`
has changed by the request after it. -/
def mapCalls : List (HeldCall User) :=
  [heldCall "" (.mkdir (Path.of (CString.lit "sys") [])),
    heldCall "" (.mknod (Path.of (CString.lit "sys/note") [])),
    heldCall "one" (.write (Path.of (CString.lit "sys/note") [])
      (CBuffer.ofCString (CString.lit "one") []) 3 0),
    heldCall "7" (.write (Path.of (CString.lit "sys/days_before_warning") [])
      (CBuffer.ofCString (CString.lit "7") []) 1 0),
    heldCall "" (.mkdir (Path.of (CString.lit "sys") [])),
    heldCall "" (.unlink (Path.of (CString.lit "sys/note") [])),
    heldCall "" (.rmdir (Path.of (CString.lit "bin") []))]

theorem serve_follows_map_binUser :
    exists m : UserMap (Held User), HeldGraphs [heldBin] m ∧
      Matched HeldCall.serve HeldCall.MapStep (fun p m => HeldGraphs p.root m) mapCalls
        heldProcess m := by
  refine serve_follows_map mapCalls heldProcess ?_ ?_ ?_
  · intro u _
    exact User.rep_terminated u.record
  · exact List.nodup_singleton _
  · intro call hcall
    simp only [mapCalls, List.mem_cons, List.not_mem_nil, or_false] at hcall
    rcases hcall with rfl | rfl | rfl | rfl | rfl | rfl | rfl
    · exact ⟨by decide, Option.some_ne_none _⟩
    · exact ⟨rfl, by decide⟩
    · exact trivial
    · exact trivial
    · exact ⟨by decide, Option.some_ne_none _⟩
    · exact trivial
    · exact trivial

end ShadowFs

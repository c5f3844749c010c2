import Mathlib.Logic.Function.Conjugate
import ShadowFs.System.Frame

/-!
# Independent attribute operations

Writing, unlinking and `sh_mknod` each replace fields of one record by values that
do not depend on the store.  Two such operations on different records, or on
different fields of one record, can be served in either order.  A new password
also stamps `dsc`, so it does not commute with an operation on that field of the
same user.
-/

namespace ShadowFs

open CLib UserRep

/-!
## Assignments to one field
-/

inductive Assigns : (User -> User) -> Field -> Prop where
  | hash (h : CString) : Assigns (fun u => { u with hash := h }) .hash
  | day (d : DayField) (v : Int32) : Assigns (User.setDay d v) (.day d)
  | reserved (r : Option CString) : Assigns (fun u => { u with reserved := r }) .reserved

theorem User.setDay_comm {d e : DayField} (h : d ≠ e) (v w : Int32) (u : User) :
    User.setDay d v (User.setDay e w u) = User.setDay e w (User.setDay d v u) := by
  cases d <;> cases e <;> first | rfl | exact absurd rfl h

theorem Assigns.commute {f g : User -> User} {x y : Field} (hf : Assigns f x)
    (hg : Assigns g y) (h : x ≠ y) : Function.Commute f g := by
  intro u
  cases hf with
  | hash s =>
      cases hg with
      | hash t => exact absurd rfl h
      | day d v => cases d <;> rfl
      | reserved r => rfl
  | day d v =>
      cases hg with
      | hash t => cases d <;> rfl
      | day e w =>
          have hne : d ≠ e := fun heq => h (by rw [heq])
          exact User.setDay_comm hne v w u
      | reserved r => cases d <;> rfl
  | reserved r =>
      cases hg with
      | hash t => rfl
      | day d v => cases d <;> rfl
      | reserved s => exact absurd rfl h

theorem Attr.field_injective : Function.Injective Attr.field := by
  intro a b h
  cases a <;> cases b <;> first | rfl | cases h

/-!
## Addressed requests
-/

/-- The request is a write, unlink or mknod that finds the user and names the
attribute; `sh_mknod` acts on `reserved` whatever the file name. -/
def Addresses (sf : List User) (req : Request) (user : CString) (attr : Attr) : Prop :=
  match req with
  | .write path .. =>
      Reaches sf path.name ∧ headName path.name = user ∧
        attrOf (attrText path.name) = some attr
  | .unlink path =>
      Reaches sf path.name ∧ headName path.name = user ∧
        attrOf (attrText path.name) = some attr
  | .mknod path => Reaches sf path.name ∧ headName path.name = user ∧ attr = .reserved
  | _ => False

def SetsPassword (req : Request) (attr : Attr) : Prop :=
  match req with
  | .write .. => attr = .passwordHash
  | _ => False

theorem SetsPassword.passwordHash {req : Request} {attr : Attr}
    (h : SetsPassword req attr) : attr = .passwordHash := by
  cases req with
  | write path buf size offset => exact h
  | _ => exact absurd h id

/-- The one way in which operations on different attributes of a user interfere. -/
def Stamps (first second : Request) (a b : Attr) : Prop :=
  (SetsPassword first a ∧ b = .daysSinceChanged) ∨
    (SetsPassword second b ∧ a = .daysSinceChanged)

/-- Both requests, one after the other: their results and the state in the end, if none of
them faults. -/
def serveTwo (first second : Env User × Request) (p : Process User) :
    Option ((Int × Int) × Process User) :=
  match serve first.1 p first.2 with
  | .error _ => none
  | .ok (reply, p') =>
      match serve second.1 p' second.2 with
      | .error _ => none
      | .ok (reply', p'') => some ((reply.result, reply'.result), p'')

/-- What an addressed request does: it faults, whatever the store, or returns a fixed
result and edits one record. -/
structure Edits (env : Env User) (req : Request) (user : CString) (attr : Attr)
    (fault : Option Fault) (result : Int) (assign : User -> User) : Prop where
  serve_eq : forall (p : Process User) i, Addresses p.root req user attr ->
    findUser p.root user = some i ->
    serve env p req =
      match fault with
      | some fault => .error fault
      | none => .ok ({ result := result }, { p with root := p.root.modify i assign })
  username_eq : forall u, (assign u).username = u.username
  assigns : exists g, Assigns g attr.field ∧
    (assign = g ∨
      (SetsPassword req attr ∧ exists t, assign = User.setDay .dsc t ∘ g))

theorem modify_of_firstMatch {sf front back : List User} {name : CString} {u : User}
    (h : FirstMatch sf name front u back) {i : Nat} (hi : findUser sf name = some i)
    (assign : User -> User) : front ++ assign u :: back = sf.modify i assign := by
  rw [h.findUser_eq] at hi
  cases hi
  rw [h.split, modify_append_cons]

theorem assigns_writeEdit (env : Env User) (attr : Attr) (buf : CBuffer) :
    exists g, Assigns g attr.field ∧
      (writeEdit env (some attr) buf = g ∨
        (attr = .passwordHash ∧
          exists t, writeEdit env (some attr) buf = User.setDay .dsc t ∘ g)) := by
  cases attr with
  | passwordHash =>
      exact ⟨_, Assigns.hash (hashword buf.str), Or.inr ⟨rfl, shadowTime env.time, rfl⟩⟩
  | reserved => exact ⟨_, Assigns.reserved (some buf.str), Or.inl rfl⟩
  | _ => exact ⟨_, Assigns.day _ (atoi buf.str.bytes), Or.inl rfl⟩

theorem assigns_unlinkEdit (env : Env User) (attr : Attr) :
    Assigns (unlinkEdit env (some attr)) attr.field := by
  cases attr with
  | passwordHash => exact Assigns.hash (CString.lit "!")
  | daysSinceChanged => exact Assigns.day .dsc (shadowTime env.time)
  | daysUntilCanChange => exact Assigns.day .dcc 0
  | daysUntilMustChange => exact Assigns.day .dmc 99999
  | daysBeforeWarning => exact Assigns.day .dw 7
  | daysUntilExpiration => exact Assigns.day .de 0
  | daysSinceAccountDeactivated => exact Assigns.day .dd 0
  | reserved => exact Assigns.reserved none

theorem exists_edits {sf : List User} {req : Request} {user : CString} {attr : Attr}
    (env : Env User) (h : Addresses sf req user attr) :
    exists fault result assign, Edits env req user attr fault result assign := by
  cases req with
  | write path buf size offset =>
      refine ⟨none, toInt size, writeEdit env (some attr) buf, ?_, ?_, ?_⟩
      · rintro p i ⟨hreach, rfl, hattr⟩ hi
        rcases hreach.exists_firstMatch with ⟨front, u, back, hm⟩
        have hedit := hm.writeAttr_eq (User.rep_terminated u) env (some attr) buf
        rw [modify_of_firstMatch hm hi] at hedit
        simp only [serve, shWrite_of_reaches hreach, hattr, hedit]
      · intro u
        exact username_writeEdit env _ buf (User.rep_terminated u)
      · exact assigns_writeEdit env attr buf
  | unlink path =>
      refine ⟨none, 0, unlinkEdit env (some attr), ?_, ?_, ?_⟩
      · rintro p i ⟨hreach, rfl, hattr⟩ hi
        rcases hreach.exists_firstMatch with ⟨front, u, back, hm⟩
        have hedit := hm.unlinkAttr_eq env (some attr)
        rw [modify_of_firstMatch hm hi] at hedit
        simp only [serve, shUnlink_of_reaches hreach, hattr, hedit]
      · intro u
        exact username_unlinkEdit env _ (User.rep_terminated u)
      · exact ⟨_, assigns_unlinkEdit env attr, Or.inl rfl⟩
  | mknod path =>
      rcases h with ⟨_, _, rfl⟩
      refine ⟨if env.buffer then
          if (attrText path.name).length ≥ 50 then some .bufferOverflow else none
        else some .nullPointer,
        0, fun u => { u with reserved := some (attrText path.name) }, ?_, ?_, ?_⟩
      · rintro p i ⟨hreach, rfl, _⟩ hi
        rcases hreach.exists_firstMatch with ⟨front, u, back, hm⟩
        have hedit := modify_of_firstMatch hm hi
          (fun u => { u with reserved := some (attrText path.name) })
        rw [serve, shMknod_of_reaches hreach hm]
        cases hbuffer : env.buffer with
        | false => rfl
        | true =>
            simp only [if_true, User.rep_setReserved, hedit]
            by_cases hlong : (attrText path.name).length ≥ 50
            · rw [if_pos hlong, if_pos hlong]
            · rw [if_neg hlong, if_neg hlong]
      · intro u
        rfl
      · exact ⟨_, Assigns.reserved _, Or.inl rfl⟩
  | _ => exact absurd h id

/-!
## Two edits
-/

theorem findUser_modify {assign : User -> User}
    (h : forall u, (assign u).username = u.username) (sf : List User) (i : Nat)
    (name : CString) : findUser (sf.modify i assign) name = findUser sf name := by
  have hnames : forall l : List User,
      findUser l name = (l.map User.username).findIdx? (fun n => n = name) := by
    intro l
    rw [List.findIdx?_map]
    rfl
  have hmap : (sf.modify i assign).map User.username = sf.map User.username := by
    apply List.ext_getElem
    · simp
    · intro j hj _
      simp only [List.getElem_map, List.getElem_modify]
      split
      · exact h _
      · rfl
  rw [hnames, hnames, hmap]

theorem addresses_modify {assign : User -> User}
    (h : forall u, (assign u).username = u.username) {sf : List User} {req : Request}
    {user : CString} {attr : Attr} (haddr : Addresses sf req user attr) (i : Nat) :
    Addresses (sf.modify i assign) req user attr := by
  have hreach : forall name, Reaches (sf.modify i assign) name <-> Reaches sf name := by
    intro name
    unfold Reaches
    rw [findUser_modify h, findUser_modify h]
  cases req with
  | write path buf size offset => exact ⟨(hreach _).mpr haddr.1, haddr.2⟩
  | unlink path => exact ⟨(hreach _).mpr haddr.1, haddr.2⟩
  | mknod path => exact ⟨(hreach _).mpr haddr.1, haddr.2⟩
  | _ => exact absurd haddr id

theorem Addresses.exists_index {sf : List User} {req : Request} {user : CString}
    {attr : Attr} (h : Addresses sf req user attr) : exists i, findUser sf user = some i := by
  apply Option.ne_none_iff_exists'.mp
  cases req with
  | write path buf size offset =>
      rcases h with ⟨hreach, rfl, _⟩
      exact hreach.2.2
  | unlink path =>
      rcases h with ⟨hreach, rfl, _⟩
      exact hreach.2.2
  | mknod path =>
      rcases h with ⟨hreach, rfl, _⟩
      exact hreach.2.2
  | _ => exact absurd h id

/-- Edits of different attributes of one user commute unless one stamps the other. -/
theorem Edits.commute {env env' : Env User} {req req' : Request} {user : CString}
    {a b : Attr} {fault fault' : Option Fault} {result result' : Int} {f g : User -> User}
    (hf : Edits env req user a fault result f) (hg : Edits env' req' user b fault' result' g)
    (hne : a ≠ b) (hstamp : ¬ Stamps req req' a b) : Function.Commute f g := by
  have hfield : a.field ≠ b.field := fun h => hne (Attr.field_injective h)
  have hday : forall {c : Attr}, c ≠ .daysSinceChanged -> Field.day .dsc ≠ c.field := by
    intro c hc h
    exact hc (Attr.field_injective h.symm)
  rcases hf.assigns with ⟨f', hf', rfl | ⟨hpass, t, rfl⟩⟩
  · rcases hg.assigns with ⟨g', hg', rfl | ⟨hpass, t, rfl⟩⟩
    · exact hf'.commute hg' hfield
    · have ha : a ≠ .daysSinceChanged := fun ha => hstamp (Or.inr ⟨hpass, ha⟩)
      have hstamped := (Assigns.day .dsc t).commute hf' (hday ha)
      exact hstamped.symm.comp_right (hf'.commute hg' hfield)
  · have hb : b ≠ .daysSinceChanged := fun hb => hstamp (Or.inl ⟨hpass, hb⟩)
    rcases hg.assigns with ⟨g', hg', rfl | ⟨hpass', t', rfl⟩⟩
    · exact ((Assigns.day .dsc t).commute hg' (hday hb)).comp_left
        (hf'.commute hg' hfield)
    · exact absurd (hpass.passwordHash.trans hpass'.passwordHash.symm) hne

theorem eq_of_findUser {sf : List User} {u v : CString} {i : Nat}
    (hu : findUser sf u = some i) (hv : findUser sf v = some i) : u = v := by
  have hname : forall {name : CString}, findUser sf name = some i ->
      exists r, sf[i]? = some r ∧ r.username = name := by
    intro name hname
    rcases exists_firstMatch (by rw [hname]; simp) with ⟨front, r, back, hm⟩
    have hrecord := hm.findRecord_eq
    rw [findRecord, hname] at hrecord
    exact ⟨r, hrecord, hm.found⟩
  rcases hname hu with ⟨r, hr, rfl⟩
  rcases hname hv with ⟨r', hr', rfl⟩
  rw [hr] at hr'
  cases hr'
  rfl

theorem modify_comm {sf : List User} {i j : Nat} {f g : User -> User}
    (h : i = j -> Function.Commute f g) :
    (sf.modify i f).modify j g = (sf.modify j g).modify i f := by
  by_cases hij : i = j
  · subst hij
    rw [List.modify_modify_eq, List.modify_modify_eq]
    have hcomm : g ∘ f = f ∘ g := funext (fun u => ((h rfl) u).symm)
    rw [hcomm]
  · exact List.modify_modify_ne f g sf hij

/-- Requests to different attributes can be served in either order: the list of users,
the rest of the state and the two results are the same, or both orders fault.  The
exception is a new password together with an operation on `dsc` of the same user. -/
theorem serveTwo_comm (p : Process User) (first second : Env User × Request)
    (u v : CString) (a b : Attr) (hfirst : Addresses p.root first.2 u a)
    (hsecond : Addresses p.root second.2 v b) (hne : (u, a) ≠ (v, b))
    (hstamp : ¬ (u = v ∧ Stamps first.2 second.2 a b)) :
    serveTwo second first p =
      (serveTwo first second p).map (fun out => (out.1.swap, out.2)) := by
  rcases exists_edits first.1 hfirst with ⟨fault, r, f, hf⟩
  rcases exists_edits second.1 hsecond with ⟨fault', r', g, hg⟩
  rcases hfirst.exists_index with ⟨i, hi⟩
  rcases hsecond.exists_index with ⟨j, hj⟩
  have hroot : (p.root.modify i f).modify j g = (p.root.modify j g).modify i f := by
    apply modify_comm
    rintro rfl
    have huv : u = v := eq_of_findUser hi hj
    subst huv
    have hab : a ≠ b := fun h => hne (by rw [h])
    exact hf.commute hg hab (fun h => hstamp ⟨rfl, h⟩)
  have hone := hf.serve_eq p i hfirst hi
  have htwo := hg.serve_eq p j hsecond hj
  have honeAfter := hf.serve_eq { p with root := p.root.modify j g } i
    (addresses_modify hg.username_eq hfirst j) ((findUser_modify hg.username_eq _ _ _).trans hi)
  have htwoAfter := hg.serve_eq { p with root := p.root.modify i f } j
    (addresses_modify hf.username_eq hsecond i) ((findUser_modify hf.username_eq _ _ _).trans hj)
  cases fault with
  | some fault =>
      cases fault' with
      | some fault' => simp only [serveTwo, hone, htwo, Option.map_none]
      | none => simp only [serveTwo, hone, htwo, honeAfter, Option.map_none]
  | none =>
      cases fault' with
      | some fault' => simp only [serveTwo, hone, htwo, htwoAfter, Option.map_none]
      | none =>
          simp only [serveTwo, hone, htwo, honeAfter, htwoAfter, Option.map_some, hroot,
            Prod.swap_prod_mk]

def passwordCall : Env User × Request :=
  (plainEnv, .write (Path.of (CString.lit "bin/password-hash") [])
    (CBuffer.ofCString (CString.lit "secret") []) 6 0)

theorem serveTwo_comm_binUser :
    serveTwo (plainEnv, warningWrite) passwordCall (plainProcess [binUser]) =
      (serveTwo passwordCall (plainEnv, warningWrite) (plainProcess [binUser])).map
        (fun out => (out.1.swap, out.2)) := by
  refine serveTwo_comm (plainProcess [binUser]) passwordCall (plainEnv, warningWrite)
    (CString.lit "bin") (CString.lit "bin") .passwordHash .daysBeforeWarning ?_ ?_ ?_ ?_
  · exact ⟨by decide, by decide, by decide⟩
  · exact ⟨by decide, by decide, by decide⟩
  · decide
  · rintro ⟨_, ⟨_, h⟩ | ⟨h, _⟩⟩
    · cases h
    · cases h

end ShadowFs

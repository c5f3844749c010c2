import ShadowFs.Persist.RoundTrip

/-!
# Unmounting and mounting again

Loading the text of a list is not the identity: the numbers behind a blank field
move up, the text of `reserved` is read as a number and lost, and the lines of a
repeated name all go to one record.  But it settles after one turn.  Whatever was
written, the list that is loaded has one record for each name, without reserved
text and with its zeros last, and such a list comes back as it is.
-/

namespace ShadowFs

open CLib UserRep

/-- A record that goes to one line of the file and comes back from it as a record of
the same name. -/
structure Writable (u : User) : Prop where
  name : FieldText u.username
  nameFits : u.username.length ≤ 15
  hash : FieldText u.hash
  hashFits : u.hash.length ≤ 31
  reserved : forall r, u.reserved = some r ->
    r.length ≤ 100 ∧ colon ∉ r.bytes ∧ newline ∉ r.bytes

/-- A loading run whose list starts empty and whose allocations succeed. -/
structure FreshLoad (load : LoadEnv User) : Prop where
  head : load.head = []
  alloc : forall k, (load.line k).block ≠ none

def cycle (load : LoadEnv User) (sf : List User) : Except Fault (List User) :=
  initParse load (sfDeparse sf)

/-- What every load leaves behind. -/
structure Settled (sf : List User) : Prop where
  records : forall u, u ∈ sf -> Storable u ∧ ZerosLast u
  names : (sf.map User.username).Nodup

/-!
## One line
-/

theorem Writable.reservedText {u : User} (hu : Writable u) :
    (reservedText u).length ≤ 100 ∧ colon ∉ reservedText u ∧ newline ∉ reservedText u := by
  have hres := hu.reserved
  unfold ShadowFs.reservedText
  rw [User.rep_reserved]
  cases hr : u.reserved with
  | none => simp
  | some r => exact hres r hr

theorem Writable.printable {u : User} (hu : Writable u) : Printable u := by
  rcases hu.reservedText with ⟨hlen, _, hnewline⟩
  refine ⟨hu.name, hu.nameFits, hu.hash, Nat.le_succ_of_le hu.hashFits, hnewline, ?_⟩
  have hname : (username u).length ≤ 15 := hu.nameFits
  have hhash : (UserRep.hash u).length ≤ 31 := hu.hashFits
  have hline := lineBody_length_le u
  lia

theorem zerosLast_laterDays (u r : User) :
    ZerosLast
      { r with dmc := (laterDays u).getD 0 0, dw := (laterDays u).getD 1 0,
               de := (laterDays u).getD 2 0, dd := (laterDays u).getD 3 0 } := by
  unfold laterDays
  generalize atoi (reservedText u ++ [newline]) = a
  by_cases h1 : u.dmc = 0 <;> by_cases h2 : u.dw = 0 <;> by_cases h3 : u.de = 0 <;>
    by_cases h4 : u.dd = 0 <;>
    simp [ZerosLast, h1, h2, h3, h4]

/-- The record a line leaves, built on a new record or on the one that was there. -/
theorem Writable.storable {u r : User} (hu : Writable u) (hname : r.username = u.username)
    (hres : r.reserved = none) :
    Storable (setDays (intsFrom 6 (dayText u ++ [newline])) (strcpyHash u.hash r)) ∧
      ZerosLast (setDays (intsFrom 6 (dayText u ++ [newline])) (strcpyHash u.hash r)) ∧
      (setDays (intsFrom 6 (dayText u ++ [newline])) (strcpyHash u.hash r)).username =
        r.username := by
  rw [setDays_dayText hu.reservedText.2.1]
  refine ⟨⟨?_, ?_, hu.hash, hu.hashFits, hres⟩, zerosLast_laterDays u r, rfl⟩
  · show FieldText r.username
    rw [hname]
    exact hu.name
  · show r.username.length ≤ 15
    rw [hname]
    exact hu.nameFits

theorem Settled.append {acc : List User} (h : Settled acc) {v : User}
    (hv : Storable v ∧ ZerosLast v) (hnew : findUser acc v.username = none) :
    Settled (acc ++ [v]) where
  records := forall_mem_append_singleton h.records hv
  names := by
    have hfresh : v.username ∉ acc.map User.username := by
      intro hmem
      rcases List.mem_map.mp hmem with ⟨w, hw, heq⟩
      exact findUser_eq_none_iff.mp hnew w hw heq
    rw [List.map_append, List.map_singleton, ← List.concat_eq_append]
    exact h.names.concat hfresh

theorem Settled.replace {front back : List User} {r v : User}
    (h : Settled (front ++ r :: back)) (hv : Storable v ∧ ZerosLast v)
    (hname : v.username = r.username) : Settled (front ++ v :: back) where
  records := forall_mem_replace h.records hv
  names := by
    have hnames := h.names
    rw [List.map_append, List.map_cons] at hnames ⊢
    rw [hname]
    exact hnames

theorem Settled.line {acc : List User} (h : Settled acc) {u : User} (hu : Writable u)
    {env : Env User} (hblock : env.block ≠ none) :
    exists acc', parseLine env acc (deparseUser u) = .ok (.next acc') ∧ Settled acc' := by
  rcases findUser_cases acc u.username with hnew | ⟨front, r, back, hm⟩
  · rcases Option.ne_none_iff_exists'.mp hblock with ⟨block, hb⟩
    refine ⟨_, parseLine_deparseUser env hu.printable hnew hb, ?_⟩
    have hname : (initUser env u.username block).username = u.username := by
      simp [initUser, User.setDay]
    have hres : (initUser env u.username block).reserved = none := by
      simp [initUser]
    rcases hu.storable hname hres with ⟨hstorable, hzeros, hkept⟩
    apply h.append ⟨hstorable, hzeros⟩
    rw [hkept, hname]
    exact hnew
  · have hadd := sfTreeAddUser_of_found env hm.ne_none
    have hmatch : FirstMatch (sfTreeAddUser env acc u.username).2 u.username front r back := by
      rw [hadd]
      exact hm
    have hhash : strtok colon (u.hash.bytes ++ colon :: (dayText u ++ [newline])) =
        some (u.hash.bytes, dayText u ++ [newline]) :=
      strtok_field _ hu.hash.nonempty hu.hash.colonFree
    have hline := parseLine_of_tokens (strtok_lineString hu.printable) hhash
      hu.name.nonempty hu.nameFits hu.hash.nonempty (Nat.le_succ_of_le hu.hashFits)
      hmatch (User.rep_terminated r)
    have hres : r.reserved = none := (h.records r hm.mem).1.reserved
    rcases hu.storable hm.found hres with ⟨hstorable, hzeros, hkept⟩
    refine ⟨_, hline, ?_⟩
    rw [hm.split] at h
    exact h.replace ⟨hstorable, hzeros⟩ hkept

/-!
## The whole file
-/

/-- Induction over the written records, `acc` holding what the lines before have built. -/
theorem Settled.lines {load : LoadEnv User} (hload : FreshLoad load) (sf : List User)
    (k : Nat) {acc : List User} (h : Settled acc)
    (hsf : forall u, u ∈ sf -> Writable u) :
    exists s, parseLines load k (sf.map deparseUser) acc = .ok s ∧ Settled s := by
  induction sf generalizing k acc with
  | nil => exact ⟨acc, rfl, h⟩
  | cons u sf ih =>
      rcases h.line (hsf u (by simp)) (hload.alloc k) with ⟨acc', hline, hacc'⟩
      rcases ih (k + 1) hacc' (fun v hv => hsf v (by simp [hv])) with ⟨s, hrest, hs⟩
      refine ⟨s, ?_, hs⟩
      rw [List.map_cons, parseLines, hline]
      exact hrest

theorem exists_settled_cycle {load : LoadEnv User} (hload : FreshLoad load)
    {sf : List User} (hsf : forall u, u ∈ sf -> Writable u) :
    exists s, cycle load sf = .ok s ∧ Settled s := by
  have hempty : Settled (sfTreeInit load) := by
    rw [sfTreeInit, hload.head]
    exact ⟨fun u hu => absurd hu List.not_mem_nil, List.nodup_nil⟩
  rw [cycle, initParse, readLines_sfDeparse (fun u hu => (hsf u hu).printable)]
  exact hempty.lines hload sf 0 hsf

theorem Settled.cycle_eq {load : LoadEnv User} (hload : FreshLoad load) {s : List User}
    (h : Settled s) : cycle load s = .ok s := by
  have hsome : forall k, exists b, (load.line k).block = some b :=
    fun k => Option.ne_none_iff_exists'.mp (hload.alloc k)
  choose block hblock using hsome
  have hread := initParse_sfDeparse load block hload.head hblock s
    (fun u hu => (h.records u hu).1.printable) h.names
  have hself := reloadFrom_eq_self_iff load block 0
    (fun u hu => (h.records u hu).1.reserved)
  rw [cycle, hread, hself.mpr (fun u hu => (h.records u hu).2)]

/-- One turn through the file settles every list of writable records: the second turn
changes nothing. -/
theorem cycle_settles (load load' : LoadEnv User) (hload : FreshLoad load)
    (hload' : FreshLoad load') (sf : List User) (hsf : forall u, u ∈ sf -> Writable u) :
    exists s, cycle load sf = .ok s ∧ cycle load' s = .ok s := by
  rcases exists_settled_cycle hload hsf with ⟨s, hfirst, hsettled⟩
  exact ⟨s, hfirst, hsettled.cycle_eq hload'⟩

theorem plainLoad_fresh : FreshLoad plainLoad where
  head := rfl
  alloc := by
    intro k
    simp [plainLoad, plainEnv]

/-- A list that one turn changes: a name twice, a blank field and a reserved text. -/
def unsettled : List User :=
  [{ binUser with dmc := 0, reserved := some (CString.lit "12") }, binUser,
    { binUser with username := CString.lit "sys", dw := 0, de := 3 }]

theorem unsettled_writable : forall u, u ∈ unsettled -> Writable u := by
  have hreserved : forall r, some (CString.lit "12") = some r ->
      r.length ≤ 100 ∧ colon ∉ r.bytes ∧ newline ∉ r.bytes := by
    intro r hr
    cases hr
    decide
  intro u hu
  simp only [unsettled, List.mem_cons, List.not_mem_nil, or_false] at hu
  rcases hu with rfl | rfl | rfl
  · exact ⟨by decide, by decide, by decide, by decide, hreserved⟩
  · exact ⟨by decide, by decide, by decide, by decide, fun r hr => by cases hr⟩
  · exact ⟨by decide, by decide, by decide, by decide, fun r hr => by cases hr⟩

theorem cycle_settles_unsettled :
    cycle plainLoad unsettled ≠ .ok unsettled ∧
      exists s, cycle plainLoad unsettled = .ok s ∧ cycle plainLoad s = .ok s := by
  refine ⟨?_, cycle_settles plainLoad plainLoad plainLoad_fresh plainLoad_fresh unsettled
    unsettled_writable⟩
  intro h
  have hread : cycle plainLoad unsettled =
      .ok [binUser, { binUser with username := CString.lit "sys", dw := 3 }] := rfl
  rw [hread] at h
  injection h with hlist
  exact absurd (congrArg List.length hlist) (by decide)

end ShadowFs

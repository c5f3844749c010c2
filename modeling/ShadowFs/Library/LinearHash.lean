import Mathlib.Data.List.Perm.Basic
import Mathlib.Data.Nat.ModEq
import Mathlib.Algebra.Order.Ring.Nat

/-!
# Linear hashing

A table of chains that grows and shrinks by one chain at a time.  The first `split` chains
of the lower half have been divided between the two halves of the table; the others still
hold what belongs to either half.  Adding an element divides one chain more, and the array
is doubled when all are divided; removing one joins chains again.

An element of the array is designated by an index, and an access outside of the array gives
`none`.  The array may fail to be reallocated.
-/

namespace ShadowFs.Library

structure LinearHash (α : Type) where
  array : List (List α)
  use : Nat
  size : Nat
  split : Nat

namespace LinearHash

section Operations

variable {α : Type} [DecidableEq α] (hash : α -> Nat) (least : Nat)

/-- The chain of a hash value: in the lower half as long as that chain is not divided. -/
def slot (size split h : Nat) : Nat :=
  if h % size % (size / 2) ≥ split then h % size % (size / 2) else h % size

def find (p : α -> Bool) (h : Nat) (t : LinearHash α) : Option (Option α) :=
  t.array[slot t.size t.split h]?.map (List.find? p)

def put (i : Nat) (chain : List α) (t : LinearHash α) : Option (LinearHash α) :=
  if i < t.array.length then some { t with array := t.array.set i chain } else none

/-- The array is doubled; on failure all stays as it is. -/
def resize (realloc : Bool) (t : LinearHash α) : LinearHash α :=
  if realloc then
    { t with
      array := t.array.take t.size ++ List.replicate t.size []
      size := t.size * 2
      split := 0 }
  else t

/-- The elements of a chain that belong elsewhere are put in front of their chains. -/
def moveChain (slotOf : α -> Nat) (home : Nat) :
    List α -> List (List α) -> Option (List α × List (List α))
  | [], array => some ([], array)
  | a :: chain, array =>
      if slotOf a ≠ home then
        match array[slotOf a]? with
        | none => none
        | some other => moveChain slotOf home chain (array.set (slotOf a) (a :: other))
      else
        match moveChain slotOf home chain array with
        | none => none
        | some (kept, array) => some (a :: kept, array)

/-- One chain more is divided. -/
def rehash (realloc : Bool) (t : LinearHash α) : Option (LinearHash α) :=
  if t.split = t.size / 2 then some t
  else
    let home := t.split
    let t := { t with split := t.split + 1 }
    match t.array[home]? with
    | none => none
    | some chain =>
        match moveChain (fun a => slot t.size t.split (hash a)) home chain t.array with
        | none => none
        | some (kept, array) =>
            let t := { t with array := array.set home kept }
            some (if t.split = t.size / 2 then t.resize realloc else t)

def insert (realloc : Bool) (a : α) (t : LinearHash α) : Option (LinearHash α) :=
  let i := slot t.size t.split (hash a)
  match t.array[i]? with
  | none => none
  | some chain =>
      match put i (a :: chain) t with
      | none => none
      | some t =>
          let t := { t with use := t.use + 1 }
          if t.use ≥ t.size / 2 then t.rehash hash realloc else some t

/-- The array is halved, or the table is if the array cannot be reallocated. -/
def reduce (realloc : Bool) (t : LinearHash α) : LinearHash α :=
  let newsize := t.size / 2
  if newsize < least then t
  else
    { t with
      array := if realloc then t.array.take newsize else t.array
      size := newsize
      split := newsize / 2 }

/-- Chains are joined until one was not empty. -/
def joinChains : Nat -> LinearHash α -> Option (LinearHash α)
  | 0, t => some t
  | iter + 1, t =>
      if t.split > 0 then
        let t := { t with split := t.split - 1 }
        match t.array[t.split + t.size / 2]? with
        | none => none
        | some [] => joinChains iter t
        | some (a :: upper) =>
            match t.array[t.split]? with
            | none => none
            | some lower =>
                match put t.split (lower ++ a :: upper) t with
                | none => none
                | some t => put (t.split + t.size / 2) [] t
      else some t

def remerge (realloc : Bool) (t : LinearHash α) : Option (LinearHash α) :=
  joinChains 8 (if t.split = 0 then t.reduce least realloc else t)

/-- An element is taken out of its chain; it may not be there. -/
def detach (a : α) (t : LinearHash α) : Option (Bool × LinearHash α) :=
  let i := slot t.size t.split (hash a)
  match t.array[i]? with
  | none => none
  | some chain =>
      if a ∈ chain then (put i (chain.erase a) t).map (fun t => (true, t))
      else some (false, t)

/-- The rest of a removal: it is counted, and chains are joined. -/
def release (realloc : Bool) (t : LinearHash α) : Option (LinearHash α) :=
  let t := { t with use := t.use - 1 }
  if t.use < t.size / 4 then t.remerge least realloc else some t

/-- An empty table of the least size. -/
def empty : LinearHash α :=
  { array := List.replicate least [], use := 0, size := least, split := 0 }

end Operations

/-!
## Slots
-/

theorem slot_eq {half : Nat} (split h : Nat) :
    slot (2 * half) split h = if h % half ≥ split then h % half else h % (2 * half) := by
  have hhalf : 2 * half / 2 = half := Nat.mul_div_cancel_left half Nat.two_pos
  rw [slot, hhalf, Nat.mod_mod_of_dvd h (Nat.dvd_mul_left half 2)]

theorem slot_lt {half : Nat} (hpos : 0 < half) (split h : Nat) :
    slot (2 * half) split h < 2 * half := by
  rw [slot_eq]
  split
  · have hlt := Nat.mod_lt h hpos
    lia
  · exact Nat.mod_lt h (by lia)

/-- The remainder by the whole size is that by the half, or lies one half above it. -/
theorem mod_two_mul_cases (half h : Nat) :
    h % (2 * half) = h % half ∨ h % (2 * half) = h % half + half := by
  rcases Nat.mod_two_eq_zero_or_one (h / half) with heven | hodd
  · left
    rw [Nat.mul_comm 2 half, Nat.mod_mul, heven, Nat.mul_zero, Nat.add_zero]
  · right
    rw [Nat.mul_comm 2 half, Nat.mod_mul, hodd, Nat.mul_one]

/-- Dividing one chain more moves only its own elements, and these only up. -/
theorem slot_succ {size split : Nat} (hsize : size = 2 * (size / 2)) (hsplit : split < size / 2)
    (v : Nat) :
    (slot size split v = split ∧ (slot size (split + 1) v = split ∨
        slot size (split + 1) v = split + size / 2)) ∨
      ((slot size split v ≠ split ∧ slot size split v ≠ split + size / 2) ∧
        slot size (split + 1) v = slot size split v) := by
  generalize size / 2 = half at hsize hsplit ⊢
  subst hsize
  have hlt := Nat.mod_lt v (Nat.zero_lt_of_lt hsplit)
  rw [slot_eq, slot_eq]
  by_cases heq : v % half = split
  · rw [if_pos (by lia), if_neg (by lia)]
    rcases mod_two_mul_cases half v with hlow | hhigh
    · exact Or.inl ⟨heq, Or.inl (hlow.trans heq)⟩
    · refine Or.inl ⟨heq, Or.inr ?_⟩
      rw [hhigh, heq]
  · by_cases hge : v % half ≥ split
    · rw [if_pos hge, if_pos (by lia)]
      exact Or.inr ⟨⟨heq, by lia⟩, rfl⟩
    · rw [if_neg hge, if_neg (by lia)]
      rcases mod_two_mul_cases half v with hlow | hhigh
      · exact Or.inr ⟨⟨by lia, by lia⟩, rfl⟩
      · exact Or.inr ⟨⟨by lia, by lia⟩, rfl⟩

theorem slot_full {half : Nat} (hpos : 0 < half) (h : Nat) :
    slot (2 * half) half h = slot (2 * (2 * half)) 0 h := by
  have hlt := Nat.mod_lt h hpos
  rw [slot_eq, slot_eq, if_neg (by lia), if_pos (Nat.zero_le _)]

/-!
## Chains
-/

section Chains

variable {α : Type}

theorem count_flatten_set [DecidableEq α] {array : List (List α)} {i : Nat} {old : List α}
    (h : array[i]? = some old) (new : List α) (a : α) :
    (array.set i new).flatten.count a + old.count a =
      array.flatten.count a + new.count a := by
  rcases List.getElem?_eq_some_iff.mp h with ⟨hlt, hold⟩
  have hsplit : array = array.take i ++ old :: array.drop (i + 1) := by
    rw [← hold, List.getElem_cons_drop, List.take_append_drop]
  have hset : array.set i new = array.take i ++ new :: array.drop (i + 1) := by
    rw [List.set_eq_take_append_cons_drop, if_pos hlt]
  have hcount : array.flatten.count a = (array.take i).flatten.count a + (old.count a +
      (array.drop (i + 1)).flatten.count a) := by
    conv_lhs => rw [hsplit]
    rw [List.flatten_append, List.flatten_cons, List.count_append, List.count_append]
  rw [hset, hcount, List.flatten_append, List.flatten_cons, List.count_append,
    List.count_append]
  lia

theorem getElem?_set_of_some {array : List (List α)} {i j : Nat} {old new : List α}
    (h : array[i]? = some old) :
    (array.set i new)[j]? = if i = j then some new else array[j]? := by
  have hlt := (List.getElem?_eq_some_iff.mp h).1
  by_cases hij : i = j
  · subst hij
    rw [List.getElem?_set_self hlt, if_pos rfl]
  · rw [List.getElem?_set_ne hij, if_neg hij]

theorem set_self {array : List (List α)} {i : Nat} {old : List α}
    (h : array[i]? = some old) : array.set i old = array := by
  rcases List.getElem?_eq_some_iff.mp h with ⟨hlt, rfl⟩
  exact List.set_getElem_self hlt

theorem flatten_take_of_empty {array : List (List α)} {n : Nat}
    (h : forall (i : Nat) (chain : List α), array[i]? = some chain -> n ≤ i -> chain = []) :
    (array.take n).flatten = array.flatten := by
  have hdrop : (array.drop n).flatten = [] := by
    rw [List.flatten_eq_nil_iff]
    intro chain hchain
    rcases List.mem_iff_getElem?.mp hchain with ⟨i, hi⟩
    rw [List.getElem?_drop] at hi
    exact h (n + i) chain hi (Nat.le_add_right n i)
  conv_rhs => rw [← List.take_append_drop n array, List.flatten_append, hdrop, List.append_nil]

/-- Where there are two chains an element may belong to, the others move to the other one. -/
theorem moveChain_eq (slotOf : α -> Nat) {home upper : Nat} (hne : home ≠ upper)
    {chain : List α} (hchain : forall a, a ∈ chain -> slotOf a = home ∨ slotOf a = upper)
    {array : List (List α)} {other : List α} (hother : array[upper]? = some other) :
    exists kept top, moveChain slotOf home chain array =
        some (kept, array.set upper (top ++ other)) ∧
      (forall a, a ∈ kept -> slotOf a = home) ∧ (forall a, a ∈ top -> slotOf a = upper) ∧
      (kept ++ top).Perm chain := by
  induction chain generalizing array other with
  | nil =>
      refine ⟨[], [], ?_, by simp, by simp, List.Perm.refl _⟩
      rw [moveChain, List.nil_append, set_self hother]
  | cons a chain ih =>
      have hrest := fun b hb => hchain b (List.mem_cons_of_mem a hb)
      rcases hchain a List.mem_cons_self with hhome | hupper
      · rcases ih hrest hother with ⟨kept, top, hmove, hkept, htop, hperm⟩
        refine ⟨a :: kept, top, ?_, ?_, htop, ?_⟩
        · simp only [moveChain, hhome, ne_eq, not_true_eq_false, if_false, hmove]
        · exact List.forall_mem_cons.mpr ⟨hhome, hkept⟩
        · exact List.Perm.cons a hperm
      · have hset : (array.set upper (a :: other))[upper]? = some (a :: other) := by
          rw [getElem?_set_of_some hother, if_pos rfl]
        rcases ih hrest hset with ⟨kept, top, hmove, hkept, htop, hperm⟩
        refine ⟨kept, top ++ [a], ?_, hkept, ?_, ?_⟩
        · have hleaves : slotOf a ≠ home := by
            rw [hupper]
            exact hne.symm
          rw [moveChain, if_pos hleaves, hupper, hother]
          dsimp only
          rw [hmove, List.set_set, List.append_assoc, List.singleton_append]
        · simp only [List.mem_append, List.mem_singleton]
          rintro b (hb | rfl)
          · exact htop b hb
          · exact hupper
        · rw [← List.append_assoc]
          exact (List.perm_append_singleton a _).trans (List.Perm.cons a hperm)

end Chains

/-!
## Tables
-/

section Valid

variable {α : Type} [DecidableEq α] (hash : α -> Nat) (least : Nat)

/-- The table holds the given elements, each in its chain; some that were taken out may still
be counted. -/
structure Valid (t : LinearHash α) (l : List α) (pending : Nat) : Prop where
  pos : 0 < least
  even : 2 ∣ least
  shape : exists k, t.size = least * 2 ^ k
  split : t.split ≤ t.size / 2
  room : t.size ≤ t.array.length
  behind : forall i chain, t.array[i]? = some chain -> t.size ≤ i -> chain = []
  placed : forall i chain a, t.array[i]? = some chain -> a ∈ chain ->
    slot t.size t.split (hash a) = i
  content : forall a, t.array.flatten.count a = l.count a
  use : t.use = l.length + pending

variable {hash least} {t : LinearHash α} {l : List α} {pending : Nat}

theorem Valid.size_eq (h : Valid hash least t l pending) :
    t.size = 2 * (t.size / 2) ∧ 0 < t.size / 2 := by
  rcases h.shape with ⟨k, hk⟩
  have hdvd : 2 ∣ t.size := by
    rw [hk]
    exact Dvd.dvd.mul_right h.even _
  have hsize : 0 < t.size := by
    rw [hk]
    exact Nat.mul_pos h.pos (Nat.two_pow_pos k)
  rcases hdvd with ⟨m, hm⟩
  lia

theorem Valid.exists_chain (h : Valid hash least t l pending) (v : Nat) :
    exists chain, t.array[slot t.size t.split v]? = some chain := by
  rcases h.size_eq with ⟨hsize, hhalf⟩
  have hlt : slot t.size t.split v < t.size := by
    rw [hsize]
    exact slot_lt hhalf _ _
  exact ⟨_, List.getElem?_eq_getElem (Nat.lt_of_lt_of_le hlt h.room)⟩

theorem Valid.mem_iff (h : Valid hash least t l pending) (a : α) :
    a ∈ l <-> exists (i : Nat) (chain : List α), t.array[i]? = some chain ∧ a ∈ chain := by
  rw [← List.count_pos_iff, ← h.content a, List.count_pos_iff, List.mem_flatten]
  constructor
  · rintro ⟨chain, hchain, ha⟩
    rcases List.mem_iff_getElem?.mp hchain with ⟨i, hi⟩
    exact ⟨i, chain, hi, ha⟩
  · rintro ⟨i, chain, hi, ha⟩
    exact ⟨chain, List.mem_of_getElem? hi, ha⟩

theorem Valid.mem_chain_iff (h : Valid hash least t l pending) {a : α} {chain : List α}
    (hchain : t.array[slot t.size t.split (hash a)]? = some chain) : a ∈ chain <-> a ∈ l := by
  rw [h.mem_iff a]
  constructor
  · intro ha
    exact ⟨_, chain, hchain, ha⟩
  · rintro ⟨i, other, hi, ha⟩
    rw [h.placed i other a hi ha, hi] at hchain
    cases hchain
    exact ha

/-- What a search finds: an element that satisfies the test, if there is one. -/
theorem Valid.find (h : Valid hash least t l pending)
    {p : α -> Bool} {v : Nat} (hp : forall a, p a = true -> hash a = v) :
    exists found, t.find p v = some found ∧
      (forall a, found = some a -> a ∈ l ∧ p a = true) ∧
      (found = none -> forall a, a ∈ l -> p a = false) := by
  rcases h.exists_chain v with ⟨chain, hchain⟩
  refine ⟨chain.find? p, ?_, ?_, ?_⟩
  · rw [LinearHash.find, hchain, Option.map_some]
  · intro a ha
    exact ⟨(h.mem_iff a).mpr ⟨_, chain, hchain, List.mem_of_find?_eq_some ha⟩,
      List.find?_some ha⟩
  · intro hnone a ha
    by_contra hpa
    rw [Bool.not_eq_false] at hpa
    rw [← hp a hpa] at hchain
    have hmem := (h.mem_chain_iff hchain).mpr ha
    exact List.find?_eq_none.mp hnone a hmem hpa

theorem Valid.rearrange (h : Valid hash least t l pending) {t' : LinearHash α}
    (hshape : exists k, t'.size = least * 2 ^ k) (hsplit : t'.split ≤ t'.size / 2)
    (hroom : t'.size ≤ t'.array.length)
    (hbehind : forall i chain, t'.array[i]? = some chain -> t'.size ≤ i -> chain = [])
    (hplaced : forall i chain a, t'.array[i]? = some chain -> a ∈ chain ->
      slot t'.size t'.split (hash a) = i)
    (hcontent : forall a, t'.array.flatten.count a = t.array.flatten.count a)
    (huse : t'.use = t.use) : Valid hash least t' l pending where
  pos := h.pos
  even := h.even
  shape := hshape
  split := hsplit
  room := hroom
  behind := hbehind
  placed := hplaced
  content a := (hcontent a).trans (h.content a)
  use := huse.trans h.use

theorem Valid.resize (h : Valid hash least t l pending) (hfull : t.split = t.size / 2)
    (realloc : Bool) : Valid hash least (t.resize realloc) l pending := by
  cases realloc with
  | false => exact h
  | true =>
      rcases h.size_eq with ⟨hsize, hhalf⟩
      rcases h.shape with ⟨k, hk⟩
      have hlength : (t.array.take t.size ++ List.replicate t.size []).length =
          t.size * 2 := by
        rw [List.length_append, List.length_take, List.length_replicate]
        have hroom := h.room
        lia
      rw [LinearHash.resize, if_pos rfl]
      refine h.rearrange ⟨k + 1, ?_⟩ (Nat.zero_le _) (Nat.le_of_eq hlength.symm) ?_ ?_ ?_ rfl
      · rw [Nat.pow_succ, ← Nat.mul_assoc, ← hk]
      · dsimp only
        intro i chain hi hbeyond
        have hlt := (List.getElem?_eq_some_iff.mp hi).1
        rw [hlength] at hlt
        exact absurd hlt (Nat.not_lt.mpr hbeyond)
      · dsimp only
        intro i chain a hi ha
        have hslot : slot (t.size * 2) 0 (hash a) = slot t.size t.split (hash a) := by
          rw [hfull, Nat.mul_comm, hsize, Nat.mul_div_cancel_left _ Nat.two_pos]
          exact (slot_full hhalf (hash a)).symm
        rw [hslot]
        by_cases hlow : i < t.size
        · rw [List.getElem?_append_left (by rw [List.length_take]; have := h.room; lia),
            List.getElem?_take_of_lt hlow] at hi
          exact h.placed i chain a hi ha
        · rw [List.getElem?_append_right (by rw [List.length_take]; lia),
            List.getElem?_replicate] at hi
          split at hi
          · cases hi
            cases ha
          · cases hi
      · dsimp only
        intro a
        rw [List.flatten_append, List.flatten_replicate_nil, List.append_nil,
          flatten_take_of_empty h.behind]

/-- The elements of two chains are divided anew, with another number of divided chains. -/
theorem Valid.regroup (h : Valid hash least t l pending) {split : Nat} (hsplit : split ≤ t.size / 2)
    {i j : Nat} (hij : i ≠ j) {x y x' y' : List α} (hx : t.array[i]? = some x)
    (hy : t.array[j]? = some y) (hi : i < t.size) (hj : j < t.size)
    (hcount : forall a, x'.count a + y'.count a = x.count a + y.count a)
    (hx' : forall a, a ∈ x' -> slot t.size split (hash a) = i)
    (hy' : forall a, a ∈ y' -> slot t.size split (hash a) = j)
    (hothers : forall v, slot t.size t.split v ≠ i -> slot t.size t.split v ≠ j ->
      slot t.size split v = slot t.size t.split v) :
    Valid hash least { t with split := split, array := (t.array.set i x').set j y' } l
      pending := by
  have hsecond : (t.array.set i x')[j]? = some y := by
    rw [getElem?_set_of_some hx, if_neg hij, hy]
  generalize harray : (t.array.set i x').set j y' = array
  have hget : forall k, array[k]? =
      if j = k then some y' else if i = k then some x' else t.array[k]? := by
    intro k
    rw [← harray, getElem?_set_of_some hsecond, getElem?_set_of_some hx]
  have hlength : array.length = t.array.length := by
    rw [← harray, List.length_set, List.length_set]
  refine h.rearrange h.shape hsplit (Nat.le_trans h.room (Nat.le_of_eq hlength.symm)) ?_ ?_ ?_ rfl
  · dsimp only
    intro k c hk hbeyond
    rw [hget, if_neg (by lia), if_neg (by lia)] at hk
    exact h.behind k c hk hbeyond
  · dsimp only
    intro k c a hk ha
    rw [hget] at hk
    by_cases hkj : j = k
    · rw [if_pos hkj] at hk
      cases hk
      exact (hy' a ha).trans hkj
    · by_cases hki : i = k
      · rw [if_neg hkj, if_pos hki] at hk
        cases hk
        exact (hx' a ha).trans hki
      · rw [if_neg hkj, if_neg hki] at hk
        have hplace := h.placed k c a hk ha
        rw [hothers (hash a) (by lia) (by lia), hplace]
  · dsimp only
    intro a
    have hfirst := count_flatten_set hx x' a
    have hlast := count_flatten_set hsecond y' a
    have hboth := hcount a
    rw [harray] at hlast
    lia

theorem Valid.rehash (h : Valid hash least t l pending) (realloc : Bool) :
    exists t', t.rehash hash realloc = some t' ∧ Valid hash least t' l pending := by
  by_cases hfull : t.split = t.size / 2
  · exact ⟨t, if_pos hfull, h⟩
  · rcases h.size_eq with ⟨hsize, hhalf⟩
    have hroom := h.room
    have hsplit : t.split < t.size / 2 := Nat.lt_of_le_of_ne h.split hfull
    have hslot := slot_succ hsize hsplit
    have hlower : t.split < t.size := by lia
    have hupper : t.split + t.size / 2 < t.size := by lia
    have hne : t.split ≠ t.split + t.size / 2 := by lia
    have hold : t.array[t.split]? = some t.array[t.split] :=
      List.getElem?_eq_getElem (by lia)
    have hother : t.array[t.split + t.size / 2]? = some t.array[t.split + t.size / 2] :=
      List.getElem?_eq_getElem (by lia)
    generalize t.array[t.split] = chain at hold
    generalize t.array[t.split + t.size / 2] = other at hother
    have hchain : forall a, a ∈ chain ->
        slot t.size (t.split + 1) (hash a) = t.split ∨
          slot t.size (t.split + 1) (hash a) = t.split + t.size / 2 := by
      intro a ha
      rcases hslot (hash a) with ⟨_, hnew⟩ | ⟨hdiff, _⟩
      · exact hnew
      · exact absurd (h.placed _ chain a hold ha) hdiff.1
    rcases moveChain_eq (fun a => slot t.size (t.split + 1) (hash a)) hne hchain hother with
      ⟨kept, top, hmove, hkept, htop, hperm⟩
    have hcount : forall a, (top ++ other).count a + kept.count a =
        other.count a + chain.count a := by
      intro a
      have hboth := hperm.count_eq a
      rw [List.count_append] at hboth ⊢
      lia
    have htop' : forall a, a ∈ top ++ other ->
        slot t.size (t.split + 1) (hash a) = t.split + t.size / 2 := by
      intro a ha
      rcases List.mem_append.mp ha with hmoved | hstayed
      · exact htop a hmoved
      · have hplace := h.placed _ other a hother hstayed
        rcases hslot (hash a) with ⟨hhere, _⟩ | ⟨_, hkeep⟩
        · lia
        · rw [hkeep, hplace]
    have hothers : forall v, slot t.size t.split v ≠ t.split + t.size / 2 ->
        slot t.size t.split v ≠ t.split ->
        slot t.size (t.split + 1) v = slot t.size t.split v := by
      intro v _ hdiff
      rcases hslot v with ⟨hhere, _⟩ | ⟨_, hkeep⟩
      · exact absurd hhere hdiff
      · exact hkeep
    have hvalid := h.regroup hsplit hne.symm hother hold hupper hlower hcount htop' hkept hothers
    simp only [LinearHash.rehash, if_neg hfull, hold, hmove]
    refine ⟨_, rfl, ?_⟩
    split
    · rename_i hlast
      exact hvalid.resize hlast realloc
    · exact hvalid

theorem Valid.replace (h : Valid hash least t l pending) {i : Nat} {chain : List α}
    (hi : t.array[i]? = some chain) (hlow : i < t.size) {new : List α}
    (hnew : forall a, a ∈ new -> slot t.size t.split (hash a) = i) {l' : List α}
    (hcount : forall a, l'.count a + chain.count a = l.count a + new.count a) {use pending' : Nat}
    (huse : use = l'.length + pending') :
    put i new t = some { t with array := t.array.set i new } ∧
      Valid hash least { t with array := t.array.set i new, use := use } l' pending' := by
  have hlt := (List.getElem?_eq_some_iff.mp hi).1
  refine ⟨if_pos hlt, h.pos, h.even, h.shape, h.split, ?_, ?_, ?_, ?_, huse⟩
  · dsimp only
    rw [List.length_set]
    exact h.room
  · dsimp only
    intro j c hj hbeyond
    rw [getElem?_set_of_some hi, if_neg (by lia)] at hj
    exact h.behind j c hj hbeyond
  · dsimp only
    intro j c a hj ha
    rw [getElem?_set_of_some hi] at hj
    split at hj
    · rename_i hsame
      cases hj
      exact (hnew a ha).trans hsame
    · exact h.placed j c a hj ha
  · dsimp only
    intro a
    have hset := count_flatten_set hi new a
    have hold := h.content a
    have hboth := hcount a
    lia

theorem Valid.slot_lt_size (h : Valid hash least t l pending) (v : Nat) :
    slot t.size t.split v < t.size := by
  rcases h.size_eq with ⟨hsize, hhalf⟩
  rw [hsize]
  exact slot_lt hhalf _ _

theorem Valid.insert (h : Valid hash least t l pending) (realloc : Bool) (a : α) :
    exists t', t.insert hash realloc a = some t' ∧ Valid hash least t' (a :: l) pending := by
  rcases h.exists_chain (hash a) with ⟨chain, hchain⟩
  have hnew : forall b, b ∈ a :: chain ->
      slot t.size t.split (hash b) = slot t.size t.split (hash a) := by
    intro b hb
    rcases List.mem_cons.mp hb with rfl | hb
    · rfl
    · exact h.placed _ chain b hchain hb
  have hcount : forall b, (a :: l).count b + chain.count b =
      l.count b + (a :: chain).count b := by
    intro b
    rw [List.count_cons, List.count_cons]
    lia
  have huse : t.use + 1 = (a :: l).length + pending := by
    rw [h.use, List.length_cons]
    lia
  rcases h.replace hchain (h.slot_lt_size _) hnew hcount huse with ⟨hput, hvalid⟩
  simp only [LinearHash.insert, hchain, hput]
  split
  · exact hvalid.rehash realloc
  · exact ⟨_, rfl, hvalid⟩

theorem Valid.reduce (h : Valid hash least t l pending) (hsplit : t.split = 0) (realloc : Bool) :
    Valid hash least (t.reduce least realloc) l pending := by
  simp only [LinearHash.reduce]
  split
  · exact h
  · rename_i hlarge
    rcases h.size_eq with ⟨hsize, hhalf⟩
    have hpos := h.pos
    have hroom := h.room
    have hshape : exists k, t.size / 2 = least * 2 ^ k := by
      rcases h.shape with ⟨_ | k, hk⟩
      · rw [Nat.pow_zero, Nat.mul_one] at hk
        lia
      · refine ⟨k, ?_⟩
        rw [hk, Nat.pow_succ, ← Nat.mul_assoc, Nat.mul_div_cancel _ Nat.two_pos]
    have hquarter : t.size / 2 = 2 * (t.size / 2 / 2) ∧ 0 < t.size / 2 / 2 := by
      rcases hshape with ⟨k, hk⟩
      rcases Dvd.dvd.mul_right h.even (2 ^ k) with ⟨m, hm⟩
      lia
    -- The elements are in the lower half already.
    have hslot : forall v, slot (t.size / 2) (t.size / 2 / 2) v = slot t.size t.split v := by
      intro v
      have hfull := slot_full hquarter.2 v
      rw [← hquarter.1, ← hsize] at hfull
      rw [hfull, hsplit]
    have hlow : forall v, slot t.size t.split v < t.size / 2 := by
      intro v
      rw [← hslot, hquarter.1, Nat.mul_div_cancel_left _ Nat.two_pos]
      exact slot_lt hquarter.2 _ _
    have hempty : forall (i : Nat) (chain : List α), t.array[i]? = some chain ->
        t.size / 2 ≤ i -> chain = [] := by
      intro i chain hi hbeyond
      rw [List.eq_nil_iff_forall_not_mem]
      intro a ha
      have hplace := h.placed i chain a hi ha
      have hlt := hlow (hash a)
      lia
    generalize harray : (if realloc then t.array.take (t.size / 2) else t.array) = array
    have hget : forall (i : Nat) (chain : List α), array[i]? = some chain ->
        t.array[i]? = some chain := by
      intro i chain hi
      rw [← harray] at hi
      split at hi
      · have hlt := (List.getElem?_eq_some_iff.mp hi).1
        rw [List.length_take] at hlt
        rw [List.getElem?_take_of_lt (by lia)] at hi
        exact hi
      · exact hi
    refine h.rearrange hshape (Nat.le_refl _) ?_ ?_ ?_ ?_ rfl
    · dsimp only
      rw [← harray]
      split
      · rw [List.length_take]
        lia
      · lia
    · dsimp only
      intro i chain hi hbeyond
      exact hempty i chain (hget i chain hi) hbeyond
    · dsimp only
      intro i chain a hi ha
      rw [hslot]
      exact h.placed i chain a (hget i chain hi) ha
    · dsimp only
      intro a
      rw [← harray]
      split
      · rw [flatten_take_of_empty hempty]
      · rfl

theorem Valid.join (h : Valid hash least t l pending) (hsplit : 0 < t.split) {lower upper : List α}
    (hlower : t.array[t.split - 1]? = some lower)
    (hupper : t.array[t.split - 1 + t.size / 2]? = some upper) :
    Valid hash least
      { t with
        split := t.split - 1
        array := (t.array.set (t.split - 1) (lower ++ upper)).set
          (t.split - 1 + t.size / 2) [] } l pending := by
  rcases h.size_eq with ⟨hsize, hhalf⟩
  have hbound := h.split
  have hlast : t.split - 1 < t.size / 2 := by lia
  have hslot := slot_succ hsize hlast
  rw [Nat.sub_add_cancel hsplit] at hslot
  have hne : t.split - 1 ≠ t.split - 1 + t.size / 2 := by lia
  refine h.regroup (by lia) hne hlower hupper (by lia) (by lia) ?_ ?_ ?_ ?_
  · intro a
    rw [List.count_append, List.count_nil, Nat.add_zero]
  · intro a ha
    rcases hslot (hash a) with ⟨hhere, _⟩ | ⟨hdiff, hkeep⟩
    · exact hhere
    · rw [← hkeep] at hdiff
      rcases List.mem_append.mp ha with hlow | hup
      · exact absurd (h.placed _ lower a hlower hlow) hdiff.1
      · exact absurd (h.placed _ upper a hupper hup) hdiff.2
  · exact List.forall_mem_nil _
  · intro v hlow hup
    rcases hslot v with ⟨_, hhere | hhere⟩ | ⟨_, hkeep⟩
    · exact absurd hhere hlow
    · exact absurd hhere hup
    · exact hkeep.symm

theorem Valid.joinChains (h : Valid hash least t l pending) (iter : Nat) :
    exists t', LinearHash.joinChains iter t = some t' ∧ Valid hash least t' l pending := by
  induction iter generalizing t with
  | zero => exact ⟨t, rfl, h⟩
  | succ iter ih =>
      by_cases hsplit : t.split > 0
      · rcases h.size_eq with ⟨hsize, hhalf⟩
        have hbound := h.split
        have hroom := h.room
        have hlower : t.array[t.split - 1]? = some t.array[t.split - 1] :=
          List.getElem?_eq_getElem (by lia)
        have hupper : t.array[t.split - 1 + t.size / 2]? =
            some t.array[t.split - 1 + t.size / 2] := List.getElem?_eq_getElem (by lia)
        have hjoin := h.join hsplit hlower hupper
        generalize t.array[t.split - 1] = lower at hlower hjoin
        generalize t.array[t.split - 1 + t.size / 2] = upper at hupper hjoin
        cases upper with
        | nil =>
            rw [List.append_nil, set_self hlower, set_self hupper] at hjoin
            rcases ih hjoin with ⟨t', hrun, hvalid⟩
            refine ⟨t', ?_, hvalid⟩
            simp only [LinearHash.joinChains, if_pos hsplit, hupper]
            exact hrun
        | cons a upper =>
            refine ⟨_, ?_, hjoin⟩
            have hlow : t.split - 1 < t.array.length := by lia
            have hhigh : t.split - 1 + t.size / 2 < t.array.length := by lia
            simp only [LinearHash.joinChains, if_pos hsplit, hupper, hlower, put, hlow, hhigh,
              if_true, List.length_set]
      · refine ⟨t, ?_, h⟩
        rw [LinearHash.joinChains, if_neg hsplit]

theorem Valid.remerge (h : Valid hash least t l pending) (realloc : Bool) :
    exists t', t.remerge least realloc = some t' ∧ Valid hash least t' l pending := by
  rw [LinearHash.remerge]
  split
  · rename_i hsplit
    exact (h.reduce hsplit realloc).joinChains 8
  · exact h.joinChains 8

theorem Valid.detach (h : Valid hash least t l pending) {a : α} (ha : a ∈ l) :
    exists t', t.detach hash a = some (true, t') ∧
      Valid hash least t' (l.erase a) (pending + 1) := by
  rcases h.exists_chain (hash a) with ⟨chain, hchain⟩
  have hmem := (h.mem_chain_iff hchain).mpr ha
  have hnew : forall b, b ∈ chain.erase a ->
      slot t.size t.split (hash b) = slot t.size t.split (hash a) := by
    intro b hb
    exact h.placed _ chain b hchain (List.mem_of_mem_erase hb)
  have hcount : forall b, (l.erase a).count b + chain.count b =
      l.count b + (chain.erase a).count b := by
    intro b
    have hlpos := List.count_pos_iff.mpr ha
    have hcpos := List.count_pos_iff.mpr hmem
    by_cases hb : b = a
    · subst hb
      rw [List.count_erase_self, List.count_erase_self]
      lia
    · rw [List.count_erase_of_ne hb, List.count_erase_of_ne hb, Nat.add_comm]
  have huse : t.use = (l.erase a).length + (pending + 1) := by
    have hlength := List.length_pos_of_mem ha
    rw [h.use, List.length_erase_of_mem ha]
    lia
  rcases h.replace hchain (h.slot_lt_size _) hnew hcount huse with ⟨hput, hvalid⟩
  refine ⟨_, ?_, hvalid⟩
  simp only [LinearHash.detach, hchain, if_pos hmem, hput, Option.map_some]

theorem Valid.release (h : Valid hash least t l (pending + 1)) (realloc : Bool) :
    exists t', t.release least realloc = some t' ∧ Valid hash least t' l pending := by
  have hvalid : Valid hash least { t with use := t.use - 1 } l pending := by
    refine ⟨h.pos, h.even, h.shape, h.split, h.room, h.behind, h.placed, h.content, ?_⟩
    dsimp only
    rw [h.use]
    lia
  simp only [LinearHash.release]
  split
  · exact hvalid.remerge realloc
  · exact ⟨_, rfl, hvalid⟩

/-- Only the hash values of the elements of the table matter. -/
theorem Valid.congr_hash (h : Valid hash least t l pending) {hash' : α -> Nat}
    (hsame : forall a, a ∈ l -> hash' a = hash a) : Valid hash' least t l pending := by
  refine ⟨h.pos, h.even, h.shape, h.split, h.room, h.behind, ?_, h.content, h.use⟩
  intro i chain a hi ha
  rw [hsame a ((h.mem_iff a).mpr ⟨i, chain, hi, ha⟩)]
  exact h.placed i chain a hi ha

theorem valid_empty (hpos : 0 < least) (heven : 2 ∣ least) :
    Valid hash least (empty least) [] 0 where
  pos := hpos
  even := heven
  shape := ⟨0, by rw [Nat.pow_zero, Nat.mul_one]; rfl⟩
  split := Nat.zero_le _
  room := by simp [empty]
  behind := by
    intro i chain hi _
    exact List.eq_of_mem_replicate (List.mem_of_getElem? hi)
  placed := by
    intro i chain a hi ha
    rw [List.eq_of_mem_replicate (List.mem_of_getElem? hi)] at ha
    cases ha
  content := by
    intro a
    simp [empty]
  use := rfl

end Valid

end LinearHash

end ShadowFs.Library

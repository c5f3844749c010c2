import ShadowFs.Library.Links

/-!
# Blocks in use

A heap cell is in use if the heap maps its address to something.  `Occupied` says which
cells are in use: those of a linked list and those of a list of lost addresses, to which
no link leads.  The lemmas state what a new cell, a lost one and a removed one do to both
lists, and what is left after the cells of the linked list are freed one by one.
-/

namespace ShadowFs
namespace Library

section Blocks

variable {α : Type}

/-- The cells in use are the linked ones and the lost ones. -/
structure Occupied (heap : Heap α) (head : Option Nat) (cells : List (Nat × α))
    (lost : List Nat) : Prop where
  linked : Linked heap head cells
  live : forall a, heap a ≠ none <-> a ∈ cells.map Prod.fst ∨ a ∈ lost
  apart : forall a, a ∈ lost -> a ∉ cells.map Prod.fst

section Operations

variable {heap heap' : Heap α} {head head' : Option Nat} {cells cells' : List (Nat × α)}
  {lost : List Nat}

theorem Occupied.fresh_not_mem (h : Occupied heap head cells lost) {a : Nat}
    (ha : heap a = none) : a ∉ cells.map Prod.fst ∧ a ∉ lost := by
  have hnot := mt (h.live a).mpr (not_not.mpr ha)
  rw [not_or] at hnot
  exact hnot

theorem Occupied.same (h : Occupied heap head cells lost)
    (hlinked : Linked heap' head' cells')
    (haddrs : cells'.map Prod.fst = cells.map Prod.fst)
    (hlive : forall a, heap' a = none <-> heap a = none) :
    Occupied heap' head' cells' lost where
  linked := hlinked
  live := by
    intro a
    rw [haddrs, ← h.live a, ne_eq, hlive]
  apart := by
    rw [haddrs]
    exact h.apart

theorem Occupied.snoc (h : Occupied heap head cells lost) {p : Nat} {v : α}
    (hp : heap p = none) (hlinked : Linked heap' head' (cells ++ [(p, v)]))
    (hlive : forall a, heap' a = none <-> heap a = none ∧ a ≠ p) :
    Occupied heap' head' (cells ++ [(p, v)]) lost where
  linked := hlinked
  live := by
    intro a
    have hold := h.live a
    rw [ne_eq, hlive, not_and_or, not_not, ← ne_eq, hold]
    simp only [List.map_append, List.map_cons, List.map_nil, List.mem_append,
      List.mem_singleton]
    tauto
  apart := by
    intro a ha
    have hne : a ≠ p := by
      intro heq
      subst heq
      exact (h.fresh_not_mem hp).2 ha
    simp only [List.map_append, List.map_cons, List.map_nil, List.mem_append,
      List.mem_singleton]
    exact not_or.mpr ⟨h.apart a ha, hne⟩

theorem Occupied.lose (h : Occupied heap head cells lost) {p : Nat} (hp : heap p = none)
    (c : Cell α) : Occupied (heap.put p (some c)) head cells (lost ++ [p]) where
  linked := ⟨h.linked.chain.put_of_not_mem (h.fresh_not_mem hp).1 _, h.linked.nodup⟩
  live := by
    intro a
    rw [List.mem_append, List.mem_singleton]
    by_cases ha : a = p
    · subst ha
      simp [Heap.put_self]
    · rw [Heap.put_of_ne _ ha, h.live a]
      tauto
  apart := by
    intro a ha
    rcases List.mem_append.mp ha with hold | hnew
    · exact h.apart a hold
    · rw [List.mem_singleton.mp hnew]
      exact (h.fresh_not_mem hp).1

theorem Occupied.remove {front back : List (Nat × α)} {p : Nat} {v : α}
    (h : Occupied heap head (front ++ (p, v) :: back) lost)
    (hlinked : Linked heap' head' (front ++ back))
    (hlive : forall a, heap' a = none <-> heap a = none ∨ a = p) :
    Occupied heap' head' (front ++ back) lost where
  linked := hlinked
  live := by
    intro a
    have hnodup := h.linked.nodup
    have hold := h.live a
    have hlost := h.apart a
    simp only [List.map_append, List.map_cons, List.nodup_append, List.nodup_cons,
      List.mem_append, List.mem_cons] at hnodup hold hlost ⊢
    have hfront : p ∉ front.map Prod.fst :=
      fun hmem => hnodup.2.2 p hmem p (Or.inl rfl) rfl
    have hback := hnodup.2.1.1
    rw [ne_eq, hlive, not_or, ← ne_eq, hold]
    constructor
    · tauto
    · rintro (hin | hin)
      · refine ⟨by tauto, ?_⟩
        rintro rfl
        exact hin.elim hfront hback
      · refine ⟨Or.inr hin, ?_⟩
        rintro rfl
        exact hlost hin (Or.inr (Or.inl rfl))
  apart := by
    intro a ha hmem
    apply h.apart a ha
    simp only [List.map_append, List.map_cons, List.mem_append, List.mem_cons] at hmem ⊢
    tauto

end Operations

/-!
## Freeing a list
-/

/-- The link of a cell is read before the cell is freed. -/
def freeFrom (heap : Heap α) : Nat -> Option Nat -> Option (Heap α)
  | 0, _ => none
  | _ + 1, none => some heap
  | rounds + 1, some del =>
      match heap del with
      | none => none
      | some cell => freeFrom (heap.put del none) rounds cell.next

theorem freeFrom_linked {heap : Heap α} {head : Option Nat} {cells : List (Nat × α)}
    (h : Linked heap head cells) {rounds : Nat} (hrounds : cells.length < rounds) :
    exists heap', freeFrom heap rounds head = some heap' ∧
      forall a, heap' a ≠ none <-> heap a ≠ none ∧ a ∉ cells.map Prod.fst := by
  induction cells generalizing heap head rounds with
  | nil =>
      cases rounds with
      | zero => cases hrounds
      | succ rounds =>
          cases h.chain
          exact ⟨heap, rfl, by simp⟩
  | cons e cells ih =>
      cases rounds with
      | zero => cases hrounds
      | succ rounds =>
          rcases e with ⟨p, v⟩
          rcases h.tail with ⟨next, hhead, hcell, hrest⟩
          have hgone : Linked (heap.put p none) next cells :=
            ⟨hrest.chain.put_of_not_mem h.of_nodup _, hrest.nodup⟩
          rcases ih hgone (Nat.lt_of_succ_lt_succ hrounds) with ⟨heap', hfree, hlive⟩
          refine ⟨heap', ?_, ?_⟩
          · rw [hhead, freeFrom, hcell]
            exact hfree
          · intro a
            rw [hlive a, List.map_cons, List.mem_cons, not_or]
            by_cases ha : a = p
            · subst ha
              simp [Heap.put_self]
            · simp [Heap.put_of_ne _ ha, ha]

/-- After the list is freed only the lost cells are in use. -/
theorem Occupied.freeFrom {heap : Heap α} {head : Option Nat} {cells : List (Nat × α)}
    {lost : List Nat} (h : Occupied heap head cells lost) {rounds : Nat}
    (hrounds : cells.length < rounds) :
    exists heap', Library.freeFrom heap rounds head = some heap' ∧
      forall a, heap' a ≠ none <-> a ∈ lost := by
  rcases freeFrom_linked h.linked hrounds with ⟨heap', hfree, hlive⟩
  refine ⟨heap', hfree, ?_⟩
  intro a
  have hlost := h.apart a
  rw [hlive a, h.live a]
  tauto

end Blocks

end Library
end ShadowFs

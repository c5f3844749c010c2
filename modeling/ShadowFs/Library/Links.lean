import Mathlib.Data.List.Nodup
import Mathlib.Logic.Function.Basic

/-!
# Singly linked cells in memory

A heap maps addresses to cells, a cell holds a value and the address of the next
one.  `Chain heap a cells b` says that following the links from `a` passes through
exactly the given addresses and values and arrives at `b`.  The lemmas state what
assigning to a cell, allocating and freeing do to a chain that does or does not
contain the address.
-/

namespace ShadowFs
namespace Library

structure Cell (α : Type) where
  value : α
  next : Option Nat

abbrev Heap (α : Type) := Nat -> Option (Cell α)

section Links

variable {α : Type}

def Heap.put (heap : Heap α) (a : Nat) (c : Option (Cell α)) : Heap α :=
  Function.update heap a c

theorem Heap.put_self (heap : Heap α) (a : Nat) (c : Option (Cell α)) :
    heap.put a c a = c := by
  simp [Heap.put]

theorem Heap.put_of_ne (heap : Heap α) {a b : Nat} (h : b ≠ a) (c : Option (Cell α)) :
    heap.put a c b = heap b := by
  simp [Heap.put, h]

/-- The links from `a` to `b` pass through the given cells. -/
def Chain (heap : Heap α) : Option Nat -> List (Nat × α) -> Option Nat -> Prop
  | a, [], b => a = b
  | a, (p, v) :: rest, b =>
      a = some p ∧ exists next, heap p = some ⟨v, next⟩ ∧ Chain heap next rest b

theorem Chain.append {heap : Heap α} {a b c : Option Nat} {front back : List (Nat × α)}
    (hfront : Chain heap a front b) (hback : Chain heap b back c) :
    Chain heap a (front ++ back) c := by
  induction front generalizing a with
  | nil =>
      cases hfront
      exact hback
  | cons e front ih =>
      rcases hfront with ⟨ha, next, hcell, hrest⟩
      exact ⟨ha, next, hcell, ih hrest⟩

theorem Chain.split {heap : Heap α} {a c : Option Nat} {front back : List (Nat × α)}
    (h : Chain heap a (front ++ back) c) :
    exists b, Chain heap a front b ∧ Chain heap b back c := by
  induction front generalizing a with
  | nil => exact ⟨a, rfl, h⟩
  | cons e front ih =>
      rcases h with ⟨ha, next, hcell, hrest⟩
      rcases ih hrest with ⟨b, hfront, hback⟩
      exact ⟨b, ⟨ha, next, hcell, hfront⟩, hback⟩

theorem Chain.put_of_not_mem {heap : Heap α} {a b : Option Nat} {cells : List (Nat × α)}
    (h : Chain heap a cells b) {p : Nat} (hp : p ∉ cells.map Prod.fst)
    (c : Option (Cell α)) : Chain (heap.put p c) a cells b := by
  induction cells generalizing a with
  | nil => exact h
  | cons e cells ih =>
      rcases h with ⟨ha, next, hcell, hrest⟩
      have hne : e.1 ≠ p := fun heq => hp (by simp [heq])
      have htail : p ∉ cells.map Prod.fst := fun hmem => hp (List.mem_cons_of_mem _ hmem)
      refine ⟨ha, next, ?_, ih hrest htail⟩
      rw [heap.put_of_ne hne]
      exact hcell

theorem Chain.mem_allocated {heap : Heap α} {a b : Option Nat} {cells : List (Nat × α)}
    (h : Chain heap a cells b) {p : Nat} (hp : p ∈ cells.map Prod.fst) :
    heap p ≠ none := by
  induction cells generalizing a with
  | nil => cases hp
  | cons e cells ih =>
      rcases h with ⟨_, next, hcell, hrest⟩
      cases hp with
      | head =>
          rw [hcell]
          simp
      | tail _ hmem => exact ih hrest hmem

/-- A list in memory: a chain through different cells down to the null pointer. -/
structure Linked (heap : Heap α) (head : Option Nat) (cells : List (Nat × α)) : Prop where
  chain : Chain heap head cells none
  nodup : (cells.map Prod.fst).Nodup

theorem Linked.of_nodup {heap : Heap α} {a : Option Nat} {p : Nat} {v : α}
    {cells : List (Nat × α)} (h : Linked heap a ((p, v) :: cells)) :
    p ∉ cells.map Prod.fst :=
  (List.nodup_cons.mp h.nodup).1

theorem Linked.tail {heap : Heap α} {a : Option Nat} {p : Nat} {v : α}
    {cells : List (Nat × α)} (h : Linked heap a ((p, v) :: cells)) :
    exists next, a = some p ∧ heap p = some ⟨v, next⟩ ∧ Linked heap next cells := by
  rcases h.chain with ⟨ha, next, hcell, hrest⟩
  exact ⟨next, ha, hcell, ⟨hrest, (List.nodup_cons.mp h.nodup).2⟩⟩

theorem Linked.assign {heap : Heap α} {head next : Option Nat} {p : Nat} {v : α}
    {front back : List (Nat × α)} (h : Linked heap head (front ++ (p, v) :: back))
    (hcell : heap p = some ⟨v, next⟩) (v' : α) :
    Linked (heap.put p (some ⟨v', next⟩)) head (front ++ (p, v') :: back) := by
  rcases h.chain.split with ⟨b, hfront, hb, next', hcell', hback⟩
  have hnext : next' = next := by
    rw [hcell] at hcell'
    cases hcell'
    rfl
  subst hnext
  have hnodup := h.nodup
  rw [List.map_append, List.map_cons, List.nodup_append] at hnodup
  rcases hnodup with ⟨_, hnodup, hdisjoint⟩
  have hpfront : p ∉ front.map Prod.fst := fun hmem =>
    hdisjoint p hmem p List.mem_cons_self rfl
  have hpback := (List.nodup_cons.mp hnodup).1
  constructor
  · refine (hfront.put_of_not_mem hpfront _).append ⟨hb, next', heap.put_self _ _, ?_⟩
    exact hback.put_of_not_mem hpback _
  · simpa using h.nodup

theorem Linked.snoc {heap : Heap α} {head : Option Nat} {p q : Nat} {v w : α}
    {front : List (Nat × α)} (h : Linked heap head (front ++ [(p, v)]))
    (hq : q ∉ (front ++ [(p, v)]).map Prod.fst) (hcell : heap q = some ⟨w, none⟩) :
    Linked (heap.put p (some ⟨v, some q⟩)) head (front ++ [(p, v)] ++ [(q, w)]) := by
  rcases h.chain.split with ⟨b, hfront, hb, _, _, _⟩
  have hnodup := h.nodup
  rw [List.map_append, List.map_cons, List.nodup_append] at hnodup
  have hpfront : p ∉ front.map Prod.fst := fun hmem =>
    hnodup.2.2 p hmem p List.mem_cons_self rfl
  have hqp : q ≠ p := fun heq => hq (by simp [heq])
  constructor
  · rw [List.append_assoc]
    refine (hfront.put_of_not_mem hpfront _).append
      ⟨hb, some q, heap.put_self _ _, rfl, none, ?_, rfl⟩
    rw [heap.put_of_ne hqp]
    exact hcell
  · have hconcat := h.nodup.concat hq
    simpa [List.concat_eq_append] using hconcat

theorem Linked.unlink {heap : Heap α} {head next : Option Nat} {p q : Nat} {v w : α}
    {front back : List (Nat × α)}
    (h : Linked heap head (front ++ (p, v) :: (q, w) :: back))
    (hcell : heap q = some ⟨w, next⟩) :
    Linked ((heap.put p (some ⟨v, next⟩)).put q none) head (front ++ (p, v) :: back) := by
  rcases h.chain.split with ⟨b, hfront, hb, _, _, _, next', hcell', hback⟩
  have hnext : next' = next := by
    rw [hcell] at hcell'
    cases hcell'
    rfl
  subst hnext
  have hnodup := h.nodup
  rw [List.map_append, List.map_cons, List.map_cons, List.nodup_append] at hnodup
  rcases hnodup with ⟨hnfront, hnodup, hdisjoint⟩
  have hpfront : p ∉ front.map Prod.fst := fun hmem =>
    hdisjoint p hmem p (by simp) rfl
  have hqfront : q ∉ front.map Prod.fst := fun hmem =>
    hdisjoint q hmem q (by simp) rfl
  rcases List.nodup_cons.mp hnodup with ⟨hp, hnodup'⟩
  rcases List.nodup_cons.mp hnodup' with ⟨hq, _⟩
  have hpq : p ≠ q := fun heq => hp (by simp [heq])
  have hpback : p ∉ back.map Prod.fst := fun hmem => hp (List.mem_cons_of_mem _ hmem)
  constructor
  · refine ((hfront.put_of_not_mem hpfront _).put_of_not_mem hqfront _).append
      ⟨hb, next', ?_, (hback.put_of_not_mem hpback _).put_of_not_mem hq _⟩
    rw [Heap.put_of_ne _ hpq, heap.put_self]
  · have hsub : (front ++ (p, v) :: back).Sublist (front ++ (p, v) :: (q, w) :: back) :=
      List.Sublist.append_left (List.Sublist.cons_cons _ (List.sublist_cons_self _ _)) _
    exact h.nodup.sublist (hsub.map Prod.fst)

end Links

end Library
end ShadowFs

import Mathlib.Data.List.Induction
import Mathlib.Data.List.Nodup
import Mathlib.Logic.Function.Basic

/-!
# Insertion-ordered finite maps

A finite map together with the order in which its keys were inserted.  The
`graph` of such a map is the list of its pairs in that order; `graph_eq_iff` says
when a list of pairs is the graph, and the lemmas after it say what the three
operations do to the graph.
-/

namespace ShadowFs
namespace Library

structure OrderedMap (κ ν : Type) where
  keys : List κ
  lookup : κ -> Option ν
  nodup : keys.Nodup
  mem_keys : forall k, k ∈ keys <-> lookup k ≠ none

namespace OrderedMap

section Graph

variable {κ ν : Type}

/-- The pairs of the map in insertion order. -/
def graph (m : OrderedMap κ ν) : List (κ × ν) :=
  m.keys.filterMap (fun k => (m.lookup k).map (fun v => (k, v)))

/-!
## The graph
-/

theorem map_fst_filterMap (f : κ -> Option ν) (ks : List κ)
    (h : forall k, k ∈ ks -> f k ≠ none) :
    (ks.filterMap (fun k => (f k).map (fun v => (k, v)))).map Prod.fst = ks := by
  induction ks with
  | nil => rfl
  | cons k ks ih =>
      have hrest := ih (fun a ha => h a (List.mem_cons_of_mem k ha))
      cases hk : f k with
      | none => exact absurd hk (h k List.mem_cons_self)
      | some v =>
          rw [List.filterMap_cons, hk]
          simp [hrest]

theorem filterMap_map_fst (f : κ -> Option ν) (l : List (κ × ν))
    (h : forall e, e ∈ l -> f e.1 = some e.2) :
    (l.map Prod.fst).filterMap (fun k => (f k).map (fun v => (k, v))) = l := by
  induction l with
  | nil => rfl
  | cons e l ih =>
      have hrest := ih (fun a ha => h a (List.mem_cons_of_mem e ha))
      have he := h e List.mem_cons_self
      rw [List.map_cons, List.filterMap_cons, he]
      simp [hrest]

theorem graph_eq_iff {m : OrderedMap κ ν} {l : List (κ × ν)} :
    m.graph = l <-> m.keys = l.map Prod.fst ∧
      forall e, e ∈ l -> m.lookup e.1 = some e.2 := by
  constructor
  · intro h
    subst h
    constructor
    · symm
      exact map_fst_filterMap m.lookup m.keys (fun k hk => (m.mem_keys k).mp hk)
    · intro e he
      rcases List.mem_filterMap.mp he with ⟨k, _, hk⟩
      rcases Option.map_eq_some_iff.mp hk with ⟨v, hv, hpair⟩
      rw [← hpair]
      exact hv
  · rintro ⟨hkeys, hlookup⟩
    rw [graph, hkeys]
    exact filterMap_map_fst m.lookup l hlookup

theorem ne_of_graph_split {m : OrderedMap κ ν} {front back : List (κ × ν)} {k : κ}
    {v : ν} (h : m.graph = front ++ (k, v) :: back) {e : κ × ν}
    (he : e ∈ front ∨ e ∈ back) : e.1 ≠ k := by
  have hnodup := m.nodup
  rw [(graph_eq_iff.mp h).1, List.map_append, List.map_cons, List.nodup_append] at hnodup
  rcases hnodup with ⟨_, hback, hdisjoint⟩
  cases he with
  | inl hfront =>
      exact hdisjoint e.1 (List.mem_map_of_mem hfront) k List.mem_cons_self
  | inr hmem =>
      intro hk
      have hmap := List.mem_map_of_mem (f := Prod.fst) hmem
      rw [hk] at hmap
      exact (List.nodup_cons.mp hback).1 hmap

end Graph

/-!
## Operations
-/

section Operations

variable {κ ν : Type} [DecidableEq κ]

/-- A new key goes to the end of the order. -/
def insertLast (m : OrderedMap κ ν) (k : κ) (v : ν) (h : m.lookup k = none) :
    OrderedMap κ ν where
  keys := m.keys ++ [k]
  lookup := Function.update m.lookup k (some v)
  nodup := by
    have hk : k ∉ m.keys := by
      rw [m.mem_keys, not_not]
      exact h
    have hconcat := m.nodup.concat hk
    rwa [List.concat_eq_append] at hconcat
  mem_keys := by
    intro a
    by_cases ha : a = k
    · simp [ha]
    · simp [ha, m.mem_keys]

/-- The key disappears and the others keep their order. -/
def erase (m : OrderedMap κ ν) (k : κ) : OrderedMap κ ν where
  keys := m.keys.erase k
  lookup := Function.update m.lookup k none
  nodup := m.nodup.erase k
  mem_keys := by
    intro a
    rw [m.nodup.mem_erase_iff]
    by_cases ha : a = k
    · simp [ha]
    · simp [ha, m.mem_keys]

/-- The value of the key changes, if it has one; the order does not. -/
def modify (m : OrderedMap κ ν) (k : κ) (f : ν -> ν) : OrderedMap κ ν where
  keys := m.keys
  lookup := Function.update m.lookup k ((m.lookup k).map f)
  nodup := m.nodup
  mem_keys := by
    intro a
    by_cases ha : a = k
    · simp [ha, m.mem_keys]
    · simp [ha, m.mem_keys]

/-!
## The graph after an operation
-/

theorem graph_insertLast {m : OrderedMap κ ν} {k : κ} (v : ν) (h : m.lookup k = none) :
    (m.insertLast k v h).graph = m.graph ++ [(k, v)] := by
  rcases graph_eq_iff.mp (rfl : m.graph = m.graph) with ⟨hkeys, hlookup⟩
  apply graph_eq_iff.mpr
  constructor
  · simp [insertLast, hkeys]
  · intro e he
    rcases List.mem_append.mp he with hold | hnew
    · have hne : e.1 ≠ k := by
        intro hk
        have hsome := hlookup e hold
        rw [hk, h] at hsome
        cases hsome
      simpa [insertLast, hne] using hlookup e hold
    · rw [List.mem_singleton.mp hnew]
      simp [insertLast]

/-- Every list of pairs with distinct keys is the graph of a map. -/
theorem exists_graph_eq {l : List (κ × ν)}
    (h : (l.map Prod.fst).Nodup) : exists m : OrderedMap κ ν, m.graph = l := by
  induction l using List.reverseRecOn with
  | nil =>
      let m : OrderedMap κ ν :=
        { keys := []
          lookup := fun _ => none
          nodup := List.nodup_nil
          mem_keys := by simp }
      exact ⟨m, rfl⟩
  | append_singleton l e ih =>
      rw [List.map_append, List.nodup_append] at h
      rcases ih h.1 with ⟨m, hm⟩
      have hkeys := (graph_eq_iff.mp hm).1
      have hnew : m.lookup e.1 = none := by
        have hnot : e.1 ∉ m.keys := by
          intro hmem
          rw [hkeys] at hmem
          exact h.2.2 e.1 hmem e.1 (by simp) rfl
        rw [m.mem_keys, not_not] at hnot
        exact hnot
      refine ⟨m.insertLast e.1 e.2 hnew, ?_⟩
      rw [graph_insertLast, hm]

theorem graph_erase {m : OrderedMap κ ν} {front back : List (κ × ν)} {k : κ} {v : ν}
    (h : m.graph = front ++ (k, v) :: back) :
    (m.erase k).graph = front ++ back := by
  rcases graph_eq_iff.mp h with ⟨hkeys, hlookup⟩
  apply graph_eq_iff.mpr
  constructor
  · have hfront : k ∉ front.map Prod.fst := by
      intro hmem
      rcases List.mem_map.mp hmem with ⟨e, he, hk⟩
      exact ne_of_graph_split h (Or.inl he) hk
    simp [erase, hkeys, List.erase_append_right _ hfront]
  · intro e he
    have hmem := List.mem_append.mp he
    have hne := ne_of_graph_split h hmem
    have hin : e ∈ front ++ (k, v) :: back := by
      cases hmem with
      | inl hfront => exact List.mem_append_left _ hfront
      | inr hback => exact List.mem_append_right _ (List.mem_cons_of_mem _ hback)
    simpa [erase, hne] using hlookup e hin

theorem graph_modify {m : OrderedMap κ ν} {front back : List (κ × ν)} {k : κ} {v : ν}
    (h : m.graph = front ++ (k, v) :: back) (f : ν -> ν) :
    (m.modify k f).graph = front ++ (k, f v) :: back := by
  rcases graph_eq_iff.mp h with ⟨hkeys, hlookup⟩
  have hv : m.lookup k = some v := hlookup (k, v) (by simp)
  apply graph_eq_iff.mpr
  constructor
  · simp [modify, hkeys]
  · intro e he
    rcases List.mem_append.mp he with hfront | hback
    · have hne := ne_of_graph_split h (Or.inl hfront)
      simpa [modify, hne] using hlookup e (List.mem_append_left _ hfront)
    · rcases List.mem_cons.mp hback with heq | hmem
      · rw [heq]
        simp [modify, hv]
      · have hne := ne_of_graph_split h (Or.inr hmem)
        simpa [modify, hne] using
          hlookup e (List.mem_append_right _ (List.mem_cons_of_mem _ hmem))

end Operations

end OrderedMap

end Library
end ShadowFs

import Mathlib.Data.List.Nodup
import Mathlib.Logic.Function.Basic

/-!
# Lines of ancestors

A parent function makes a forest as soon as the way up from every element ends.  `Line` says
that it does, and lists the elements on it.  The lemmas state that the line is determined by
its first element, that no element is twice on it, and what a change of one parent does to
the lines of the forest.
-/

namespace ShadowFs.Library

section Ancestry

variable {α : Type}

/-- The way up from `a` passes through the given elements, `a` included, and ends. -/
inductive Line (parent : α -> Option α) : α -> List α -> Prop
  | top {a : α} (h : parent a = none) : Line parent a [a]
  | up {a b : α} {line : List α} (h : parent a = some b) (hline : Line parent b line) :
      Line parent a (a :: line)

variable {parent : α -> Option α} {a b x : α} {line : List α}

theorem Line.mem_self (h : Line parent a line) : a ∈ line := by
  cases h with
  | top h => exact List.mem_singleton_self a
  | up h hline => exact List.mem_cons_self

theorem Line.eq_cons (h : Line parent a line) : exists above, line = a :: above := by
  cases h with
  | top h => exact ⟨[], rfl⟩
  | up h hline => exact ⟨_, rfl⟩

/-- The line is determined by its first element. -/
theorem Line.unique (h : Line parent a line) {line' : List α} (h' : Line parent a line') :
    line = line' := by
  induction h generalizing line' with
  | top htop =>
      cases h' with
      | top _ => rfl
      | up hup hline =>
          rw [htop] at hup
          cases hup
  | up hup hline ih =>
      cases h' with
      | top htop =>
          rw [htop] at hup
          cases hup
      | up hup' hline' =>
          rw [hup] at hup'
          cases hup'
          rw [ih hline']

theorem Line.of_parent (h : Line parent a line) (hparent : parent a = some b) :
    exists above, line = a :: above ∧ Line parent b above := by
  cases h with
  | top htop =>
      rw [htop] at hparent
      cases hparent
  | up hup hline =>
      rw [hup] at hparent
      cases hparent
      exact ⟨_, rfl, hline⟩

theorem Line.of_mem (h : Line parent a line) (hx : x ∈ line) :
    exists below above, line = below ++ above ∧ Line parent x above := by
  induction h with
  | top htop =>
      cases List.mem_singleton.mp hx
      exact ⟨[], _, rfl, Line.top htop⟩
  | up hup hline ih =>
      rcases List.mem_cons.mp hx with hself | htail
      · cases hself
        exact ⟨[], _, rfl, Line.up hup hline⟩
      · rcases ih htail with ⟨below, above, heq, habove⟩
        exact ⟨_ :: below, above, by rw [heq, List.cons_append], habove⟩

/-- An element above itself would have two lines. -/
theorem Line.nodup (h : Line parent a line) : line.Nodup := by
  induction h with
  | top htop => exact List.nodup_singleton _
  | up hup hline ih =>
      refine List.nodup_cons.mpr ⟨?_, ih⟩
      intro hmem
      rcases hline.of_mem hmem with ⟨below, above, heq, habove⟩
      have hself := congrArg List.length (habove.unique (Line.up hup hline))
      have hlength := congrArg List.length heq
      rw [List.length_append] at hlength
      rw [List.length_cons] at hself
      lia

/-- Every element of a line but the first is the parent of one of them. -/
theorem Line.exists_child (h : Line parent a line) (hx : x ∈ line) :
    x = a ∨ exists c, c ∈ line ∧ parent c = some x := by
  induction h with
  | top htop => exact Or.inl (List.mem_singleton.mp hx)
  | up hup hline ih =>
      rcases List.mem_cons.mp hx with hself | htail
      · exact Or.inl hself
      · right
        rcases ih htail with hfirst | ⟨c, hc, hparent⟩
        · cases hfirst
          exact ⟨_, List.mem_cons_self, hup⟩
        · exact ⟨c, List.mem_cons_of_mem _ hc, hparent⟩

theorem Line.congr {parent' : α -> Option α} (h : Line parent a line)
    (hsame : forall x, x ∈ line -> parent' x = parent x) : Line parent' a line := by
  induction h with
  | top htop =>
      refine Line.top ?_
      rw [hsame _ (List.mem_singleton_self _), htop]
  | up hup hline ih =>
      refine Line.up ?_ (ih (fun x hx => hsame x (List.mem_cons_of_mem _ hx)))
      rw [hsame _ List.mem_cons_self, hup]

/-- With fewer parents the way up is no longer. -/
theorem Line.subset_of_fewer {parent' : α -> Option α} {line' : List α}
    (h' : Line parent' a line') (h : Line parent a line)
    (hfewer : forall x y, parent' x = some y -> parent x = some y) :
    forall x, x ∈ line' -> x ∈ line := by
  induction h' generalizing line with
  | top htop =>
      intro x hx
      rw [List.mem_singleton.mp hx]
      exact h.mem_self
  | up hup hline ih =>
      rcases h.of_parent (hfewer _ _ hup) with ⟨above, rfl, habove⟩
      intro x hx
      rcases List.mem_cons.mp hx with hself | htail
      · rw [hself]
        exact List.mem_cons_self
      · exact List.mem_cons_of_mem _ (ih habove x htail)

theorem Line.subset (h : Line parent a line) {P : α -> Prop} (ha : P a)
    (hclosed : forall x y, P x -> parent x = some y -> P y) :
    forall x, x ∈ line -> P x := by
  induction h with
  | top htop =>
      intro x hx
      rw [List.mem_singleton.mp hx]
      exact ha
  | up hup hline ih =>
      intro x hx
      rcases List.mem_cons.mp hx with hself | htail
      · rw [hself]
        exact ha
      · exact ih (hclosed _ _ ha hup) x htail

variable [DecidableEq α]

/-- One element loses its parent: every way up still ends. -/
theorem Line.cut (h : Line parent a line) (x : α) :
    exists line', Line (Function.update parent x none) a line' := by
  induction h with
  | @top a htop =>
      refine ⟨[a], Line.top ?_⟩
      by_cases hax : a = x
      · rw [hax, Function.update_self]
      · rw [Function.update_of_ne hax, htop]
  | @up a b line hup hline ih =>
      by_cases hax : a = x
      · refine ⟨[a], Line.top ?_⟩
        rw [hax, Function.update_self]
      · rcases ih with ⟨line', hline'⟩
        refine ⟨a :: line', Line.up ?_ hline'⟩
        rw [Function.update_of_ne hax, hup]

/-- One element gets a parent that is not below it: every way up still ends. -/
theorem Line.graft (h : Line parent a line) {b : α} {above : List α}
    (hb : Line parent b above) (hx : x ∉ above) :
    exists line', Line (Function.update parent x (some b)) a line' := by
  have habove : Line (Function.update parent x (some b)) b above := by
    refine hb.congr ?_
    intro y hy
    have hne : y ≠ x := by
      rintro rfl
      exact hx hy
    exact Function.update_of_ne hne _ _
  have hself : Line (Function.update parent x (some b)) x (x :: above) :=
    Line.up (Function.update_self x _ _) habove
  induction h with
  | @top a htop =>
      by_cases hax : a = x
      · rw [hax]
        exact ⟨_, hself⟩
      · refine ⟨[a], Line.top ?_⟩
        rw [Function.update_of_ne hax, htop]
  | @up a c line hup hline ih =>
      by_cases hax : a = x
      · rw [hax]
        exact ⟨_, hself⟩
      · rcases ih with ⟨line', hline'⟩
        refine ⟨a :: line', Line.up ?_ hline'⟩
        rw [Function.update_of_ne hax, hup]

end Ancestry

end ShadowFs.Library

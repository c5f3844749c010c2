import Mathlib.Init

/-!
# Runs of a fallible step function

A system is a function that takes an input and a state to the next state, or
fails.  `run` feeds it a list of inputs.  The invariant rules reduce a statement
about every run to one about a single step; `Guarded` restricts the runs to
those whose every step meets a condition on its input and the state before it.

`Matched` compares a run with an abstract transition system: every step returns,
is matched by an abstract step with the same output, and a relation between the
two states holds throughout.
-/

namespace ShadowFs
namespace Library

variable {α σ ε : Type}

def run (step : α -> σ -> Except ε σ) : List α -> σ -> Except ε σ
  | [], s => .ok s
  | a :: as, s =>
      match step a s with
      | .error e => .error e
      | .ok s' => run step as s'

/-- Every step of the run meets `P` in the state it starts from. -/
def Guarded (step : α -> σ -> Except ε σ) (P : α -> σ -> Prop) :
    List α -> σ -> Prop
  | [], _ => True
  | a :: as, s => P a s ∧ forall s', step a s = .ok s' -> Guarded step P as s'

theorem guarded_cons_iff {step : α -> σ -> Except ε σ} {P : α -> σ -> Prop} {a : α}
    {s s' : σ} (hstep : step a s = .ok s') (as : List α) :
    Guarded step P (a :: as) s <-> P a s ∧ Guarded step P as s' := by
  constructor
  · exact fun h => ⟨h.1, h.2 s' hstep⟩
  · rintro ⟨hfirst, hrest⟩
    refine ⟨hfirst, ?_⟩
    intro s1 h1
    rw [hstep] at h1
    cases h1
    exact hrest

theorem Guarded.imp {step : α -> σ -> Except ε σ} {P Q : α -> σ -> Prop} {as : List α} {s : σ}
    (h : Guarded step P as s) (hPQ : forall a s, P a s -> Q a s) : Guarded step Q as s := by
  induction as generalizing s with
  | nil => trivial
  | cons a as ih => exact ⟨hPQ a s h.1, fun s' hs' => ih (h.2 s' hs')⟩

theorem run_cons_ok {step : α -> σ -> Except ε σ} {a : α} {as : List α} {s s'' : σ}
    (h : run step (a :: as) s = .ok s'') :
    exists s', step a s = .ok s' ∧ run step as s' = .ok s'' := by
  cases hstep : step a s with
  | error e =>
      rw [run, hstep] at h
      cases h
  | ok s' =>
      rw [run, hstep] at h
      exact ⟨s', rfl, h⟩

/-- What every guarded step preserves holds at the end of a guarded run. -/
theorem run_invariant {step : α -> σ -> Except ε σ} {P : α -> σ -> Prop}
    {I : σ -> Prop}
    (hstep : forall a s s', P a s -> I s -> step a s = .ok s' -> I s')
    (as : List α) (s s' : σ) (hguard : Guarded step P as s) (hs : I s)
    (hrun : run step as s = .ok s') : I s' := by
  induction as generalizing s with
  | nil =>
      cases hrun
      exact hs
  | cons a as ih =>
      rcases run_cons_ok hrun with ⟨s1, h1, hrest⟩
      exact ih s1 (hguard.2 s1 h1) (hstep a s s1 hguard.1 hs h1) hrest

/-!
## Properties of every state of a run
-/

/-- `I` holds in every state of the run, the first and the last included. -/
def Always (step : α -> σ -> Except ε σ) (I : σ -> Prop) : List α -> σ -> Prop
  | [], s => I s
  | a :: as, s => I s ∧ forall s', step a s = .ok s' -> Always step I as s'

theorem Always.start {step : α -> σ -> Except ε σ} {I : σ -> Prop} {as : List α} {s : σ}
    (h : Always step I as s) : I s := by
  cases as with
  | nil => exact h
  | cons a as => exact h.1

/-- A condition that decides at each step whether the property survives it decides
whether the property holds throughout.  `J` is what else is known of the states. -/
theorem always_iff_guarded {step : α -> σ -> Except ε σ} {Q : α -> Prop}
    {P : α -> σ -> Prop} {I J : σ -> Prop}
    (hJ : forall a s s', Q a -> J s -> step a s = .ok s' -> J s')
    (hstep : forall a s s', Q a -> J s -> I s -> step a s = .ok s' -> (P a s <-> I s'))
    (hstuck : forall a s e, step a s = .error e -> P a s)
    (as : List α) (s : σ) (has : forall a, a ∈ as -> Q a) (hj : J s) (hs : I s) :
    Always step I as s <-> Guarded step P as s := by
  induction as generalizing s with
  | nil => exact ⟨fun _ => trivial, fun _ => hs⟩
  | cons a as ih =>
      have ha := has a List.mem_cons_self
      have htail : forall b, b ∈ as -> Q b :=
        fun b hb => has b (List.mem_cons_of_mem a hb)
      cases hnext : step a s with
      | error e =>
          constructor
          · intro _
            refine ⟨hstuck a s e hnext, ?_⟩
            intro s' hs'
            rw [hnext] at hs'
            cases hs'
          · intro _
            refine ⟨hs, ?_⟩
            intro s' hs'
            rw [hnext] at hs'
            cases hs'
      | ok s1 =>
          have hj1 := hJ a s s1 ha hj hnext
          have hone := hstep a s s1 ha hj hs hnext
          constructor
          · intro h
            have hs1 := h.2 s1 hnext
            refine ⟨hone.mpr hs1.start, ?_⟩
            intro s' hs'
            rw [hnext] at hs'
            cases hs'
            exact (ih s1 htail hj1 hs1.start).mp hs1
          · intro h
            refine ⟨hs, ?_⟩
            intro s' hs'
            rw [hnext] at hs'
            cases hs'
            exact (ih s1 htail hj1 (hone.mp h.1)).mpr (h.2 s1 hnext)

/-!
## Simulation
-/

section Simulation

variable {β τ : Type}

/-- The run over the inputs exists and follows the abstract system from `t`, with
`R` between the states before, between and after its steps. -/
inductive Matched (step : α -> σ -> Except ε (β × σ)) (astep : α -> β -> τ -> τ -> Prop)
    (R : σ -> τ -> Prop) : List α -> σ -> τ -> Prop where
  | done {s : σ} {t : τ} : R s t -> Matched step astep R [] s t
  | next {a : α} {as : List α} {b : β} {s s' : σ} {t t' : τ} :
      R s t -> step a s = .ok (b, s') -> astep a b t t' ->
      Matched step astep R as s' t' -> Matched step astep R (a :: as) s t

/-- A relation that every step reestablishes carries over to runs. -/
theorem matched_of_step {step : α -> σ -> Except ε (β × σ)}
    {astep : α -> β -> τ -> τ -> Prop} {P : α -> Prop} {I R : σ -> τ -> Prop}
    (hstep : forall a s t, P a -> I s t ->
      exists b s' t', step a s = .ok (b, s') ∧ astep a b t t' ∧ I s' t')
    (hR : forall s t, I s t -> R s t) (as : List α) (s : σ) (t : τ)
    (has : forall a, a ∈ as -> P a) (h : I s t) : Matched step astep R as s t := by
  induction as generalizing s t with
  | nil => exact Matched.done (hR s t h)
  | cons a as ih =>
      rcases hstep a s t (has a List.mem_cons_self) h with ⟨b, s', t', hs, ht, h'⟩
      have htail : forall c, c ∈ as -> P c :=
        fun c hc => has c (List.mem_cons_of_mem a hc)
      exact Matched.next (hR s t h) hs ht (ih s' t' htail h')

end Simulation

end Library
end ShadowFs

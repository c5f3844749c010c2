import Mathlib.Data.List.Basic

/-!
# Frames in a stream

Records that are written one behind the other and read back in pieces of any size.  A piece
may end in the middle of a frame; a reader keeps the frames that are complete and goes on
behind the last of them.
-/

namespace ShadowFs.Library

section Frames

variable {α β : Type}

/-- The codec of a frame: it is read back from the front of any text, and not from a part of
itself. -/
structure Framing (enc : α -> List β) (dec : List β -> Option (α × List β)) : Prop where
  decode : forall a rest, dec (enc a ++ rest) = some (a, rest)
  cut : forall a n, n < (enc a).length -> dec ((enc a).take n) = none
  nonempty : forall a, 0 < (enc a).length

/-- The complete frames at the front of a text. -/
def framesWithin (dec : List β -> Option (α × List β)) : Nat -> List β -> List α
  | 0, _ => []
  | rounds + 1, text =>
      match dec text with
      | none => []
      | some (a, rest) => a :: framesWithin dec rounds rest

/-- A text has no more frames than elements. -/
def frames (dec : List β -> Option (α × List β)) (text : List β) : List α :=
  framesWithin dec text.length text

/-- The frames that fit into a piece of the given size. -/
def fitting (enc : α -> List β) : Nat -> List α -> List α
  | _, [] => []
  | size, a :: as =>
      if (enc a).length ≤ size then a :: fitting enc (size - (enc a).length) as else []

theorem fitting_append_drop (enc : α -> List β) (size : Nat) (as : List α) :
    fitting enc size as ++ as.drop (fitting enc size as).length = as := by
  induction as generalizing size with
  | nil => rfl
  | cons a as ih =>
      rw [fitting]
      split
      · rw [List.cons_append, List.length_cons, List.drop_succ_cons, ih]
      · rfl

theorem fitting_ne_nil {enc : α -> List β} {size : Nat} {a : α} {as : List α}
    (h : (enc a).length ≤ size) : fitting enc size (a :: as) ≠ [] := by
  rw [fitting, if_pos h]
  exact List.cons_ne_nil _ _

variable {enc : α -> List β} {dec : List β -> Option (α × List β)}

theorem Framing.decode_nil (h : Framing enc dec) (a : α) : dec [] = none := by
  have hcut := h.cut a 0 (h.nonempty a)
  rw [List.take_zero] at hcut
  exact hcut

theorem Framing.framesWithin_take (h : Framing enc dec) (as : List α) {size rounds : Nat}
    (hrounds : ((as.flatMap enc).take size).length ≤ rounds) :
    framesWithin dec rounds ((as.flatMap enc).take size) = fitting enc size as := by
  induction as generalizing size rounds with
  | nil =>
      cases rounds with
      | zero => rfl
      | succ rounds =>
          rw [List.flatMap_nil, List.take_nil, framesWithin, fitting]
          cases hdec : dec [] with
          | none => rfl
          | some res =>
              rw [h.decode_nil res.1] at hdec
              cases hdec
  | cons a as ih =>
      have hpos := h.nonempty a
      rw [List.flatMap_cons] at hrounds ⊢
      rw [fitting]
      by_cases hfit : (enc a).length ≤ size
      · rw [List.take_append, List.take_of_length_le hfit, List.length_append] at hrounds
        cases rounds with
        | zero => lia
        | succ rounds =>
            rw [if_pos hfit, List.take_append, List.take_of_length_le hfit, framesWithin,
              h.decode]
            dsimp only
            rw [ih (by lia)]
      · have hshort : size ≤ (enc a).length := by lia
        rw [if_neg hfit, List.take_append_of_le_length hshort]
        cases rounds with
        | zero => rfl
        | succ rounds =>
            rw [framesWithin, h.cut a size (by lia)]

theorem Framing.frames_take (h : Framing enc dec) (as : List α) (size : Nat) :
    frames dec ((as.flatMap enc).take size) = fitting enc size as :=
  h.framesWithin_take as (Nat.le_refl _)

/-- A piece that the next frame fits into brings the reader forward. -/
theorem Framing.exists_frames_take (h : Framing enc dec) {as : List α} {size : Nat}
    (hsize : forall a, a ∈ as -> (enc a).length ≤ size) :
    exists got rest, as = got ++ rest ∧ frames dec ((as.flatMap enc).take size) = got ∧
      (got = [] -> as = []) := by
  refine ⟨fitting enc size as, as.drop (fitting enc size as).length, ?_, ?_, ?_⟩
  · exact (fitting_append_drop enc size as).symm
  · exact h.frames_take as size
  · intro hnone
    cases as with
    | nil => rfl
    | cons a as => exact absurd hnone (fitting_ne_nil (hsize a List.mem_cons_self))

end Frames

end ShadowFs.Library

import Mathlib.Data.List.Basic

/-!
# Separated fields with an escape symbol

A text of fields with a separator between them.  In a field the separator and the escape
symbol are written with an escape symbol in front; a reader may know further codes behind
it.  What is joined is split into the same fields.
-/

namespace ShadowFs.Library

/-- What is read next: the end of a field, or a symbol of it. -/
inductive Symbol (β : Type) where
  | separator
  | literal (b : β)

/-- A separator, an escape symbol and the codes that stand behind one. -/
structure Escaping (β : Type) where
  sep : β
  esc : β
  code : List β -> Option (β × List β)
  code_of_special : forall b text, b = sep ∨ b = esc -> code (b :: text) = none
  code_shorter : forall {text b rest}, code text = some (b, rest) -> rest.length < text.length

namespace Escaping

variable {β : Type} [DecidableEq β] (e : Escaping β)

/-- A field as it is written. -/
def escape : List β -> List β
  | [] => []
  | b :: field =>
      if b = e.sep ∨ b = e.esc then e.esc :: b :: escape field else b :: escape field

/-- The symbol behind an escape symbol, which stands for itself at the end. -/
def afterEscape : List β -> β × List β
  | [] => (e.esc, [])
  | c :: text =>
      match e.code (c :: text) with
      | some res => res
      | none => (c, text)

def nextSymbol : List β -> Option (Symbol β × List β)
  | [] => none
  | b :: text =>
      if b = e.sep then some (.separator, text)
      else if b = e.esc then some (.literal (e.afterEscape text).1, (e.afterEscape text).2)
      else some (.literal b, text)

/-- The fields of a text, from the part of the first one that has been read. -/
def splitWithin : Nat -> List β -> List β -> List (List β)
  | 0, field, _ => [field]
  | rounds + 1, field, text =>
      match e.nextSymbol text with
      | none => [field]
      | some (.separator, rest) => field :: splitWithin rounds [] rest
      | some (.literal b, rest) => splitWithin rounds (field ++ [b]) rest

/-- The fields with separators between them. -/
def join : List (List β) -> List β
  | [] => []
  | [field] => e.escape field
  | field :: fields => e.escape field ++ e.sep :: join fields

/-!
## Splitting
-/

omit [DecidableEq β] in
theorem afterEscape_of_none {c : β} {text : List β} (h : e.code (c :: text) = none) :
    e.afterEscape (c :: text) = (c, text) := by
  rw [afterEscape, h]

omit [DecidableEq β] in
theorem afterEscape_of_some {c : β} {text : List β} {res : β × List β}
    (h : e.code (c :: text) = some res) : e.afterEscape (c :: text) = res := by
  rw [afterEscape, h]

omit [DecidableEq β] in
theorem afterEscape_length_le (text : List β) :
    (e.afterEscape text).2.length ≤ text.length := by
  cases text with
  | nil => exact Nat.le_refl _
  | cons c text =>
      rw [afterEscape]
      cases hcode : e.code (c :: text) with
      | none => exact Nat.le_succ _
      | some res => exact Nat.le_of_lt (e.code_shorter hcode)

theorem nextSymbol_shorter {text rest : List β} {s : Symbol β}
    (h : e.nextSymbol text = some (s, rest)) : rest.length < text.length := by
  cases text with
  | nil => cases h
  | cons b text =>
      rw [nextSymbol] at h
      split at h
      · cases h
        exact Nat.lt_succ_self _
      · split at h
        · cases h
          exact Nat.lt_succ_of_le (e.afterEscape_length_le text)
        · cases h
          exact Nat.lt_succ_self _

theorem splitWithin_eq {rounds rounds' : Nat} (field : List β) {text : List β}
    (h : text.length ≤ rounds) (h' : text.length ≤ rounds') :
    e.splitWithin rounds field text = e.splitWithin rounds' field text := by
  induction rounds generalizing rounds' field text with
  | zero =>
      have hnil : text = [] := List.eq_nil_of_length_eq_zero (by lia)
      subst hnil
      cases rounds' <;> rfl
  | succ rounds ih =>
      cases rounds' with
      | zero =>
          have hnil : text = [] := List.eq_nil_of_length_eq_zero (by lia)
          subst hnil
          rfl
      | succ rounds' =>
          rw [splitWithin, splitWithin]
          cases hnext : e.nextSymbol text with
          | none => rfl
          | some res =>
              rcases res with ⟨s, rest⟩
              have hshort := e.nextSymbol_shorter hnext
              have hrest : rest.length ≤ rounds := by lia
              have hrest' : rest.length ≤ rounds' := by lia
              cases s with
              | separator =>
                  dsimp only
                  rw [ih [] hrest hrest']
              | literal b => exact ih (field ++ [b]) hrest hrest'

/-- The fields of a text behind the part of the first one that has been read. -/
def splitFrom (field text : List β) : List (List β) :=
  e.splitWithin text.length field text

def split (text : List β) : List (List β) :=
  e.splitFrom [] text

theorem splitFrom_none {field text : List β} (h : e.nextSymbol text = none) :
    e.splitFrom field text = [field] := by
  rw [splitFrom]
  cases text with
  | nil => rfl
  | cons b text =>
      rw [List.length_cons, splitWithin, h]

theorem splitFrom_separator {field text rest : List β}
    (h : e.nextSymbol text = some (.separator, rest)) :
    e.splitFrom field text = field :: e.splitFrom [] rest := by
  have hshort := e.nextSymbol_shorter h
  rw [splitFrom, e.splitWithin_eq field (Nat.le_refl _) (Nat.le_succ _), splitWithin, h]
  dsimp only
  rw [splitFrom, e.splitWithin_eq [] (Nat.le_of_lt hshort) (Nat.le_refl _)]

theorem splitFrom_literal {field text rest : List β} {b : β}
    (h : e.nextSymbol text = some (.literal b, rest)) :
    e.splitFrom field text = e.splitFrom (field ++ [b]) rest := by
  have hshort := e.nextSymbol_shorter h
  rw [splitFrom, e.splitWithin_eq field (Nat.le_refl _) (Nat.le_succ _), splitWithin, h]
  dsimp only
  rw [splitFrom, e.splitWithin_eq (field ++ [b]) (Nat.le_of_lt hshort) (Nat.le_refl _)]

/-!
## What was joined
-/

/-- The symbol in front of a field is read back, escaped or not. -/
theorem nextSymbol_escape (hne : e.sep ≠ e.esc) (b : β) (field tail : List β) :
    e.nextSymbol (e.escape (b :: field) ++ tail) =
      some (.literal b, e.escape field ++ tail) := by
  rw [escape]
  split
  · rename_i hspecial
    rw [List.cons_append, List.cons_append, nextSymbol, if_neg hne.symm, if_pos rfl, afterEscape,
      e.code_of_special b _ hspecial]
  · rename_i hplain
    have hsep : b ≠ e.sep := fun h => hplain (Or.inl h)
    have hesc : b ≠ e.esc := fun h => hplain (Or.inr h)
    rw [List.cons_append, nextSymbol, if_neg hsep, if_neg hesc]

theorem splitFrom_escape (hne : e.sep ≠ e.esc) (read field tail : List β) :
    e.splitFrom read (e.escape field ++ tail) = e.splitFrom (read ++ field) tail := by
  induction field generalizing read with
  | nil =>
      rw [escape, List.nil_append, List.append_nil]
  | cons b field ih =>
      rw [e.splitFrom_literal (e.nextSymbol_escape hne b field tail), ih, List.append_assoc,
        List.singleton_append]

theorem join_cons {fields : List (List β)} (h : fields ≠ []) (field : List β) :
    e.join (field :: fields) = e.escape field ++ e.sep :: e.join fields := by
  cases fields with
  | nil => exact absurd rfl h
  | cons next fields => rfl

theorem join_snoc {fields : List (List β)} (h : fields ≠ []) (field : List β) :
    e.join (fields ++ [field]) = e.join fields ++ e.sep :: e.escape field := by
  induction fields with
  | nil => exact absurd rfl h
  | cons first fields ih =>
      cases fields with
      | nil => rfl
      | cons next fields =>
          have hnext : next :: fields ≠ [] := List.cons_ne_nil _ _
          have hmore : (next :: fields) ++ [field] ≠ [] :=
            List.append_ne_nil_of_left_ne_nil hnext _
          rw [List.cons_append, e.join_cons hmore, ih hnext, e.join_cons hnext,
            List.append_assoc, List.cons_append]

theorem split_join (hne : e.sep ≠ e.esc) {fields : List (List β)} (h : fields ≠ []) :
    e.split (e.join fields) = fields := by
  rw [split]
  induction fields with
  | nil => exact absurd rfl h
  | cons field fields ih =>
      cases fields with
      | nil =>
          have hend := e.splitFrom_escape hne [] field []
          rw [List.append_nil, List.nil_append] at hend
          rw [join, hend]
          exact e.splitFrom_none rfl
      | cons next fields =>
          have hsep : e.nextSymbol (e.sep :: e.join (next :: fields)) =
              some (.separator, e.join (next :: fields)) := by
            rw [nextSymbol, if_pos rfl]
          have hnext : next :: fields ≠ [] := List.cons_ne_nil _ _
          rw [e.join_cons hnext, e.splitFrom_escape hne, List.nil_append,
            e.splitFrom_separator hsep, ih hnext]

end Escaping

end ShadowFs.Library

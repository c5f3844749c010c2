import ShadowFs.CLib.CString

/-!
# Tokens and lines: `strtok` and `fgets`

`strtok` is modelled by the pointer it keeps between calls: a call takes the
text still to be split and returns the next token together with the text after
it.  Leading delimiters are skipped, so adjacent delimiters never produce an
empty token.

`fgets` takes what is left of a stream and returns the bytes it stores, at most
one less than the size of the buffer and ending after the first newline.  A
reading loop sees the list `readLines` of all these chunks.
-/

namespace ShadowFs
namespace CLib

/-!
## `strtok`
-/

def strtok (delim : Byte) (s : List Byte) : Option (List Byte × List Byte) :=
  match s.dropWhile (fun b => b = delim) with
  | [] => none
  | b :: rest =>
      some ((b :: rest).takeWhile (fun c => c ≠ delim),
        ((b :: rest).dropWhile (fun c => c ≠ delim)).drop 1)

@[simp] theorem strtok_nil (delim : Byte) : strtok delim [] = none := rfl

@[simp] theorem strtok_delim_cons (delim : Byte) (s : List Byte) :
    strtok delim (delim :: s) = strtok delim s := by
  simp [strtok]

theorem strtok_field {delim : Byte} {field : List Byte} (rest : List Byte)
    (hne : field ≠ []) (hfree : delim ∉ field) :
    strtok delim (field ++ delim :: rest) = some (field, rest) := by
  have hall := forall_ne_of_not_mem hfree
  have htake : (field ++ delim :: rest).takeWhile (fun c => c ≠ delim) = field := by
    rw [List.takeWhile_append_of_pos hall]
    simp
  have hdrop : (field ++ delim :: rest).dropWhile (fun c => c ≠ delim) =
      delim :: rest := by
    rw [List.dropWhile_append_of_pos hall]
    simp
  cases field with
  | nil => exact absurd rfl hne
  | cons b field =>
      have hb : b ≠ delim := fun heq => hfree (by simp [heq])
      have hskip : (b :: field ++ delim :: rest).dropWhile (fun c => c = delim) =
          b :: (field ++ delim :: rest) := by
        simp [hb]
      rw [List.cons_append] at htake hdrop hskip
      rw [strtok, List.cons_append, hskip]
      simp only [htake, hdrop, List.drop_succ_cons, List.drop_zero]

theorem strtok_last {delim : Byte} {field : List Byte}
    (hne : field ≠ []) (hfree : delim ∉ field) :
    strtok delim field = some (field, []) := by
  have hall := forall_ne_of_not_mem hfree
  have htake : field.takeWhile (fun c => c ≠ delim) = field :=
    List.takeWhile_eq_self_iff.mpr hall
  have hdrop : field.dropWhile (fun c => c ≠ delim) = [] :=
    List.dropWhile_eq_nil_iff.mpr hall
  cases field with
  | nil => exact absurd rfl hne
  | cons b field =>
      have hb : b ≠ delim := fun heq => hfree (by simp [heq])
      have hskip : (b :: field).dropWhile (fun c => c = delim) = b :: field := by
        simp [hb]
      rw [strtok, hskip]
      simp only [htake, hdrop, List.drop_nil]

theorem strtok_skip {delim : Byte} {skipped : List Byte}
    (h : forall b, b ∈ skipped -> b = delim) (s : List Byte) :
    strtok delim (skipped ++ s) = strtok delim s := by
  induction skipped with
  | nil => rfl
  | cons b skipped ih =>
      have hb : b = delim := h b (by simp)
      rw [hb, List.cons_append, strtok_delim_cons]
      exact ih (fun c hc => h c (by simp [hc]))

theorem strtok_eq_none_iff {delim : Byte} {s : List Byte} :
    strtok delim s = none <-> forall b, b ∈ s -> b = delim := by
  have hskip : s.dropWhile (fun b => b = delim) = [] <-> forall b, b ∈ s -> b = delim := by
    simp
  rw [← hskip, strtok]
  cases s.dropWhile (fun b => b = delim) <;> simp

/-- A token, the delimiters skipped in front of it and the delimiter that closes it,
unless the text ends. -/
theorem strtok_eq_some {delim : Byte} {s token rest : List Byte}
    (h : strtok delim s = some (token, rest)) :
    token ≠ [] ∧ delim ∉ token ∧
      exists skipped, (forall b, b ∈ skipped -> b = delim) ∧
        (s = skipped ++ (token ++ delim :: rest) ∨ (s = skipped ++ token ∧ rest = [])) := by
  induction s with
  | nil => cases h
  | cons b s ih =>
      by_cases hb : b = delim
      · rw [hb, strtok_delim_cons] at h
        rcases ih h with ⟨hne, hfree, skipped, hskipped, hsplit⟩
        refine ⟨hne, hfree, delim :: skipped, ?_, ?_⟩
        · intro c hc
          rcases List.mem_cons.mp hc with hhead | htail
          · exact hhead
          · exact hskipped c htail
        · rw [hb]
          rcases hsplit with hclosed | ⟨hend, hrest⟩
          · exact Or.inl (by rw [hclosed]; rfl)
          · exact Or.inr ⟨by rw [hend]; rfl, hrest⟩
      · have hstop : (b :: s).dropWhile (fun c => c = delim) = b :: s := by
          simp [hb]
        rw [strtok, hstop] at h
        simp only [Option.some.injEq, Prod.mk.injEq] at h
        rcases h with ⟨htoken, hrest⟩
        have happend := List.takeWhile_append_dropWhile
          (p := fun c : Byte => decide (c ≠ delim)) (l := b :: s)
        rw [htoken] at happend
        refine ⟨?_, ?_, [], by simp, ?_⟩
        · rw [← htoken]
          simp [hb]
        · intro hmem
          rw [← htoken] at hmem
          have hfails := List.mem_takeWhile_imp hmem
          simp at hfails
        · cases hdrop : (b :: s).dropWhile (fun c => decide (c ≠ delim)) with
          | nil =>
              rw [hdrop] at happend hrest
              exact Or.inr ⟨by simpa using happend.symm, hrest.symm⟩
          | cons c behind =>
              have hc : c = delim := by
                have hhead := List.head_dropWhile_not (fun c : Byte => decide (c ≠ delim))
                  (l := b :: s) (by rw [hdrop]; simp)
                simp only [hdrop, List.head_cons] at hhead
                simpa using hhead
              rw [hdrop, hc] at happend
              rw [hdrop] at hrest
              have hbehind : behind = rest := hrest
              rw [hbehind] at happend
              exact Or.inl happend.symm

theorem mem_of_mem_strtok {delim : Byte} {s token rest : List Byte}
    (h : strtok delim s = some (token, rest)) {b : Byte} (hb : b ∈ token ∨ b ∈ rest) :
    b ∈ s := by
  rcases strtok_eq_some h with ⟨_, _, skipped, _, hclosed | ⟨hend, hrest⟩⟩
  · rw [hclosed]
    rcases hb with hb | hb <;> simp [hb]
  · rw [hrest] at hb
    rw [hend]
    rcases hb with hb | hb
    · simp [hb]
    · cases hb

/-- Text behind the last token does not change the tokens before it. -/
theorem strtok_append {delim : Byte} {s token rest : List Byte}
    (h : strtok delim s = some (token, rest)) (hrest : rest ≠ []) (behind : List Byte) :
    strtok delim (s ++ behind) = some (token, rest ++ behind) := by
  rcases strtok_eq_some h with ⟨hne, hfree, skipped, hskipped, hclosed | ⟨_, hnil⟩⟩
  · have hfield := strtok_field (rest ++ behind) hne hfree
    rw [hclosed, List.append_assoc, strtok_skip hskipped, List.append_assoc,
      List.cons_append, hfield]
  · exact absurd hnil hrest

/-!
## Tokens of a text

What repeated calls to `strtok` return: the non-empty parts between the delimiters.
-/

def tokens (delim : Byte) (s : List Byte) : List (List Byte) :=
  (s.splitOn delim).filter (fun token => token ≠ [])

@[simp] theorem tokens_delim_cons (delim : Byte) (s : List Byte) :
    tokens delim (delim :: s) = tokens delim s := by
  simp [tokens, List.splitOn_cons_eq_if_modifyHead]

theorem tokens_field {delim : Byte} {field : List Byte} (rest : List Byte)
    (hne : field ≠ []) (hfree : delim ∉ field) :
    tokens delim (field ++ delim :: rest) = field :: tokens delim rest := by
  simp [tokens, List.splitOn_append_cons_self_of_not_mem hfree, hne]

theorem tokens_last {delim : Byte} {field : List Byte} (hne : field ≠ [])
    (hfree : delim ∉ field) : tokens delim field = [field] := by
  simp [tokens, List.splitOn_eq_singleton hfree, hne]

theorem tokens_skip {delim : Byte} {skipped : List Byte}
    (h : forall b, b ∈ skipped -> b = delim) (s : List Byte) :
    tokens delim (skipped ++ s) = tokens delim s := by
  induction skipped with
  | nil => rfl
  | cons b skipped ih =>
      rw [h b List.mem_cons_self, List.cons_append, tokens_delim_cons]
      exact ih (fun c hc => h c (List.mem_cons_of_mem b hc))

theorem tokens_of_none {delim : Byte} {s : List Byte} (h : strtok delim s = none) :
    tokens delim s = [] := by
  have hskip := tokens_skip (strtok_eq_none_iff.mp h) []
  rw [List.append_nil] at hskip
  exact hskip

theorem tokens_of_some {delim : Byte} {s token rest : List Byte}
    (h : strtok delim s = some (token, rest)) :
    tokens delim s = token :: tokens delim rest := by
  rcases strtok_eq_some h with ⟨hne, hfree, skipped, hskipped, hclosed | ⟨hend, hrest⟩⟩
  · rw [hclosed, tokens_skip hskipped, tokens_field rest hne hfree]
  · rw [hend, hrest, tokens_skip hskipped, tokens_last hne hfree]
    rfl

theorem append_delim_inj {delim : Byte} {xs ys us vs : List Byte} (hx : delim ∉ xs)
    (hy : delim ∉ ys) (h : xs ++ delim :: us = ys ++ delim :: vs) : xs = ys ∧ us = vs := by
  induction xs generalizing ys with
  | nil =>
      cases ys with
      | nil => exact ⟨rfl, (List.cons.inj h).2⟩
      | cons y ys => exact absurd (List.cons.inj h).1 (fun heq => hy (by simp [heq]))
  | cons x xs ih =>
      cases ys with
      | nil => exact absurd (List.cons.inj h).1 (fun heq => hx (by simp [heq]))
      | cons y ys =>
          rcases List.cons.inj h with ⟨hhead, htail⟩
          have hx' : delim ∉ xs := fun hmem => hx (List.mem_cons_of_mem x hmem)
          have hy' : delim ∉ ys := fun hmem => hy (List.mem_cons_of_mem y hmem)
          rcases ih hx' hy' htail with ⟨hxs, huv⟩
          exact ⟨by rw [hhead, hxs], huv⟩

/-!
## `fgets`
-/

/-- At most `room` bytes, ending after the first newline, and what is left. -/
def takeLine : Nat -> List Byte -> List Byte × List Byte
  | 0, s => ([], s)
  | _ + 1, [] => ([], [])
  | room + 1, b :: s =>
      if b = newline then ([b], s)
      else (b :: (takeLine room s).1, (takeLine room s).2)

def fgets (size : Nat) (stream : List Byte) : Option (List Byte × List Byte) :=
  match stream with
  | [] => none
  | _ :: _ => some (takeLine (size - 1) stream)

theorem takeLine_append (room : Nat) (s : List Byte) :
    (takeLine room s).1 ++ (takeLine room s).2 = s := by
  induction room generalizing s with
  | zero => rfl
  | succ room ih =>
      cases s with
      | nil => rfl
      | cons b s =>
          by_cases hb : b = newline
          · simp [takeLine, hb]
          · simp [takeLine, hb, ih s]

theorem takeLine_line (rest : List Byte) (room : Nat) {line : List Byte}
    (hfree : newline ∉ line) (hroom : line.length < room) :
    takeLine room (line ++ newline :: rest) = (line ++ [newline], rest) := by
  induction line generalizing room with
  | nil =>
      cases room with
      | zero => cases hroom
      | succ room => simp [takeLine]
  | cons b line ih =>
      cases room with
      | zero => cases hroom
      | succ room =>
          have hb : b ≠ newline := fun heq => hfree (by simp [heq])
          have htail : newline ∉ line := fun h => hfree (by simp [h])
          have hrest := ih room htail (Nat.lt_of_succ_lt_succ hroom)
          simp [takeLine, hb, hrest]

theorem fgets_rest_length {size : Nat} {stream chunk rest : List Byte}
    (hsize : 2 ≤ size) (h : fgets size stream = some (chunk, rest)) :
    rest.length < stream.length := by
  cases stream with
  | nil => cases h
  | cons b s =>
      obtain ⟨room, hroom⟩ : exists room, size - 1 = room + 1 :=
        ⟨size - 2, by lia⟩
      have htake : takeLine (size - 1) (b :: s) = (chunk, rest) := by
        simpa [fgets] using h
      have happend := takeLine_append (size - 1) (b :: s)
      rw [htake] at happend
      have hne : chunk ≠ [] := by
        intro hnil
        rw [hroom, takeLine] at htake
        split at htake <;> simp [hnil] at htake
      have hpos : 0 < chunk.length := List.length_pos_iff.mpr hne
      have hlen := congrArg List.length happend
      simp only [List.length_append] at hlen
      lia

/-!
## The reading loop
-/

/-- The chunks of the first `fuel` calls to `fgets`. -/
def fgetsTimes (size : Nat) : Nat -> List Byte -> List (List Byte)
  | 0, _ => []
  | fuel + 1, stream =>
      match fgets size stream with
      | none => []
      | some (chunk, rest) => chunk :: fgetsTimes size fuel rest

/-- All chunks up to the call that returns `NULL`. -/
def readLines (size : Nat) (stream : List Byte) : List (List Byte) :=
  fgetsTimes size stream.length stream

theorem fgetsTimes_eq_readLines {size : Nat} (hsize : 2 ≤ size) (fuel : Nat)
    (stream : List Byte) (hfuel : stream.length ≤ fuel) :
    fgetsTimes size fuel stream = readLines size stream := by
  induction fuel using Nat.strong_induction_on generalizing stream with
  | _ fuel ih =>
      cases stream with
      | nil => cases fuel <;> rfl
      | cons b s =>
          cases fuel with
          | zero => cases hfuel
          | succ fuel =>
              rw [readLines, List.length_cons, fgetsTimes, fgetsTimes]
              cases hget : fgets size (b :: s) with
              | none => rfl
              | some got =>
                  rcases got with ⟨chunk, rest⟩
                  have hshort := fgets_rest_length hsize hget
                  rw [List.length_cons] at hshort hfuel
                  have hleft := ih fuel (by lia) rest (by lia)
                  have hright : fgetsTimes size s.length rest =
                      readLines size rest := by
                    by_cases hs : s.length < fuel + 1
                    · exact ih s.length hs rest (by lia)
                    · lia
                  simp only [hleft, hright]

@[simp] theorem readLines_nil (size : Nat) : readLines size [] = [] := rfl

theorem readLines_of_fgets {size : Nat} (hsize : 2 ≤ size) {stream chunk rest : List Byte}
    (h : fgets size stream = some (chunk, rest)) :
    readLines size stream = chunk :: readLines size rest := by
  have hshort := fgets_rest_length hsize h
  cases stream with
  | nil => cases h
  | cons b s =>
      have hlen : rest.length ≤ s.length := Nat.le_of_lt_succ hshort
      rw [readLines, List.length_cons, fgetsTimes, h]
      simp only [fgetsTimes_eq_readLines hsize s.length rest hlen]

theorem readLines_line {size : Nat} {line : List Byte} (rest : List Byte)
    (hfree : newline ∉ line) (hfit : line.length + 2 ≤ size) :
    readLines size (line ++ newline :: rest) =
      (line ++ [newline]) :: readLines size rest := by
  apply readLines_of_fgets (by lia)
  have hline := takeLine_line rest (size - 1) hfree (by lia)
  cases line with
  | nil => simpa [fgets] using hline
  | cons b line => simpa [fgets] using hline

/-- A call that stays inside the first part of a stream, which ends with a newline. -/
theorem takeLine_append_of_newline (room : Nat) (s rest : List Byte) :
    takeLine room (s ++ newline :: rest) =
        ((takeLine room (s ++ [newline])).1, (takeLine room (s ++ [newline])).2 ++ rest) ∧
      ((takeLine room (s ++ [newline])).2 = [] ∨
        exists s', (takeLine room (s ++ [newline])).2 = s' ++ [newline]) := by
  induction room generalizing s with
  | zero =>
      refine ⟨by simp [takeLine], Or.inr ⟨s, rfl⟩⟩
  | succ room ih =>
      cases s with
      | nil => simp [takeLine]
      | cons b s =>
          rw [List.cons_append, List.cons_append, takeLine, takeLine]
          split
          · exact ⟨by simp, Or.inr ⟨s, rfl⟩⟩
          · rcases ih s with ⟨hsplit, hleft⟩
            rw [hsplit]
            exact ⟨rfl, hleft⟩

/-- The lines of a stream follow those of its first part, if that part is empty or
ends with a newline. -/
theorem readLines_append {size : Nat} (hsize : 2 ≤ size) (s rest : List Byte)
    (hs : s = [] ∨ exists s', s = s' ++ [newline]) :
    readLines size (s ++ rest) = readLines size s ++ readLines size rest := by
  induction hlen : s.length using Nat.strong_induction_on generalizing s with
  | _ n ih =>
      rcases hs with rfl | ⟨s', rfl⟩
      · rfl
      · rcases takeLine_append_of_newline (size - 1) s' rest with ⟨hjoined, hleft⟩
        have hfirst : fgets size (s' ++ [newline]) =
            some (takeLine (size - 1) (s' ++ [newline])) := by
          cases s' <;> rfl
        have hboth : fgets size (s' ++ [newline] ++ rest) =
            some (takeLine (size - 1) (s' ++ newline :: rest)) := by
          cases s' <;> simp [fgets]
        have hshort := fgets_rest_length hsize hfirst
        have hrest := ih _ (by rw [← hlen]; exact hshort) _ hleft rfl
        rw [hjoined] at hboth
        rw [readLines_of_fgets hsize hboth, readLines_of_fgets hsize hfirst, hrest]
        rfl

/-!
## Whole lines
-/

/-- The lines of a text, each with its newline. -/
def wholeLines : List Byte -> List (List Byte)
  | [] => []
  | b :: s =>
      if b = newline then [b] :: wholeLines s
      else
        match wholeLines s with
        | [] => [[b]]
        | line :: lines => (b :: line) :: lines

theorem wholeLines_line (rest : List Byte) {line : List Byte} (hfree : newline ∉ line) :
    wholeLines (line ++ newline :: rest) = (line ++ [newline]) :: wholeLines rest := by
  induction line with
  | nil => simp [wholeLines]
  | cons b line ih =>
      have hb : b ≠ newline := fun heq => hfree (by simp [heq])
      have htail := ih (fun hmem => hfree (List.mem_cons_of_mem b hmem))
      simp [wholeLines, hb, htail]

theorem wholeLines_last {line : List Byte} (hne : line ≠ []) (hfree : newline ∉ line) :
    wholeLines line = [line] := by
  induction line with
  | nil => exact absurd rfl hne
  | cons b line ih =>
      have hb : b ≠ newline := fun heq => hfree (by simp [heq])
      cases line with
      | nil => simp [wholeLines, hb]
      | cons c line =>
          have htail := ih (by simp) (fun hmem => hfree (List.mem_cons_of_mem b hmem))
          rw [wholeLines, if_neg hb, htail]

theorem line_cases (s : List Byte) :
    s = [] ∨ (s ≠ [] ∧ newline ∉ s) ∨
      exists line rest, newline ∉ line ∧ s = line ++ newline :: rest := by
  by_cases hmem : newline ∈ s
  · rcases List.eq_append_cons_of_mem hmem with ⟨line, rest, hsplit, hfree⟩
    exact Or.inr (Or.inr ⟨line, rest, hfree, hsplit⟩)
  · by_cases hs : s = []
    · exact Or.inl hs
    · exact Or.inr (Or.inl ⟨hs, hmem⟩)

theorem takeLine_last (room : Nat) {line : List Byte} (hfree : newline ∉ line)
    (hroom : line.length ≤ room) : takeLine room line = (line, []) := by
  induction line generalizing room with
  | nil => cases room <;> rfl
  | cons b line ih =>
      cases room with
      | zero => cases hroom
      | succ room =>
          have hb : b ≠ newline := fun heq => hfree (by simp [heq])
          have htail := ih room (fun hmem => hfree (List.mem_cons_of_mem b hmem))
            (Nat.le_of_succ_le_succ hroom)
          simp [takeLine, hb, htail]

theorem readLines_last {size : Nat} {line : List Byte} (hne : line ≠ [])
    (hfree : newline ∉ line) (hsize : 2 ≤ size) (hfit : line.length + 1 ≤ size) :
    readLines size line = [line] := by
  have hget : fgets size line = some (line, []) := by
    cases line with
    | nil => exact absurd rfl hne
    | cons b line => rw [fgets, takeLine_last (size - 1) hfree (by lia)]
  rw [readLines_of_fgets hsize hget, readLines_nil]

theorem readLines_eq_wholeLines {size : Nat} (hsize : 2 ≤ size) (s : List Byte)
    (h : forall line, line ∈ wholeLines s -> line.length ≤ size - 1) :
    readLines size s = wholeLines s := by
  induction hlen : s.length using Nat.strong_induction_on generalizing s with
  | _ n ih =>
      rcases line_cases s with rfl | ⟨hne, hfree⟩ | ⟨line, rest, hfree, rfl⟩
      · rfl
      · rw [wholeLines_last hne hfree] at h ⊢
        have hfit := h s (List.mem_singleton.mpr rfl)
        exact readLines_last hne hfree hsize (by lia)
      · rw [wholeLines_line rest hfree] at h ⊢
        have hfit := h (line ++ [newline]) List.mem_cons_self
        have hshort : rest.length < n := by
          rw [← hlen, List.length_append, List.length_cons]
          lia
        have hrest := ih rest.length hshort rest
          (fun l hl => h l (List.mem_cons_of_mem _ hl)) rfl
        rw [List.length_append, List.length_singleton] at hfit
        rw [readLines_line rest hfree (by lia), hrest]

/-!
## Lines that are cut

A line longer than the buffer is read in pieces, all but the last of which fill it.
-/

/-- A text cut after every `n` bytes. -/
def pieces (n : Nat) (s : List Byte) : List (List Byte) :=
  (List.range ((s.length + n - 1) / n)).map (fun i => (s.drop (i * n)).take n)

theorem pieces_of_ne_nil {n : Nat} (hn : 0 < n) {s : List Byte} (hne : s ≠ []) :
    pieces n s = s.take n :: pieces n (s.drop n) := by
  have hpos : 0 < s.length := List.length_pos_iff.mpr hne
  have hcount : (s.length + n - 1) / n = ((s.drop n).length + n - 1) / n + 1 := by
    rw [List.length_drop]
    by_cases hlong : n ≤ s.length
    · have hsum : s.length + n - 1 = (s.length - n + n - 1) + n := by lia
      rw [hsum, Nat.add_div_right _ hn]
    · have hsum : s.length + n - 1 = (s.length - 1) + n := by lia
      have hzero : s.length - n + n - 1 = n - 1 := by lia
      rw [hsum, hzero, Nat.add_div_right _ hn, Nat.div_eq_of_lt (by lia),
        Nat.div_eq_of_lt (by lia)]
  have hshift : forall i, (s.drop n).drop (i * n) = s.drop ((i + 1) * n) := by
    intro i
    rw [List.drop_drop, Nat.succ_mul, Nat.add_comm]
  rw [pieces, hcount, List.range_succ_eq_map, List.map_cons, List.map_map, Nat.zero_mul,
    List.drop_zero, pieces]
  simp only [hshift]
  rfl

/-- On a line that ends with its only newline, or has none, `fgets` only counts. -/
theorem takeLine_eq_take_drop (room : Nat) {line : List Byte}
    (hfree : newline ∉ line.dropLast) :
    takeLine room line = (line.take room, line.drop room) := by
  induction line generalizing room with
  | nil => cases room <;> rfl
  | cons b line ih =>
      cases room with
      | zero => rfl
      | succ room =>
          cases line with
          | nil =>
              rw [takeLine]
              split <;> cases room <;> rfl
          | cons c line =>
              rw [List.dropLast_cons_of_ne_nil (by simp), List.mem_cons, not_or] at hfree
              rw [takeLine, if_neg (Ne.symm hfree.1), ih room hfree.2]
              rfl

theorem readLines_of_line {size : Nat} (hsize : 2 ≤ size) {line : List Byte}
    (hfree : newline ∉ line.dropLast) : readLines size line = pieces (size - 1) line := by
  induction hlen : line.length using Nat.strong_induction_on generalizing line with
  | _ n ih =>
      by_cases hne : line = []
      · rw [hne, pieces, List.length_nil, Nat.zero_add, Nat.div_eq_of_lt (by lia)]
        rfl
      · have hget : fgets size line = some (line.take (size - 1), line.drop (size - 1)) := by
          rw [← takeLine_eq_take_drop (size - 1) hfree]
          cases line with
          | nil => exact absurd rfl hne
          | cons b line => rfl
        have hshort := fgets_rest_length hsize hget
        have hrest : newline ∉ (line.drop (size - 1)).dropLast := by
          rw [List.dropLast_eq_take, List.length_drop, Nat.sub_right_comm, ← List.drop_take,
            ← List.dropLast_eq_take]
          exact fun hmem => hfree (List.mem_of_mem_drop hmem)
        rw [readLines_of_fgets hsize hget, pieces_of_ne_nil (by lia) hne,
          ih _ (by rw [← hlen]; exact hshort) hrest rfl]

/-- Reading into a buffer cuts each line into pieces. -/
theorem readLines_eq_flatMap_pieces {size : Nat} (hsize : 2 ≤ size) (s : List Byte) :
    readLines size s = (wholeLines s).flatMap (pieces (size - 1)) := by
  induction hlen : s.length using Nat.strong_induction_on generalizing s with
  | _ n ih =>
      rcases line_cases s with rfl | ⟨hne, hfree⟩ | ⟨line, rest, hfree, rfl⟩
      · rfl
      · have hfree' : newline ∉ s.dropLast := fun hmem => hfree (List.dropLast_subset s hmem)
        rw [wholeLines_last hne hfree, List.flatMap_singleton, readLines_of_line hsize hfree']
      · have hsplit : line ++ newline :: rest = (line ++ [newline]) ++ rest := by simp
        have hshort : rest.length < n := by
          rw [← hlen, List.length_append, List.length_cons]
          lia
        have hfree' : newline ∉ (line ++ [newline]).dropLast := by
          rw [List.dropLast_concat]
          exact hfree
        rw [wholeLines_line rest hfree, List.flatMap_cons, ← ih _ hshort rest rfl, hsplit,
          readLines_append hsize _ rest (Or.inr ⟨line, rfl⟩), readLines_of_line hsize hfree']

end CLib
end ShadowFs

import ShadowFs.Library.Escaping
import ShadowFs.CLib.Memory

/-!
# Option groups: `fuse_opt.c`

The text behind `-o` is a group of options with commas between them.  The library takes a
group apart in several stages, each of which joins what it does not know into a new group:
`add_opt_common` writes a comma and a backslash with a backslash in front, and
`process_real_option_group` unescapes the options in the buffer it reads them from.
-/

namespace ShadowFs.Libfuse

open CLib

abbrev comma : Byte := 44
abbrev backslash : Byte := 92

/-!
## The text of a group
-/

/-- The digits of a code: `\ooo` with a first digit of at most three. -/
def octalDigit (most : Nat) (b : Byte) : Option Nat :=
  if 48 ≤ b.toNat ∧ b.toNat ≤ 48 + most then some (b.toNat - 48) else none

def octalCode : List Byte -> Option (Byte × List Byte)
  | a :: b :: c :: text =>
      match octalDigit 3 a, octalDigit 7 b, octalDigit 7 c with
      | some x, some y, some z => some (UInt8.ofNat (x * 64 + y * 8 + z), text)
      | _, _, _ => none
  | _ => none

theorem octalCode_of_special (b : Byte) (text : List Byte) (h : b = comma ∨ b = backslash) :
    octalCode (b :: text) = none := by
  have hdigit : octalDigit 3 b = none := by
    rcases h with rfl | rfl <;> rfl
  rcases text with _ | ⟨c, _ | ⟨d, text⟩⟩
  · rfl
  · rfl
  · rw [octalCode, hdigit]

theorem octalCode_shorter {text : List Byte} {b : Byte} {rest : List Byte}
    (h : octalCode text = some (b, rest)) : rest.length < text.length := by
  rcases text with _ | ⟨a, _ | ⟨b, _ | ⟨c, text⟩⟩⟩
  · cases h
  · cases h
  · cases h
  · rw [octalCode] at h
    split at h
    · cases h
      simp only [List.length_cons]
      lia
    · cases h

/-- How options are written into a group. -/
def optionEscaping : Library.Escaping Byte where
  sep := comma
  esc := backslash
  code := octalCode
  code_of_special := octalCode_of_special
  code_shorter := octalCode_shorter

/-- The bytes that `add_opt_common` leaves at `*opts`.  No comma is written behind an empty
text. -/
def addOptBytes (opts : Option CString) (opt : CString) (esc : Bool) : List Byte :=
  let old := (opts.map CString.bytes).getD []
  let new := if esc then optionEscaping.escape opt.bytes else opt.bytes
  if old.length ≠ 0 then old ++ comma :: new else new

def addOptCommon (opts : Option CString) (opt : CString) (esc : Bool) : CString :=
  CString.ofBytes (addOptBytes opts opt esc)

theorem nul_not_mem_escape {l : List Byte} (h : (0 : Byte) ∉ l) :
    (0 : Byte) ∉ optionEscaping.escape l := by
  induction l with
  | nil => exact h
  | cons b l ih =>
      rw [List.mem_cons, not_or] at h
      rw [Library.Escaping.escape]
      split
      · simp only [List.mem_cons, not_or]
        exact ⟨by decide, h.1, ih h.2⟩
      · simp only [List.mem_cons, not_or]
        exact ⟨h.1, ih h.2⟩

theorem addOptCommon_bytes (opts : Option CString) (opt : CString) (esc : Bool) :
    (addOptCommon opts opt esc).bytes = addOptBytes opts opt esc := by
  have hnew : (0 : Byte) ∉ (if esc then optionEscaping.escape opt.bytes else opt.bytes) := by
    split
    · exact nul_not_mem_escape opt.nulFree
    · exact opt.nulFree
  have hold : (0 : Byte) ∉ (opts.map CString.bytes).getD [] := by
    cases opts with
    | none => exact List.not_mem_nil
    | some s => exact s.nulFree
  have hfree : (0 : Byte) ∉ addOptBytes opts opt esc := by
    simp only [addOptBytes]
    split
    · simp only [List.mem_append, List.mem_cons, not_or]
      exact ⟨hold, by decide, hnew⟩
    · exact hnew
  rw [addOptCommon, CString.ofBytes_of_nulFree hfree]

/-!
## Taking a group apart in place
-/

/-- `*d = v`. -/
def store (buf : List Byte) (d : Nat) (v : Byte) : Option (List Byte) :=
  if d < buf.length then some (buf.set d v) else none

/-- A byte of the buffer as a digit, if it is there. -/
def digitAt (buf : List Byte) (most s : Nat) : Option (Option Nat) :=
  buf[s]?.map (octalDigit most)

/-- The test for a code: a byte is looked at only if those in front of it are digits. -/
def octalAt (buf : List Byte) (s : Nat) : Option (Option Byte) :=
  match digitAt buf 3 s with
  | none => none
  | some none => some none
  | some (some x) =>
      match digitAt buf 7 (s + 1) with
      | none => none
      | some none => some none
      | some (some y) =>
          match digitAt buf 7 (s + 2) with
          | none => none
          | some none => some none
          | some (some z) => some (some (UInt8.ofNat (x * 64 + y * 8 + z)))

/-- The loop of `process_real_option_group`: the options that are handed to `process_gopt`,
each as the string at the start of the buffer.  `none` stands for an access outside the
buffer, or for a loop that is still going on. -/
def groupLoop : Nat -> List Byte -> Nat -> Nat -> Option (List CString)
  | 0, _, _, _ => none
  | rounds + 1, buf, s, d =>
      match buf[s]? with
      | none => none
      | some c =>
          if c = 0 then
            match store buf d 0 with
            | none => none
            | some buf => some [stringAt buf 0]
          else if c = comma then
            match store buf d 0 with
            | none => none
            | some buf =>
                (groupLoop rounds buf (s + 1) 0).map (fun opts => stringAt buf 0 :: opts)
          else if c = backslash then
            match buf[s + 1]? with
            | none => none
            | some next =>
                if next ≠ 0 then
                  match octalAt buf (s + 1) with
                  | none => none
                  | some (some v) =>
                      match store buf d v with
                      | none => none
                      | some buf => groupLoop rounds buf (s + 4) (d + 1)
                  | some none =>
                      match store buf d next with
                      | none => none
                      | some buf => groupLoop rounds buf (s + 2) (d + 1)
                else
                  match store buf d c with
                  | none => none
                  | some buf => groupLoop rounds buf (s + 1) (d + 1)
          else
            match store buf d c with
            | none => none
            | some buf => groupLoop rounds buf (s + 1) (d + 1)

/-- `process_option_group` on a copy of the text. -/
def optionsOfGroup (text : CString) : Option (List CString) :=
  groupLoop (text.length + 1) (text.bytes ++ [0]) 0 0

theorem ofBytes_append_zero (mem behind : List Byte) :
    CString.ofBytes (mem ++ 0 :: behind) = CString.ofBytes mem := by
  ext1
  show (mem ++ 0 :: behind).takeWhile (fun b => b ≠ 0) = mem.takeWhile (fun b => b ≠ 0)
  induction mem with
  | nil => rfl
  | cons b mem ih => rw [List.cons_append, List.takeWhile_cons, List.takeWhile_cons, ih]

/-- The loop in the middle of a text: what is read has not been overwritten, and what has
been read is in front. -/
structure Scanning (buf : List Byte) (s d : Nat) (field rest : List Byte) : Prop where
  read : buf.drop s = rest ++ [0]
  written : buf.take d = field
  width : field.length = d
  behind : d ≤ s

section Scanning

variable {buf : List Byte} {s d : Nat} {field rest : List Byte}

theorem Scanning.lt_length (h : Scanning buf s d field rest) : s < buf.length := by
  have hlength := congrArg List.length h.read
  rw [List.length_drop, List.length_append, List.length_singleton] at hlength
  lia

theorem Scanning.get (h : Scanning buf s d field rest) (k : Nat) :
    buf[s + k]? = (rest ++ [0])[k]? := by
  rw [← h.read, List.getElem?_drop]

theorem Scanning.store (h : Scanning buf s d field rest) (v : Byte) {taken later : List Byte}
    (hrest : rest = taken ++ later) (htaken : taken ≠ []) :
    Libfuse.store buf d v = some (buf.set d v) ∧
      Scanning (buf.set d v) (s + taken.length) (d + 1) (field ++ [v]) later := by
  have hlt : d < buf.length := Nat.lt_of_le_of_lt h.behind h.lt_length
  have hpos := List.length_pos_iff.mpr htaken
  have hbehind := h.behind
  refine ⟨if_pos hlt, ?_, ?_, ?_, ?_⟩
  · rw [List.drop_set_of_lt (by lia), ← List.drop_drop, h.read, hrest, List.append_assoc,
      List.drop_left]
  · rw [List.take_succ_eq_append_getElem (by simpa using hlt), List.getElem_set_self,
      List.take_set_of_le (Nat.le_refl d), h.written]
  · rw [List.length_append, List.length_singleton, h.width]
  · lia

theorem Scanning.terminate (h : Scanning buf s d field rest) :
    Libfuse.store buf d 0 = some (buf.set d 0) ∧
      stringAt (buf.set d 0) 0 = CString.ofBytes field := by
  have hlt : d < buf.length := Nat.lt_of_le_of_lt h.behind h.lt_length
  refine ⟨if_pos hlt, ?_⟩
  have hsplit : buf.set d 0 = field ++ 0 :: buf.drop (d + 1) := by
    rw [List.set_eq_take_append_cons_drop, if_pos hlt, h.written]
  rw [stringAt, List.drop_zero, hsplit, ofBytes_append_zero]

/-- The terminator is no digit, so the test ends in front of it. -/
theorem octalAt_eq {text : List Byte} (hget : forall k, buf[s + k]? = (text ++ [0])[k]?)
    (hne : text ≠ []) : octalAt buf s = some ((octalCode text).map Prod.fst) := by
  have hdigit : forall most k, digitAt buf most (s + k) =
      (text ++ [0])[k]?.map (octalDigit most) := by
    intro most k
    rw [digitAt, hget]
  have hzero : octalDigit 7 0 = none := rfl
  have h0 := hdigit 3 0
  have h1 := hdigit 7 1
  have h2 := hdigit 7 2
  rw [Nat.add_zero] at h0
  rcases text with _ | ⟨a, _ | ⟨b, _ | ⟨c, text⟩⟩⟩
  · exact absurd rfl hne
  · rw [octalAt, h0, h1]
    cases ha : octalDigit 3 a <;> simp [octalCode, hzero, ha]
  · rw [octalAt, h0, h1, h2]
    cases ha : octalDigit 3 a <;> cases hb : octalDigit 7 b <;>
      simp [octalCode, ha, hb, hzero]
  · rw [octalAt, h0, h1, h2]
    cases ha : octalDigit 3 a <;> cases hb : octalDigit 7 b <;> cases hc : octalDigit 7 c <;>
      simp [octalCode, ha, hb, hc]

theorem octalCode_split {text : List Byte} {v : Byte} {later : List Byte}
    (h : octalCode text = some (v, later)) :
    exists taken, text = taken ++ later ∧ taken.length = 3 := by
  rcases text with _ | ⟨a, _ | ⟨b, _ | ⟨c, text⟩⟩⟩
  · cases h
  · cases h
  · cases h
  · rw [octalCode] at h
    split at h
    · cases h
      exact ⟨[a, b, c], rfl, rfl⟩
    · cases h

theorem Scanning.groupLoop_end (h : Scanning buf s d field []) (rounds : Nat) :
    groupLoop (rounds + 1) buf s d = some [CString.ofBytes field] := by
  rcases h.terminate with ⟨hterm, hstring⟩
  have hc : buf[s]? = some 0 := h.get 0
  rw [groupLoop, hc]
  simp only [if_true, hterm, hstring]

theorem Scanning.groupLoop_separator (h : Scanning buf s d field (comma :: rest))
    (rounds : Nat) :
    groupLoop (rounds + 1) buf s d =
        (groupLoop rounds (buf.set d 0) (s + 1) 0).map
          (fun opts => CString.ofBytes field :: opts) ∧
      Scanning (buf.set d 0) (s + 1) 0 [] rest := by
  rcases h.terminate with ⟨hterm, hstring⟩
  have hc : buf[s]? = some comma := h.get 0
  have hbehind := h.behind
  constructor
  · have hne : comma ≠ 0 := by decide
    rw [groupLoop, hc]
    simp only [if_neg hne, if_true, hterm, hstring]
  · refine ⟨?_, List.take_zero, rfl, Nat.zero_le _⟩
    rw [List.drop_set_of_lt (by lia), ← List.drop_drop, h.read]
    rfl

theorem Scanning.groupLoop_escape (h : Scanning buf s d field (backslash :: rest))
    (hfree : (0 : Byte) ∉ rest) (rounds : Nat) :
    exists buf' s', groupLoop (rounds + 1) buf s d = groupLoop rounds buf' s' (d + 1) ∧
      Scanning buf' s' (d + 1) (field ++ [(optionEscaping.afterEscape rest).1])
        (optionEscaping.afterEscape rest).2 := by
  have hc : buf[s]? = some backslash := h.get 0
  have hnext : buf[s + 1]? = (rest ++ [0])[0]? := h.get 1
  have hzero : backslash ≠ 0 := by decide
  have hcomma : backslash ≠ comma := by decide
  rw [groupLoop, hc]
  simp only [if_neg hzero, if_neg hcomma, if_true, hnext]
  cases rest with
  | nil =>
      rcases h.store backslash (show [backslash] = [backslash] ++ [] from rfl)
        (List.cons_ne_nil _ _) with ⟨hstore, hscan⟩
      refine ⟨_, _, ?_, hscan⟩
      simp only [List.nil_append, List.getElem?_cons_zero, ne_eq, not_true_eq_false, if_false,
        hstore]
      rfl
  | cons c rest =>
      have hne : c ≠ 0 := by
        intro hnul
        exact hfree (hnul ▸ List.mem_cons_self)
      have hoctal : octalAt buf (s + 1) = some ((octalCode (c :: rest)).map Prod.fst) := by
        apply octalAt_eq ?_ (List.cons_ne_nil _ _)
        intro k
        rw [Nat.add_assoc, h.get, Nat.add_comm 1 k]
        rfl
      simp only [List.cons_append, List.getElem?_cons_zero, ne_eq, hne, not_false_eq_true,
        if_true, hoctal]
      cases hcode : octalCode (c :: rest) with
      | none =>
          rcases h.store c (show backslash :: c :: rest = [backslash, c] ++ rest from rfl)
            (List.cons_ne_nil _ _) with ⟨hstore, hscan⟩
          rw [optionEscaping.afterEscape_of_none hcode]
          refine ⟨_, _, ?_, hscan⟩
          simp only [Option.map_none, hstore]
          rfl
      | some res =>
          rcases octalCode_split hcode with ⟨taken, hsplit, hlength⟩
          have hwhole : backslash :: c :: rest = (backslash :: taken) ++ res.2 := by
            rw [hsplit]
            rfl
          rcases h.store res.1 hwhole (List.cons_ne_nil _ _) with ⟨hstore, hscan⟩
          rw [List.length_cons, hlength] at hscan
          rw [optionEscaping.afterEscape_of_some hcode]
          refine ⟨_, _, ?_, hscan⟩
          simp only [Option.map_some, hstore]

theorem Scanning.groupLoop_plain {b : Byte} (h : Scanning buf s d field (b :: rest))
    (hb : b ≠ 0) (hcomma : b ≠ comma) (hesc : b ≠ backslash) (rounds : Nat) :
    exists buf' s', groupLoop (rounds + 1) buf s d = groupLoop rounds buf' s' (d + 1) ∧
      Scanning buf' s' (d + 1) (field ++ [b]) rest := by
  have hc : buf[s]? = some b := h.get 0
  rcases h.store b (show b :: rest = [b] ++ rest from rfl) (List.cons_ne_nil _ _) with
    ⟨hstore, hscan⟩
  refine ⟨_, _, ?_, hscan⟩
  rw [groupLoop, hc]
  simp only [if_neg hb, if_neg hcomma, if_neg hesc, hstore]
  rfl

theorem nul_not_mem_afterEscape {text : List Byte} (h : (0 : Byte) ∉ text) :
    (0 : Byte) ∉ (optionEscaping.afterEscape text).2 := by
  cases text with
  | nil => exact List.not_mem_nil
  | cons c text =>
      cases hcode : octalCode (c :: text) with
      | none =>
          rw [optionEscaping.afterEscape_of_none hcode]
          exact fun hmem => h (List.mem_cons_of_mem c hmem)
      | some res =>
          rcases octalCode_split hcode with ⟨taken, hsplit, _⟩
          rw [optionEscaping.afterEscape_of_some hcode]
          intro hmem
          rw [hsplit] at h
          exact h (List.mem_append_right taken hmem)

/-- The loop stays inside the buffer, ends, and finds the fields of the text. -/
theorem Scanning.groupLoop_eq {rounds : Nat} (h : Scanning buf s d field rest)
    (hfree : (0 : Byte) ∉ rest) (hrounds : rest.length < rounds) :
    groupLoop rounds buf s d =
      some ((optionEscaping.splitFrom field rest).map CString.ofBytes) := by
  induction rounds generalizing buf s d field rest with
  | zero => cases hrounds
  | succ rounds ih =>
      cases rest with
      | nil =>
          rw [h.groupLoop_end, optionEscaping.splitFrom_none rfl]
          rfl
      | cons b rest =>
          rw [List.mem_cons, not_or] at hfree
          rw [List.length_cons] at hrounds
          by_cases hcomma : b = comma
          · have hsep : optionEscaping.nextSymbol (b :: rest) = some (.separator, rest) :=
              if_pos hcomma
            rw [optionEscaping.splitFrom_separator hsep]
            subst hcomma
            rcases h.groupLoop_separator rounds with ⟨hloop, hscan⟩
            rw [hloop, ih hscan hfree.2 (by lia)]
            rfl
          · by_cases hesc : b = backslash
            · have hlit : optionEscaping.nextSymbol (b :: rest) =
                  some (.literal (optionEscaping.afterEscape rest).1,
                    (optionEscaping.afterEscape rest).2) :=
                (if_neg hcomma).trans (if_pos hesc)
              have hshort := optionEscaping.afterEscape_length_le rest
              rw [optionEscaping.splitFrom_literal hlit]
              subst hesc
              rcases h.groupLoop_escape hfree.2 rounds with ⟨buf', s', hloop, hscan⟩
              rw [hloop]
              exact ih hscan (nul_not_mem_afterEscape hfree.2) (by lia)
            · have hlit : optionEscaping.nextSymbol (b :: rest) = some (.literal b, rest) :=
                (if_neg hcomma).trans (if_neg hesc)
              have hb : b ≠ 0 := fun hzero => hfree.1 hzero.symm
              rcases h.groupLoop_plain hb hcomma hesc rounds with ⟨buf', s', hloop, hscan⟩
              rw [optionEscaping.splitFrom_literal hlit, hloop]
              exact ih hscan hfree.2 (by lia)

end Scanning

theorem optionsOfGroup_eq (text : CString) :
    optionsOfGroup text = some ((optionEscaping.split text.bytes).map CString.ofBytes) := by
  have hstart : Scanning (text.bytes ++ [0]) 0 0 [] text.bytes :=
    ⟨rfl, List.take_zero, rfl, Nat.le_refl _⟩
  exact hstart.groupLoop_eq text.nulFree (Nat.lt_succ_self _)

/-!
## Joining and taking apart
-/

def addOpts (opts : Option CString) (options : List CString) : Option CString :=
  options.foldl (fun opts opt => some (addOptCommon opts opt true)) opts

/-- What is left of the options: the empty ones in front leave no trace. -/
def keptOptions (options : List CString) : List CString :=
  match options.dropWhile (fun opt => opt.bytes = []) with
  | [] => [CString.lit ""]
  | opt :: options => opt :: options

theorem addOpts_of_ne {text : CString} {fields : List (List Byte)} (hne : text.bytes ≠ [])
    (hfields : fields ≠ []) (htext : text.bytes = optionEscaping.join fields)
    (options : List CString) :
    exists text', addOpts (some text) options = some text' ∧
      text'.bytes = optionEscaping.join (fields ++ options.map CString.bytes) := by
  induction options generalizing text fields with
  | nil =>
      rw [List.map_nil, List.append_nil]
      exact ⟨text, rfl, htext⟩
  | cons opt options ih =>
      have hlength : text.bytes.length ≠ 0 := by
        rw [ne_eq, List.length_eq_zero_iff]
        exact hne
      have hadd : (addOptCommon (some text) opt true).bytes =
          optionEscaping.join (fields ++ [opt.bytes]) := by
        rw [addOptCommon_bytes, optionEscaping.join_snoc hfields, ← htext]
        exact if_pos hlength
      have hlonger : (addOptCommon (some text) opt true).bytes ≠ [] := by
        rw [hadd, optionEscaping.join_snoc hfields]
        exact List.append_ne_nil_of_right_ne_nil _ (List.cons_ne_nil _ _)
      have hmore : fields ++ [opt.bytes] ≠ [] :=
        List.append_ne_nil_of_left_ne_nil hfields _
      rcases ih hlonger hmore hadd with ⟨text', hrun, hjoin⟩
      refine ⟨text', hrun, ?_⟩
      rw [hjoin, List.map_cons, List.append_assoc, List.singleton_append]

theorem escape_ne_nil {l : List Byte} (h : l ≠ []) : optionEscaping.escape l ≠ [] := by
  cases l with
  | nil => exact absurd rfl h
  | cons b l =>
      rw [Library.Escaping.escape]
      split <;> exact List.cons_ne_nil _ _

theorem keptOptions_of_ne {opt : CString} (h : opt.bytes ≠ []) (options : List CString) :
    keptOptions (opt :: options) = opt :: options := by
  rw [keptOptions, List.dropWhile_cons_of_neg (by simpa using h)]

theorem keptOptions_of_empty {opt : CString} (h : opt.bytes = []) (options : List CString) :
    keptOptions (opt :: options) = keptOptions options := by
  rw [keptOptions, List.dropWhile_cons_of_pos (by simpa using h), keptOptions]

theorem addOptCommon_of_nil {opts : Option CString}
    (h : (opts.map CString.bytes).getD [] = []) (opt : CString) :
    (addOptCommon opts opt true).bytes = optionEscaping.escape opt.bytes := by
  rw [addOptCommon_bytes]
  simp only [addOptBytes, h, List.length_nil, ne_eq, not_true_eq_false, if_false, if_true]

theorem addOpts_of_nil {opts : Option CString} (h : (opts.map CString.bytes).getD [] = [])
    (opt : CString) (options : List CString) :
    exists text, addOpts opts (opt :: options) = some text ∧
      text.bytes = optionEscaping.join ((keptOptions (opt :: options)).map CString.bytes) := by
  induction options generalizing opts opt with
  | nil =>
      refine ⟨_, rfl, ?_⟩
      rw [addOptCommon_of_nil h]
      by_cases hopt : opt.bytes = []
      · rw [keptOptions_of_empty hopt, hopt]
        rfl
      · rw [keptOptions_of_ne hopt]
        rfl
  | cons next options ih =>
      by_cases hopt : opt.bytes = []
      · have hstill : ((some (addOptCommon opts opt true)).map CString.bytes).getD [] = [] := by
          rw [Option.map_some, Option.getD_some, addOptCommon_of_nil h, hopt]
          rfl
        rcases ih hstill next with ⟨text, hrun, htext⟩
        refine ⟨text, hrun, ?_⟩
        rw [htext, keptOptions_of_empty hopt]
      · have hone : (addOptCommon opts opt true).bytes = optionEscaping.join [opt.bytes] :=
          addOptCommon_of_nil h opt
        have hne : (addOptCommon opts opt true).bytes ≠ [] := by
          rw [hone]
          exact escape_ne_nil hopt
        rcases addOpts_of_ne hne (List.cons_ne_nil _ _) hone (next :: options) with
          ⟨text, hrun, htext⟩
        refine ⟨text, hrun, ?_⟩
        rw [htext, keptOptions_of_ne hopt]
        rfl

theorem keptOptions_ne_nil (options : List CString) : keptOptions options ≠ [] := by
  rw [keptOptions]
  split <;> exact List.cons_ne_nil _ _

theorem optionsOfGroup_joined (options : List CString) :
    (options = [] ∧ addOpts none options = none) ∨
      exists text, addOpts none options = some text ∧
        optionsOfGroup text = some (keptOptions options) := by
  cases options with
  | nil => exact Or.inl ⟨rfl, rfl⟩
  | cons opt options =>
      have hnone : ((none : Option CString).map CString.bytes).getD [] = [] := rfl
      rcases addOpts_of_nil hnone opt options with ⟨text, hrun, htext⟩
      have hsplit : optionEscaping.split text.bytes =
          (keptOptions (opt :: options)).map CString.bytes := by
        rw [htext]
        apply optionEscaping.split_join (by decide)
        rw [ne_eq, List.map_eq_nil_iff]
        exact keptOptions_ne_nil _
      have hsame : (CString.ofBytes ∘ CString.bytes) = id := funext CString.ofBytes_bytes
      refine Or.inr ⟨text, hrun, ?_⟩
      rw [optionsOfGroup_eq, hsplit, List.map_map, hsame, List.map_id]

/-- Options that are joined into a group are cut out of it again.  On any text the loop
stays inside the buffer and finds the fields of the text as it was, so nothing is
overwritten before it has been read. -/
theorem optionsOfGroup_addOpts :
    (forall options : List CString, (options = [] ∧ addOpts none options = none) ∨
      exists text, addOpts none options = some text ∧
        optionsOfGroup text = some (keptOptions options)) ∧
      forall text : CString, optionsOfGroup text =
        some ((optionEscaping.split text.bytes).map CString.ofBytes) :=
  ⟨optionsOfGroup_joined, optionsOfGroup_eq⟩

example : optionsOfGroup (CString.lit "x\\054y,\\z\\") =
    some [CString.lit "x,y", CString.lit "z\\"] := by
  decide

end ShadowFs.Libfuse

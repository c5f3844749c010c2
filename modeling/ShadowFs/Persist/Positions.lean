import ShadowFs.Persist.Chunks
import ShadowFs.Persist.Reload

/-!
# Fields by position

A line of the shadow format has nine fields, and most of them may be empty.
`init_parse` takes the tokens of a line in order, and `strtok` gives no token for
an empty field, so the value of a later field is stored in its place.  A line is
stored field by field exactly when its hash is there and everything behind the
first empty number is zero.
-/

namespace ShadowFs

open CLib UserRep

/-!
## Numbers that move up
-/

/-- The numbers of the fields that are not empty. -/
def presentNumbers (fs : List (List Byte)) : List Int32 :=
  (fs.filter (fun f => f ≠ [])).map atoi

/-- Nothing but zeros can move up into the place of an empty field; `last` is the number
read behind all fields. -/
def NoShift (last : Int32) : List (List Byte) -> Prop
  | [] => True
  | f :: fs =>
      if f = [] then (forall g, g ∈ fs -> atoi g = 0) ∧ last = 0
      else NoShift last fs

instance (last : Int32) (fs : List (List Byte)) : Decidable (NoShift last fs) :=
  match fs with
  | [] => inferInstanceAs (Decidable True)
  | f :: fs =>
      have := instDecidableNoShift last fs
      inferInstanceAs (Decidable (if f = [] then _ else _))

theorem presentNumbers_cons_nil (fs : List (List Byte)) :
    presentNumbers ([] :: fs) = presentNumbers fs := by
  simp [presentNumbers]

theorem presentNumbers_cons {f : List Byte} (hf : f ≠ []) (fs : List (List Byte)) :
    presentNumbers (f :: fs) = atoi f :: presentNumbers fs := by
  simp [presentNumbers, hf]

theorem presentNumbers_length_le (fs : List (List Byte)) :
    (presentNumbers fs).length ≤ fs.length := by
  rw [presentNumbers, List.length_map]
  exact List.length_filter_le _ fs

/-- Behind at least one place that should hold zero: the numbers fall into the right
places only if all of them are zero.  Induction over the fields, with `k` places to
fill before them. -/
theorem forall_eq_zero_of_shifted (fs : List (List Byte)) (last : Int32) (k m : Nat)
    (h : presentNumbers fs ++ last :: List.replicate m 0 =
      List.replicate (k + 1) 0 ++ fs.map atoi) :
    (forall g, g ∈ fs -> atoi g = 0) ∧ last = 0 := by
  induction fs generalizing k with
  | nil =>
      rw [List.replicate_succ] at h
      exact ⟨fun g hg => absurd hg List.not_mem_nil, (List.cons.inj h).1⟩
  | cons f fs ih =>
      have hpush : forall j, List.replicate j (0 : Int32) ++ 0 :: fs.map atoi =
          List.replicate (j + 1) 0 ++ fs.map atoi := by
        intro j
        rw [List.replicate_succ', List.append_assoc, List.singleton_append]
      by_cases hf : f = []
      · have hzero : atoi f = 0 := by
          rw [hf]
          decide
        rw [hf, presentNumbers_cons_nil, List.map_cons, ← hf, hzero, hpush] at h
        rcases ih (k + 1) h with ⟨hall, hlast⟩
        exact ⟨List.forall_mem_cons.mpr ⟨hzero, hall⟩, hlast⟩
      · rw [presentNumbers_cons hf, List.replicate_succ, List.map_cons, List.cons_append,
          List.cons_append] at h
        rcases List.cons.inj h with ⟨hzero, htail⟩
        rw [hzero, hpush] at htail
        rcases ih k htail with ⟨hall, hlast⟩
        exact ⟨List.forall_mem_cons.mpr ⟨hzero, hall⟩, hlast⟩

theorem take_presentNumbers (fs : List (List Byte)) (last : Int32) (n : Nat)
    (hn : fs.length < n) :
    (presentNumbers fs ++ last :: List.replicate n 0).take n =
      presentNumbers fs ++ last :: List.replicate (n - 1 - (presentNumbers fs).length) 0 := by
  have hlen := presentNumbers_length_le fs
  have hroom : n - (presentNumbers fs).length =
      (n - 1 - (presentNumbers fs).length) + 1 := by
    lia
  rw [List.take_append, List.take_of_length_le (by lia), hroom, List.take_succ_cons,
    List.take_replicate, Nat.min_eq_left (by lia)]

theorem presentNumbers_eq_zero {fs : List (List Byte)}
    (h : forall g, g ∈ fs -> atoi g = 0) :
    presentNumbers fs = List.replicate (presentNumbers fs).length 0 := by
  rw [List.eq_replicate_iff]
  refine ⟨rfl, ?_⟩
  intro v hv
  rcases List.mem_map.mp hv with ⟨g, hg, rfl⟩
  exact h g (List.mem_of_mem_filter hg)

/-- The numbers read are the numbers of the fields, each in its place, if and only if
nothing moves. -/
theorem numbers_eq_iff (fs : List (List Byte)) (last : Int32) :
    (presentNumbers fs ++ last :: List.replicate fs.length 0).take fs.length =
        fs.map atoi <->
      NoShift last fs := by
  induction fs with
  | nil => simp [NoShift]
  | cons f fs ih =>
      by_cases hf : f = []
      · have hzero : atoi f = 0 := by
          rw [hf]
          decide
        rw [NoShift, if_pos hf, hf, presentNumbers_cons_nil,
          take_presentNumbers fs last _ (by simp), List.map_cons, ← hf, hzero]
        constructor
        · intro h
          exact forall_eq_zero_of_shifted fs last 0 _ h
        · rintro ⟨hall, hlast⟩
          have hpresent := presentNumbers_eq_zero hall
          have hmap : fs.map atoi = List.replicate fs.length 0 := by
            rw [List.eq_replicate_iff, List.length_map]
            refine ⟨rfl, ?_⟩
            intro v hv
            rcases List.mem_map.mp hv with ⟨g, hg, rfl⟩
            exact hall g hg
          have hlen := presentNumbers_length_le fs
          rw [hlast, hmap, hpresent, ← List.replicate_succ, ← List.replicate_succ,
            List.replicate_append_replicate, List.length_replicate, List.length_cons]
          congr 1
          lia
      · rw [NoShift, if_neg hf, presentNumbers_cons hf, List.length_cons, List.cons_append,
          List.take_succ_cons, List.map_cons, List.cons.injEq, ← ih, take_append_zeros]
        exact ⟨fun h => h.2, fun h => ⟨rfl, h⟩⟩

/-!
## Lines of nine fields
-/

/-- A numeric field and the integer in it; an empty one counts as 0. -/
def NumberField (field : CString) (v : Int32) : Prop :=
  (field.bytes = [] ∧ v = 0) ∨ IsDecimal field.bytes v.toInt

theorem NumberField.atoi_eq {field : CString} {v : Int32} (h : NumberField field v) :
    atoi field.bytes = v := by
  rcases h with ⟨hempty, hzero⟩ | hdecimal
  · rw [hempty, hzero]
    decide
  · have hread : (atoi (field.bytes ++ [])).toInt = v.toInt :=
      hdecimal.atoi_append v.le_toInt v.toInt_lt (fun b hb => by cases hb)
    rw [List.append_nil] at hread
    exact Int32.toInt_inj.mp hread

theorem NumberField.free {field : CString} {v : Int32} (h : NumberField field v) :
    colon ∉ field.bytes ∧ newline ∉ field.bytes := by
  rcases h with ⟨hempty, _⟩ | hdecimal
  · rw [hempty]
    simp
  · exact ⟨hdecimal.not_mem (by decide) (by decide) (by decide),
      hdecimal.not_mem (by decide) (by decide) (by decide)⟩

/-- The numbers of a line in the order of the format. -/
def dayFields : List DayField := [.dsc, .dcc, .dmc, .dw, .de, .dd]

/-- A line with a user name, a hash, six numbers and a last field; all but the name may
be empty. -/
structure ShadowLine where
  user : CString
  hash : CString
  number : DayField -> CString
  value : DayField -> Int32
  last : CString
  userText : FieldText user
  userFits : user.length ≤ 15
  hashFree : colon ∉ hash.bytes ∧ newline ∉ hash.bytes
  hashFits : hash.length ≤ 31
  numbers : forall d, NumberField (number d) (value d)
  lastFree : colon ∉ last.bytes ∧ newline ∉ last.bytes

namespace ShadowLine

/-- The fields 3 to 8. -/
def numberTexts (line : ShadowLine) : List (List Byte) :=
  dayFields.map (fun d => (line.number d).bytes)

def rest (line : ShadowLine) : List Byte :=
  line.numberTexts.flatMap (fun f => f ++ [colon]) ++ line.last.bytes

def text (line : ShadowLine) : List Byte :=
  line.user.bytes ++ colon :: (line.hash.bytes ++ colon :: line.rest)

/-- The hash is there, and behind the first empty number all numbers are zero, that of
the last field included. -/
def Aligned (line : ShadowLine) : Prop :=
  line.hash.bytes ≠ [] ∧
    NoShift (atoi (line.last.bytes ++ [newline])) line.numberTexts

end ShadowLine

/-- After the lines `before`, the line is stored field by field: the record of its user
has the hash of field 2 and the integers of fields 3 to 8. -/
def StoresByPosition (load : LoadEnv User) (before : List Byte) (line : ShadowLine) : Prop :=
  exists sf r, initParse load (before ++ (line.text ++ [newline])) = .ok sf ∧
    findRecord sf line.user = some r ∧ r.hash = line.hash ∧
    forall d, r.day d = line.value d

/-!
## What the line leaves
-/

theorem not_mem_flatMap_fields {fs : List (List Byte)} {b : Byte} (hb : b ≠ colon)
    (h : forall f, f ∈ fs -> b ∉ f) : b ∉ fs.flatMap (fun f => f ++ [colon]) := by
  intro hmem
  rcases List.mem_flatMap.mp hmem with ⟨f, hf, hbf⟩
  rcases List.mem_append.mp hbf with hin | hcolon
  · exact h f hf hin
  · exact hb (List.mem_singleton.mp hcolon)

namespace ShadowLine

theorem numberTexts_free (line : ShadowLine) :
    forall f, f ∈ line.numberTexts -> colon ∉ f ∧ newline ∉ f := by
  intro f hf
  rcases List.mem_map.mp hf with ⟨d, _, rfl⟩
  exact (line.numbers d).free

theorem map_atoi_numberTexts (line : ShadowLine) :
    line.numberTexts.map atoi = dayFields.map line.value := by
  rw [numberTexts, List.map_map]
  exact List.map_congr_left (fun d _ => (line.numbers d).atoi_eq)

theorem newline_not_mem_text (line : ShadowLine) : newline ∉ line.text := by
  have hcolon : newline ≠ colon := by decide
  have hnumbers : newline ∉ line.numberTexts.flatMap (fun f => f ++ [colon]) :=
    not_mem_flatMap_fields hcolon (fun f hf => (line.numberTexts_free f hf).2)
  have hname := line.userText.newlineFree
  have hhash := line.hashFree.2
  have hlast := line.lastFree.2
  simp [text, rest, hcolon, hnumbers, hname, hhash, hlast]

theorem nul_not_mem_text (line : ShadowLine) : (0 : Byte) ∉ line.text ++ [newline] := by
  have hcolon : (0 : Byte) ≠ colon := by decide
  have hnewline : (0 : Byte) ≠ newline := by decide
  have hnumbers : (0 : Byte) ∉ line.numberTexts.flatMap (fun f => f ++ [colon]) := by
    apply not_mem_flatMap_fields hcolon
    intro f hf
    rcases List.mem_map.mp hf with ⟨d, _, rfl⟩
    exact (line.number d).nulFree
  have hname := line.user.nulFree
  have hhash := line.hash.nulFree
  have hlast := line.last.nulFree
  simp [text, rest, hcolon, hnewline, hnumbers, hname, hhash, hlast]

/-- The chunk `fgets` stores for the line. -/
def chunk (line : ShadowLine) : CString :=
  { bytes := line.text ++ [newline]
    nulFree := line.nul_not_mem_text }

theorem strtok_chunk (line : ShadowLine) :
    strtok colon line.chunk.bytes =
      some (line.user.bytes, line.hash.bytes ++ colon :: (line.rest ++ [newline])) := by
  have htext : line.chunk.bytes = line.user.bytes ++ colon ::
      (line.hash.bytes ++ colon :: (line.rest ++ [newline])) := by
    simp [chunk, text]
  rw [htext]
  exact strtok_field _ line.userText.nonempty line.userText.colonFree

/-- The numbers read behind the hash are those of the fields in order if and only if
nothing moves up. -/
theorem intsFrom_rest_iff (line : ShadowLine) :
    intsFrom 6 (line.rest ++ [newline]) = dayFields.map line.value <->
      NoShift (atoi (line.last.bytes ++ [newline])) line.numberTexts := by
  have hcolon : colon ∉ line.last.bytes ++ [newline] := by
    have hne : colon ≠ newline := by decide
    simp [line.lastFree.1, hne]
  have hread := intsFrom_fields 6 line.numberTexts
    (fun f hf => (line.numberTexts_free f hf).1) (by simp) hcolon
  have hsix : line.numberTexts.length = 6 := rfl
  rw [rest, List.append_assoc, hread, ← map_atoi_numberTexts, ← hsix]
  exact numbers_eq_iff line.numberTexts _

end ShadowLine

/-- A line with a name and a hash goes to the record of its name, which is there or is
appended. -/
theorem exists_stored {env : Env User} (hblock : env.block ≠ none) (sf : List User)
    {line user hash : CString} {rest1 rest2 : List Byte}
    (huserTok : strtok colon line.bytes = some (user.bytes, rest1))
    (hhashTok : strtok colon rest1 = some (hash.bytes, rest2))
    (huser : user.bytes ≠ []) (huserLen : user.length ≤ 15)
    (hhash : hash.bytes ≠ []) (hhashLen : hash.length ≤ 32) :
    exists r sf', parseLine env sf line.bytes = .ok (.next sf') ∧
      findRecord sf' user =
        some (setDays (intsFrom 6 rest2) (strcpyHash hash r)) := by
  have hmatch : exists front r back,
      FirstMatch (sfTreeAddUser env sf user).2 user front r back := by
    rcases findUser_cases sf user with hnew | ⟨front, r, back, hm⟩
    · rcases Option.ne_none_iff_exists'.mp hblock with ⟨block, hb⟩
      have hlen : user.length ≤ 16 := Nat.le_succ_of_le huserLen
      rw [sfTreeAddUser_of_new hnew hb hlen]
      exact ⟨sf, initUser env user block, [], rfl, username_initUser env block huserLen,
        findUser_eq_none_iff.mp hnew⟩
    · rw [sfTreeAddUser_of_found env hm.ne_none]
      exact ⟨front, r, back, hm⟩
  rcases hmatch with ⟨front, r, back, hm⟩
  have hline := parseLine_of_tokens huserTok hhashTok huser huserLen hhash hhashLen hm
    (User.rep_terminated r)
  refine ⟨r, _, hline, ?_⟩
  have hname : username (setDays (intsFrom 6 rest2) (strcpyHash hash r)) = username r := by
    rw [username_setDays _ (User.rep_terminated _)]
    rfl
  exact (hm.update hname).findRecord_eq

theorem hash_setDays (vs : List Int32) (u : User) : (setDays vs u).hash = u.hash := by
  simp [setDays]

theorem day_setDays_iff (s : List Byte) (u : User) (value : DayField -> Int32) :
    (forall d, (setDays (intsFrom 6 s) u).day d = value d) <->
      intsFrom 6 s = dayFields.map value := by
  simp only [intsFrom, setDays, dayFields, List.map_cons, List.map_nil, List.cons.injEq,
    and_true, User.rep_setDay]
  constructor
  · intro h
    exact ⟨h .dsc, h .dcc, h .dmc, h .dw, h .de, h .dd⟩
  · rintro ⟨h1, h2, h3, h4, h5, h6⟩ d
    cases d
    · exact h1
    · exact h2
    · exact h3
    · exact h4
    · exact h5
    · exact h6

/-!
## Lines that are stored field by field
-/

theorem storesByPosition_iff_of_hash {load : LoadEnv User} {before : List Byte}
    {line : ShadowLine} {env : Env User} {sf : List User} (hblock : env.block ≠ none)
    (hfile : forall sf', initParse load (before ++ (line.text ++ [newline])) = .ok sf' <->
      parseLine env sf line.chunk.bytes = .ok (.next sf'))
    (hhash : line.hash.bytes ≠ []) :
    StoresByPosition load before line <->
      NoShift (atoi (line.last.bytes ++ [newline])) line.numberTexts := by
  have hhashTok := strtok_field (line.rest ++ [newline]) hhash line.hashFree.1
  rcases exists_stored hblock sf line.strtok_chunk hhashTok line.userText.nonempty
    line.userFits hhash (Nat.le_succ_of_le line.hashFits) with ⟨r, sf', hline, hrecord⟩
  rw [← line.intsFrom_rest_iff]
  constructor
  · rintro ⟨sf1, r1, hload, hfound, _, hdays⟩
    rw [hfile, hline] at hload
    cases hload
    rw [hrecord] at hfound
    rw [← Option.some.inj hfound] at hdays
    exact (day_setDays_iff _ _ _).mp hdays
  · intro hnumbers
    refine ⟨sf', _, (hfile sf').mpr hline, hrecord, ?_, ?_⟩
    · rw [hash_setDays]
      rfl
    · exact (day_setDays_iff _ _ _).mpr hnumbers

/-- Without one, a later field is taken for the hash. -/
theorem not_storesByPosition_of_no_hash {load : LoadEnv User} {before : List Byte}
    {line : ShadowLine} {env : Env User} {sf : List User} (hblock : env.block ≠ none)
    (hfile : forall sf', initParse load (before ++ (line.text ++ [newline])) = .ok sf' <->
      parseLine env sf line.chunk.bytes = .ok (.next sf'))
    (hhash : line.hash.bytes = []) : ¬ StoresByPosition load before line := by
  rintro ⟨sf1, r1, hload, hfound, hkept, _⟩
  have hline := (hfile sf1).mp hload
  have htokens := line.strtok_chunk
  have hfields := hasRecord_of_parseLine hline
  rcases hfields.tokens_eq with ⟨user, pass, rest, rest', huserTok, hpassTok, hall⟩
  rw [CString.ofBytes_bytes, htokens] at huserTok
  have hrest : line.hash.bytes ++ colon :: (line.rest ++ [newline]) = rest :=
    congrArg Prod.snd (Option.some.inj huserTok)
  rw [← hrest] at hpassTok
  have hne := (strtok_eq_some hpassTok).1
  rcases exists_stored hblock sf htokens hpassTok line.userText.nonempty line.userFits hne
    (hfields.lengths hall).2 with ⟨r, sf', hline', hrecord⟩
  rw [hline] at hline'
  cases hline'
  rw [hrecord] at hfound
  rw [← Option.some.inj hfound, hash_setDays] at hkept
  have hbytes : pass.bytes = line.hash.bytes := congrArg CString.bytes hkept
  rw [hhash] at hbytes
  exact hne hbytes

/-- In any file, after lines that were loaded: a line of nine fields that fits the
buffer is stored field by field if and only if it is aligned. -/
theorem storesByPosition_iff (load : LoadEnv User)
    (halloc : forall k, (load.line k).block ≠ none) (before : List Byte)
    (hbefore : before = [] ∨ exists s, before = s ++ [newline]) (sf : List User)
    (hload : initParse load before = .ok sf) (line : ShadowLine)
    (hfits : line.text.length ≤ 254) :
    StoresByPosition load before line <-> line.Aligned := by
  have hlines : readLines 256 (before ++ (line.text ++ [newline])) =
      readLines 256 before ++ [line.chunk.bytes] := by
    have hline := readLines_line [] line.newline_not_mem_text
      (show line.text.length + 2 ≤ 256 by lia)
    rw [readLines_append (by decide) before _ hbefore, hline]
    rfl
  have hfile : forall sf', initParse load (before ++ (line.text ++ [newline])) = .ok sf' <->
      parseLine (load.line (0 + (readLines 256 before).length)) sf line.chunk.bytes =
        .ok (.next sf') := by
    intro sf'
    rw [initParse, hlines, parseLines_append hload, parseLines]
    cases hparse : parseLine (load.line (0 + (readLines 256 before).length)) sf
        line.chunk.bytes with
    | error fault => simp
    | ok outcome =>
        rw [parseLine_next hparse]
        simp [parseLines]
  have hblock := halloc (0 + (readLines 256 before).length)
  by_cases hhash : line.hash.bytes = []
  · have hnot := not_storesByPosition_of_no_hash hblock hfile hhash
    exact iff_of_false hnot (fun h => h.1 hhash)
  · rw [storesByPosition_iff_of_hash hblock hfile hhash]
    exact ⟨fun h => ⟨hhash, h⟩, fun h => h.2⟩

/-!
## Sample lines
-/

def numberText : Option Int32 -> CString
  | none => CString.lit ""
  | some v => { bytes := intText v.toInt, nulFree := nul_not_mem_intText v.toInt }

theorem numberField_numberText (v : Option Int32) : NumberField (numberText v) (v.getD 0) := by
  cases v with
  | none => exact Or.inl ⟨by decide, rfl⟩
  | some v => exact Or.inr (isDecimal_intText v.toInt)

theorem bin_fieldText : FieldText (CString.lit "bin") := by
  decide

theorem bin_fits : (CString.lit "bin").length ≤ 15 := by
  decide

theorem star_free : colon ∉ (CString.lit "*").bytes ∧ newline ∉ (CString.lit "*").bytes := by
  decide

theorem star_fits : (CString.lit "*").length ≤ 31 := by
  decide

theorem blank_free : colon ∉ (CString.lit "").bytes ∧ newline ∉ (CString.lit "").bytes := by
  decide

/-- The line of a locked account with the given numbers and an empty last field. -/
def lockedLine (n : DayField -> Option Int32) : ShadowLine :=
  { user := CString.lit "bin"
    hash := CString.lit "*"
    number := fun d => numberText (n d)
    value := fun d => (n d).getD 0
    last := CString.lit ""
    userText := bin_fieldText
    userFits := bin_fits
    hashFree := star_free
    hashFits := star_fits
    numbers := fun d => numberField_numberText (n d)
    lastFree := blank_free }

/-- The numbers as the sample backing file has them. -/
def sampleNumbers : DayField -> Option Int32
  | .dsc => some 15819
  | .dcc => some 0
  | .dmc => some 99999
  | .dw => some 7
  | _ => none

theorem storesByPosition_sample :
    (lockedLine sampleNumbers).text = ascii "bin:*:15819:0:99999:7:::" ∧
      StoresByPosition plainLoad [] (lockedLine sampleNumbers) := by
  refine ⟨by decide, ?_⟩
  refine (storesByPosition_iff plainLoad ?_ [] (Or.inl rfl) [] rfl _ (by decide)).mpr ?_
  · intro k
    simp [plainLoad, plainEnv]
  · constructor
    · decide
    · decide

/-- An account without a maximum age. -/
def shiftedNumbers : DayField -> Option Int32
  | .dmc => none
  | d => sampleNumbers d

/-- The warning period is stored as the maximum age. -/
theorem not_storesByPosition_shifted :
    (lockedLine shiftedNumbers).text = ascii "bin:*:15819:0::7:::" ∧
      initParse plainLoad ((lockedLine shiftedNumbers).text ++ [newline]) =
        .ok [{ binUser with dmc := 7, dw := 0 }] ∧
      ¬ StoresByPosition plainLoad [] (lockedLine shiftedNumbers) := by
  have hread : initParse plainLoad ((lockedLine shiftedNumbers).text ++ [newline]) =
      .ok [{ binUser with dmc := 7, dw := 0 }] := by
    rfl
  refine ⟨by decide, hread, ?_⟩
  rintro ⟨sf, r, hload, hrecord, _, hdays⟩
  rw [List.nil_append, hread] at hload
  rw [← Except.ok.inj hload] at hrecord
  have hr : { binUser with dmc := 7, dw := 0 } = r := Option.some.inj hrecord
  have hmax := hdays .dmc
  rw [← hr] at hmax
  exact absurd hmax (by decide)

end ShadowFs

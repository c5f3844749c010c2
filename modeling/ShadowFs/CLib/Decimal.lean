import Mathlib.Data.Nat.Digits.Lemmas
import ShadowFs.CLib.CString

/-!
# Decimal numbers: `%d` and `atoi`

`printf` writes an `int` as an optional minus sign and digits without leading
zeros; `atoi` skips white space, reads an optional sign and the digits that
follow, and ignores the rest.  The library computes `atoi` as a `long` with
saturation and then converts to `int`.  The main facts of the module are that
`atoi` reads back what `%d` wrote, whatever non-digit text comes after it, and
when a text fixes the number regardless of what follows.
-/

namespace ShadowFs
namespace CLib

abbrev minus : Byte := 45
abbrev plus : Byte := 43

/-!
## Writing
-/

def digitByte (d : Nat) : Byte :=
  UInt8.ofNat (48 + d)

def natText (n : Nat) : List Byte :=
  if n = 0 then [48] else (Nat.digits 10 n).reverse.map digitByte

/-- The text `%d` produces. -/
def intText (v : Int) : List Byte :=
  if v < 0 then minus :: natText v.natAbs else natText v.natAbs

/-!
## Reading
-/

def isSpace (b : Byte) : Bool :=
  b == 32 || (9 ≤ b && b ≤ 13)

def isDigit (b : Byte) : Bool :=
  48 ≤ b && b ≤ 57

/-- The value a run of digit characters stands for. -/
def digitsValue (ds : List Byte) : Nat :=
  ds.foldl (fun acc b => 10 * acc + (b.toNat - 48)) 0

/-- The leading digits of a text, as a number. -/
def leadingNat (s : List Byte) : Nat :=
  digitsValue (s.takeWhile isDigit)

/-- `strtol` after the white space: sign and digits, before saturation. -/
def signedValue : List Byte -> Int
  | [] => 0
  | b :: rest =>
      if b = minus then -(leadingNat rest : Int)
      else if b = plus then leadingNat rest
      else leadingNat (b :: rest)

/-- Saturation to the range of a 64-bit `long`. -/
def clampLong (v : Int) : Int :=
  max (-2 ^ 63) (min v (2 ^ 63 - 1))

def atoi (s : List Byte) : Int32 :=
  Int32.ofInt (clampLong (signedValue (s.dropWhile isSpace)))

/-!
## Digit strings
-/

theorem digitByte_toNat {d : Nat} (hd : d < 10) :
    (digitByte d).toNat = 48 + d := by
  simp only [digitByte, UInt8.toNat_ofNat']
  lia

theorem isDigit_iff (b : Byte) :
    isDigit b = true <-> 48 ≤ b.toNat ∧ b.toNat ≤ 57 := by
  simp [isDigit, UInt8.le_iff_toNat_le]

theorem natText_zero : natText 0 = [48] := rfl

theorem natText_of_ne_zero {n : Nat} (hn : n ≠ 0) :
    natText n = (Nat.digits 10 n).reverse.map digitByte := by
  simp [natText, hn]

theorem natText_ne_nil (n : Nat) : natText n ≠ [] := by
  by_cases hn : n = 0
  · rw [hn, natText_zero]
    simp
  · rw [natText_of_ne_zero hn]
    simp [Nat.digits_ne_nil_iff_ne_zero, hn]

theorem isDigit_of_mem_natText {n : Nat} {b : Byte} (hb : b ∈ natText n) :
    isDigit b = true := by
  by_cases hn : n = 0
  · rw [hn, natText_zero] at hb
    have hb0 : b = 48 := by simpa using hb
    rw [hb0]
    decide
  · rw [natText_of_ne_zero hn] at hb
    rcases List.mem_map.mp hb with ⟨d, hd, hdb⟩
    have hlt : d < 10 :=
      Nat.digits_lt_base (by decide) (List.mem_reverse.mp hd)
    rw [isDigit_iff, ← hdb, digitByte_toNat hlt]
    lia

theorem natText_length_le {n k : Nat} (hk : 0 < k) (hn : n < 10 ^ k) :
    (natText n).length ≤ k := by
  by_cases h0 : n = 0
  · rw [h0, natText_zero]
    exact hk
  · rw [natText_of_ne_zero h0]
    simpa using (Nat.digits_length_le_iff (by decide) n).mpr hn

theorem natText_length_le_iff {n k : Nat} (hk : 0 < k) :
    (natText n).length ≤ k <-> n < 10 ^ k := by
  refine ⟨?_, natText_length_le hk⟩
  intro h
  by_cases h0 : n = 0
  · rw [h0]
    exact Nat.pow_pos (by decide)
  · rw [natText_of_ne_zero h0] at h
    exact (Nat.digits_length_le_iff (by decide) n).mp (by simpa using h)

theorem digitsValue_natText (n : Nat) : digitsValue (natText n) = n := by
  by_cases hn : n = 0
  · rw [hn, natText_zero]
    rfl
  · -- The left fold of the reader is the right fold of the little-endian digits.
    rw [natText_of_ne_zero hn, digitsValue, List.foldl_map, List.foldl_reverse]
    have hfold : forall ds : List Nat, (forall d, d ∈ ds -> d < 10) ->
        ds.foldr (fun d acc => 10 * acc + ((digitByte d).toNat - 48)) 0 =
          Nat.ofDigits 10 ds := by
      intro ds
      induction ds with
      | nil =>
          intro _
          rfl
      | cons d rest ih =>
          intro hds
          have hd : d < 10 := hds d (by simp)
          have hrest := ih (fun e he => hds e (by simp [he]))
          rw [List.foldr_cons, hrest, Nat.ofDigits_cons, digitByte_toNat hd]
          lia
    rw [hfold _ (fun d hd => Nat.digits_lt_base (by decide) hd),
      Nat.ofDigits_digits]

/-- A text without a digit in front. -/
def NoLeadingDigit (s : List Byte) : Prop :=
  forall b, s.head? = some b -> isDigit b = false

theorem takeWhile_isDigit_append {ds rest : List Byte}
    (hds : forall b, b ∈ ds -> isDigit b = true) (hrest : NoLeadingDigit rest) :
    (ds ++ rest).takeWhile isDigit = ds := by
  rw [List.takeWhile_append_of_pos hds]
  cases rest with
  | nil => simp
  | cons b rest =>
      have hb : isDigit b = false := hrest b rfl
      simp [hb]

theorem leadingNat_append {ds rest : List Byte}
    (hds : forall b, b ∈ ds -> isDigit b = true) (hrest : NoLeadingDigit rest) :
    leadingNat (ds ++ rest) = digitsValue ds := by
  rw [leadingNat, takeWhile_isDigit_append hds hrest]

/-!
## Decimal texts

An optional sign and at least one digit, leading zeros allowed.
-/

inductive IsDecimal : List Byte -> Int -> Prop where
  | unsigned {ds : List Byte} : ds ≠ [] -> (forall b, b ∈ ds -> isDigit b = true) ->
      IsDecimal ds (digitsValue ds)
  | positive {ds : List Byte} : ds ≠ [] -> (forall b, b ∈ ds -> isDigit b = true) ->
      IsDecimal (plus :: ds) (digitsValue ds)
  | negative {ds : List Byte} : ds ≠ [] -> (forall b, b ∈ ds -> isDigit b = true) ->
      IsDecimal (minus :: ds) (-(digitsValue ds))

theorem ne_of_isDigit {b c : Byte} (hb : isDigit b = true) (hc : isDigit c = false) :
    b ≠ c := by
  intro h
  rw [h, hc] at hb
  cases hb

theorem isSpace_eq_false_of_isDigit {b : Byte} (hb : isDigit b = true) :
    isSpace b = false := by
  have hne : b ≠ 32 := ne_of_isDigit hb (by decide)
  rw [isDigit_iff] at hb
  simp only [isSpace, UInt8.le_iff_toNat_le, Bool.or_eq_false_iff,
    beq_eq_false_iff_ne, Bool.and_eq_false_iff, decide_eq_false_iff_not]
  refine ⟨hne, Or.inr ?_⟩
  have h13 : (13 : Byte).toNat = 13 := rfl
  lia

theorem IsDecimal.dropWhile_isSpace {s : List Byte} {v : Int} (h : IsDecimal s v)
    (rest : List Byte) : (s ++ rest).dropWhile isSpace = s ++ rest := by
  cases h with
  | unsigned hne hds =>
      cases s with
      | nil => exact absurd rfl hne
      | cons b ds =>
          have hb := isSpace_eq_false_of_isDigit (hds b (by simp))
          simp [hb]
  | positive _ _ =>
      have hplus : isSpace plus = false := by decide
      simp [hplus]
  | negative _ _ =>
      have hminus : isSpace minus = false := by decide
      simp [hminus]

theorem IsDecimal.signedValue_append {s : List Byte} {v : Int} (h : IsDecimal s v)
    {rest : List Byte} (hrest : NoLeadingDigit rest) : signedValue (s ++ rest) = v := by
  cases h with
  | unsigned hne hds =>
      have hlead := leadingNat_append hds hrest
      cases s with
      | nil => exact absurd rfl hne
      | cons b ds =>
          have hminus : b ≠ minus := ne_of_isDigit (hds b (by simp)) (by decide)
          have hplus : b ≠ plus := ne_of_isDigit (hds b (by simp)) (by decide)
          rw [List.cons_append] at hlead
          rw [List.cons_append, signedValue, if_neg hminus, if_neg hplus, hlead]
  | positive _ hds =>
      have hne : plus ≠ minus := by decide
      rw [List.cons_append, signedValue, if_neg hne, if_pos rfl,
        leadingNat_append hds hrest]
  | negative _ hds =>
      rw [List.cons_append, signedValue, if_pos rfl, leadingNat_append hds hrest]

theorem IsDecimal.not_mem {s : List Byte} {v : Int} (h : IsDecimal s v) {b : Byte}
    (hplus : b ≠ plus) (hminus : b ≠ minus) (hdigit : isDigit b = false) : b ∉ s := by
  have hds : forall ds : List Byte, (forall c, c ∈ ds -> isDigit c = true) -> b ∉ ds := by
    intro ds hall hb
    exact ne_of_isDigit (hall b hb) hdigit rfl
  cases h with
  | unsigned _ hall => exact hds _ hall
  | positive _ hall => simp [hplus, hds _ hall]
  | negative _ hall => simp [hminus, hds _ hall]

theorem IsDecimal.atoi_append {s : List Byte} {v : Int} (h : IsDecimal s v)
    (hlo : -2 ^ 31 ≤ v) (hhi : v < 2 ^ 31) {rest : List Byte}
    (hrest : NoLeadingDigit rest) : (atoi (s ++ rest)).toInt = v := by
  have hclamp : clampLong v = v := by
    unfold clampLong
    lia
  rw [atoi, h.dropWhile_isSpace, h.signedValue_append hrest, hclamp]
  exact Int32.toInt_ofInt_of_le hlo hhi

/-!
## The text of an `int`
-/

theorem intText_ne_nil (v : Int) : intText v ≠ [] := by
  unfold intText
  split
  · simp
  · exact natText_ne_nil _

theorem mem_intText {v : Int} {b : Byte} (hb : b ∈ intText v) :
    b = minus ∨ isDigit b = true := by
  unfold intText at hb
  split at hb
  · rcases List.mem_cons.mp hb with hminus | hdigit
    · exact Or.inl hminus
    · exact Or.inr (isDigit_of_mem_natText hdigit)
  · exact Or.inr (isDigit_of_mem_natText hb)

theorem intText_length_le {v : Int} {k : Nat} (hk : 0 < k)
    (hv : v.natAbs < 10 ^ k) : (intText v).length ≤ k + 1 := by
  have hnat := natText_length_le hk hv
  unfold intText
  split
  · simpa using hnat
  · lia

theorem int32Text_length_le (v : Int32) : (intText v.toInt).length ≤ 11 := by
  have hlo := v.le_toInt
  have hhi := v.toInt_lt
  exact intText_length_le (by decide) (by lia)

theorem not_mem_intText {v : Int} {b : Byte} (hminus : b ≠ minus)
    (hdigit : isDigit b = false) : b ∉ intText v := by
  intro hb
  rcases mem_intText hb with h | h
  · exact hminus h
  · rw [hdigit] at h
    cases h

theorem isDecimal_intText (v : Int) : IsDecimal (intText v) v := by
  have hne := natText_ne_nil v.natAbs
  have hds : forall b, b ∈ natText v.natAbs -> isDigit b = true :=
    fun _ hb => isDigit_of_mem_natText hb
  have hvalue := digitsValue_natText v.natAbs
  by_cases hv : v < 0
  · have hneg : -(digitsValue (natText v.natAbs) : Int) = v := by
      rw [hvalue]
      lia
    have h := IsDecimal.negative hne hds
    rw [hneg] at h
    simpa [intText, hv] using h
  · have hpos : (digitsValue (natText v.natAbs) : Int) = v := by
      rw [hvalue]
      lia
    have h := IsDecimal.unsigned hne hds
    rw [hpos] at h
    simpa [intText, hv] using h

theorem atoi_intText_append (v : Int32) {rest : List Byte}
    (hrest : NoLeadingDigit rest) : atoi (intText v.toInt ++ rest) = v := by
  have hread := (isDecimal_intText v.toInt).atoi_append v.le_toInt v.toInt_lt hrest
  exact Int32.toInt.inj hread

theorem atoi_intText (v : Int32) : atoi (intText v.toInt) = v := by
  have hrest : NoLeadingDigit [] := by
    intro b hb
    cases hb
  simpa using atoi_intText_append v hrest

/-!
## Texts that fix their number

`atoi` stops at the first character that is not a digit, so the text behind it
does not count.  A text whose digits run up to its end is open: what follows may
continue the number, unless the number is out of range already.
-/

/-- One more digit after the text does not change the number `atoi` reads: the
number has ended, or is out of range. -/
def Pinned (s : List Byte) : Prop :=
  atoi (s ++ [48]) = atoi s ∧ atoi (s ++ [49]) = atoi s

instance (s : List Byte) : Decidable (Pinned s) :=
  inferInstanceAs (Decidable (_ ∧ _))

theorem le_digitsFold (acc : Nat) (ds : List Byte) :
    acc ≤ ds.foldl (fun acc b => 10 * acc + (b.toNat - 48)) acc := by
  induction ds generalizing acc with
  | nil => exact Nat.le_refl acc
  | cons b ds ih =>
      have hrest := ih (10 * acc + (b.toNat - 48))
      rw [List.foldl_cons]
      lia

theorem ten_mul_le_digitsValue (ds : List Byte) {es : List Byte} (hes : es ≠ []) :
    10 * digitsValue ds ≤ digitsValue (ds ++ es) := by
  cases es with
  | nil => exact absurd rfl hes
  | cons b es =>
      have hrest := le_digitsFold (10 * digitsValue ds + (b.toNat - 48)) es
      have hvalue : digitsValue (ds ++ b :: es) =
          es.foldl (fun acc b => 10 * acc + (b.toNat - 48))
            (10 * digitsValue ds + (b.toNat - 48)) := by
        rw [digitsValue, List.foldl_append]
        rfl
      rw [hvalue]
      exact Nat.le_trans (Nat.le_add_right _ _) hrest

theorem digitsValue_snoc (ds : List Byte) (b : Byte) :
    digitsValue (ds ++ [b]) = 10 * digitsValue ds + (b.toNat - 48) := by
  rw [digitsValue, List.foldl_append]
  rfl

theorem leadingNat_append_of_ended {body : List Byte}
    (h : body.takeWhile isDigit ≠ body) (ext : List Byte) :
    leadingNat (body ++ ext) = leadingNat body := by
  have hlen : (body.takeWhile isDigit).length ≠ body.length := by
    intro heq
    exact h ((List.takeWhile_prefix isDigit).eq_of_length heq)
  rw [leadingNat, List.takeWhile_append, if_neg hlen]
  rfl

theorem leadingNat_append_of_digits {body : List Byte}
    (h : body.takeWhile isDigit = body) (ext : List Byte) :
    leadingNat (body ++ ext) = digitsValue (body ++ ext.takeWhile isDigit) := by
  rw [leadingNat, List.takeWhile_append, if_pos (by rw [h])]

/-- Behind the white space and the sign only the digits matter. -/
theorem exists_body {s : List Byte} (h : s.dropWhile isSpace ≠ []) :
    exists (sign : Int) (body : List Byte), (sign = 1 ∨ sign = -1) ∧
      forall ext, signedValue ((s ++ ext).dropWhile isSpace) =
        sign * leadingNat (body ++ ext) := by
  have hdrop : forall ext, (s ++ ext).dropWhile isSpace = s.dropWhile isSpace ++ ext := by
    intro ext
    rw [List.dropWhile_append, if_neg (by simpa using h)]
  cases htext : s.dropWhile isSpace with
  | nil => exact absurd htext h
  | cons b rest =>
      by_cases hminus : b = minus
      · refine ⟨-1, rest, Or.inr rfl, ?_⟩
        intro ext
        rw [hdrop, htext, List.cons_append, signedValue, if_pos hminus]
        lia
      · by_cases hplus : b = plus
        · refine ⟨1, rest, Or.inl rfl, ?_⟩
          intro ext
          rw [hdrop, htext, List.cons_append, signedValue, if_neg hminus, if_pos hplus]
          lia
        · refine ⟨1, b :: rest, Or.inl rfl, ?_⟩
          intro ext
          rw [hdrop, htext, List.cons_append, signedValue, if_neg hminus, if_neg hplus]
          lia

theorem ofInt_succ_ne (a : Int) : Int32.ofInt (a + 1) ≠ Int32.ofInt a := by
  intro h
  have hmod := congrArg Int32.toInt h
  rw [Int32.toInt_ofInt, Int32.toInt_ofInt] at hmod
  simp only [Int.bmod_def] at hmod
  lia

/-- Two consecutive numbers are told apart unless both are out of range. -/
theorem clampLong_eq_of_pinned {sign : Int} (hsign : sign = 1 ∨ sign = -1) {v w : Nat}
    (hpin : Int32.ofInt (clampLong (sign * (10 * v + 1 : Nat))) =
      Int32.ofInt (clampLong (sign * (10 * v : Nat)))) (hw : 10 * v ≤ w) :
    clampLong (sign * (w : Int)) = clampLong (sign * (10 * v : Nat)) := by
  have hrange : clampLong (sign * (10 * v + 1 : Nat)) = clampLong (sign * (10 * v : Nat)) := by
    by_contra hne
    cases hsign with
    | inl hpos =>
        subst hpos
        have hsucc : clampLong (1 * (10 * v + 1 : Nat)) = clampLong (1 * (10 * v : Nat)) + 1 := by
          unfold clampLong at hne ⊢
          omega
        rw [hsucc] at hpin
        exact ofInt_succ_ne _ hpin
    | inr hneg =>
        subst hneg
        have hsucc : clampLong (-1 * (10 * v : Nat)) = clampLong (-1 * (10 * v + 1 : Nat)) + 1 := by
          unfold clampLong at hne ⊢
          omega
        rw [hsucc] at hpin
        exact ofInt_succ_ne _ hpin.symm
  cases hsign with
  | inl hpos =>
      subst hpos
      unfold clampLong at hrange ⊢
      omega
  | inr hneg =>
      subst hneg
      unfold clampLong at hrange ⊢
      omega

/-- A pinned text reads as the same number whatever follows it. -/
theorem Pinned.atoi_append {s : List Byte} (h : Pinned s) (ext : List Byte) :
    atoi (s ++ ext) = atoi s := by
  by_cases hspace : s.dropWhile isSpace = []
  · -- White space only: a digit would be the number.
    have hone : atoi (s ++ [49]) = 1 := by
      have hdrop : (s ++ [49]).dropWhile isSpace = [49] := by
        rw [List.dropWhile_append, if_pos (by simpa using hspace)]
        decide
      rw [atoi, hdrop]
      decide
    have hzero : atoi s = 0 := by
      rw [atoi, hspace]
      decide
    have hbad := h.2
    rw [hone, hzero] at hbad
    exact absurd hbad (by decide)
  · rcases exists_body hspace with ⟨sign, body, hsign, hvalue⟩
    have hself := hvalue []
    rw [List.append_nil, List.append_nil] at hself
    by_cases hended : body.takeWhile isDigit = body
    · have hread : forall es, atoi (s ++ es) =
          Int32.ofInt (clampLong (sign * digitsValue (body ++ es.takeWhile isDigit))) := by
        intro es
        rw [atoi, hvalue, leadingNat_append_of_digits hended]
      have hzero := hread [48]
      have hone := hread [49]
      have hdigit0 : [(48 : Byte)].takeWhile isDigit = [48] := by decide
      have hdigit1 : [(49 : Byte)].takeWhile isDigit = [49] := by decide
      rw [hdigit0, digitsValue_snoc, h.1] at hzero
      rw [hdigit1, digitsValue_snoc, h.2] at hone
      by_cases hext : ext.takeWhile isDigit = []
      · rw [hread, hext, List.append_nil, atoi, hself, leadingNat, hended]
      · have hpin := hone.symm.trans hzero
        have hsame := clampLong_eq_of_pinned hsign hpin (ten_mul_le_digitsValue body hext)
        rw [hread, hsame]
        exact hzero.symm
    · rw [atoi, hvalue, leadingNat_append_of_ended hended, ← hself, ← atoi]

end CLib
end ShadowFs

import ShadowFs.Hash.Md5
import ShadowFs.Tree.Users

/-!
# The text of a digest

`hashword` formats the sixteen bytes of the digest one by one and appends each to the text.
The loop neither shortens nor overlaps anything: the text can be read back pair by pair, and
two passwords have the same text exactly if they have the same digest.
-/

namespace ShadowFs

open CLib

/-!
## The million digests
-/

theorem md5Repeat_eq (plaintext : List Byte) {n : Nat} (hn : 0 < n) (result : List Byte) :
    md5Repeat plaintext n result = Md5.md5 plaintext := by
  have hkept : forall m, md5Repeat plaintext m (Md5.md5 plaintext) = Md5.md5 plaintext := by
    intro m
    induction m with
    | zero => rfl
    | succ m ih => exact ih
  cases n with
  | zero => cases hn
  | succ n => exact hkept n

theorem hashword_eq_hexText (plaintext : CString) :
    hashword plaintext = hexText (Md5.md5 plaintext.bytes) := by
  rw [hashword, md5Repeat_eq plaintext.bytes (by decide)]

theorem md5_length (message : List Byte) : (Md5.md5 message).length = 16 := rfl

/-!
## Reading pairs of digits
-/

def hexValue (c : Byte) : Nat :=
  if c.toNat < 58 then c.toNat - 48 else c.toNat - 87

def decodePairs : List Byte -> List Byte
  | high :: low :: rest => UInt8.ofNat (16 * hexValue high + hexValue low) :: decodePairs rest
  | _ => []

theorem hexValue_hexDigit {n : Nat} (hn : n < 16) : hexValue (hexDigit n) = n := by
  rw [hexValue, hexDigit_toNat hn]
  split <;> lia

theorem decodePairs_hexByte (b : Byte) (rest : List Byte) :
    decodePairs ((hexByte b).bytes ++ rest) = b :: decodePairs rest := by
  have hlt := b.toNat_lt
  have hpair : UInt8.ofNat (16 * hexValue (hexDigit (b.toNat / 16)) +
      hexValue (hexDigit (b.toNat % 16))) = b := by
    rw [hexValue_hexDigit (by lia), hexValue_hexDigit (by lia), Nat.div_add_mod, UInt8.ofNat_toNat]
  show _ :: decodePairs rest = _
  rw [hpair]

/-- Loop invariant: the text so far is kept and the pairs follow in order. -/
theorem hexLoop_bytes (result : List Byte) (is : List Nat) (ret : CString) :
    (is.foldl (fun ret i => strncat ret (hexByte (result.getD i 0)) 33) ret).bytes =
      ret.bytes ++ is.flatMap (fun i => (hexByte (result.getD i 0)).bytes) := by
  induction is generalizing ret with
  | nil => simp
  | cons i is ih =>
      rw [List.foldl_cons, ih, strncat, hexByte_take, CString.append_bytes, List.flatMap_cons,
        List.append_assoc]

theorem decodePairs_flatMap (bs : List Byte) :
    decodePairs (bs.flatMap (fun b => (hexByte b).bytes)) = bs := by
  induction bs with
  | nil => rfl
  | cons b bs ih => rw [List.flatMap_cons, decodePairs_hexByte, ih]

theorem decodePairs_hexText {result : List Byte} (hlen : result.length = 16) :
    decodePairs (hexText result).bytes = result := by
  have hbytes : (List.range 16).map (fun i => result.getD i 0) = result := by
    apply List.ext_getElem
    · rw [List.length_map, List.length_range, hlen]
    · intro i _ hi
      rw [List.getElem_map, List.getElem_range, List.getD_eq_getElem?_getD,
        List.getElem?_eq_getElem hi, Option.getD_some]
  have hempty : (CString.lit "").bytes = [] := by decide
  rw [hexText, hexLoop_bytes, hempty, List.nil_append]
  have hflat := decodePairs_flatMap ((List.range 16).map (fun i => result.getD i 0))
  rw [List.flatMap_map, hbytes] at hflat
  exact hflat

/-!
## The text as a field of the record
-/

theorem decodePairs_hashword (plaintext : CString) :
    decodePairs (hashword plaintext).bytes = Md5.md5 plaintext.bytes := by
  rw [hashword_eq_hexText, decodePairs_hexText (md5_length _)]

theorem hashword_digit {plaintext : CString} {c : Byte} (hc : c ∈ (hashword plaintext).bytes) :
    (48 ≤ c.toNat ∧ c.toNat ≤ 57) ∨ (97 ≤ c.toNat ∧ c.toNat ≤ 102) := by
  rcases isHex_of_mem_hashword hc with ⟨n, hn, rfl⟩
  rw [hexDigit_toNat hn]
  split <;> lia

/-- The text that is stored for a password. -/
structure FaithfulText (plaintext : CString) : Prop where
  length : (hashword plaintext).length = 32
  digits : forall c, c ∈ (hashword plaintext).bytes ->
    (48 ≤ c.toNat ∧ c.toNat ≤ 57) ∨ (97 ≤ c.toNat ∧ c.toNat ≤ 102)
  separators : colon ∉ (hashword plaintext).bytes ∧ newline ∉ (hashword plaintext).bytes
  accepted : forall (ρ : Type) [UserRep ρ] (sf : List ρ) (name : CString),
    findUser sf name ≠ none -> (updateHash sf name (hashword plaintext)).1 = 0
  decoded : decodePairs (hashword plaintext).bytes = Md5.md5 plaintext.bytes
  injective : forall other, hashword plaintext = hashword other <->
    Md5.md5 plaintext.bytes = Md5.md5 other.bytes
  once : forall result, md5Repeat plaintext.bytes 1000000 result = Md5.md5 plaintext.bytes

theorem hashword_faithful (plaintext : CString) : FaithfulText plaintext where
  length := hashword_length plaintext
  digits := fun _ hc => hashword_digit hc
  separators := ⟨not_mem_hashword (by decide), not_mem_hashword (by decide)⟩
  accepted := by
    intro ρ _ sf name hfound
    rcases exists_firstMatch hfound with ⟨front, u, back, hm⟩
    rw [updateHash_eq_updateField sf name (Nat.le_of_eq (hashword_length plaintext)),
      hm.updateField_eq]
  decoded := decodePairs_hashword plaintext
  injective := by
    intro other
    constructor
    · intro h
      rw [← decodePairs_hashword plaintext, h, decodePairs_hashword]
    · intro h
      rw [hashword_eq_hexText, hashword_eq_hexText, h]
  once := md5Repeat_eq plaintext.bytes (by decide)

end ShadowFs

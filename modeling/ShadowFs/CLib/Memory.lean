import ShadowFs.CLib.CString

/-!
# Storing bytes in a block of memory

`poke` overwrites a stretch of a block and drops what would fall behind its
end.  The lemmas describe the block before and behind the stretch, which is all
that is needed to read fields back.  The last section stores a 32-bit `int` as
four bytes, least significant first.
-/

namespace ShadowFs
namespace CLib

def poke (mem : List Byte) (off : Nat) (bs : List Byte) : List Byte :=
  (mem.take off ++ (bs ++ mem.drop (off + bs.length))).take mem.length

@[simp] theorem poke_length (mem : List Byte) {off : Nat} (bs : List Byte)
    (hoff : off ≤ mem.length) : (poke mem off bs).length = mem.length := by
  simp only [poke, List.length_take, List.length_append, List.length_drop]
  lia

theorem poke_of_fits {mem bs : List Byte} {off : Nat}
    (hfit : off + bs.length ≤ mem.length) :
    poke mem off bs = mem.take off ++ (bs ++ mem.drop (off + bs.length)) := by
  apply List.take_of_length_le
  simp only [List.length_take, List.length_append, List.length_drop]
  lia

theorem poke_take_of_le {mem : List Byte} {off n : Nat} (bs : List Byte)
    (hoff : off ≤ mem.length) (hn : n ≤ off) :
    (poke mem off bs).take n = mem.take n := by
  have hlen : (mem.take off).length = off := by
    simp only [List.length_take]
    lia
  rw [poke, List.take_take, List.take_append_of_le_length (by rw [hlen]; lia),
    List.take_take]
  congr 1
  lia

theorem poke_drop_self {mem bs : List Byte} {off : Nat}
    (hfit : off + bs.length ≤ mem.length) :
    (poke mem off bs).drop off = bs ++ mem.drop (off + bs.length) := by
  have hlen : (mem.take off).length = off := by
    simp only [List.length_take]
    lia
  rw [poke_of_fits hfit, List.drop_append, hlen, Nat.sub_self, List.drop_zero,
    List.drop_of_length_le (by rw [hlen]), List.nil_append]

theorem poke_drop_of_ge {mem bs : List Byte} {off n : Nat}
    (hfit : off + bs.length ≤ mem.length) (hn : off + bs.length ≤ n) :
    (poke mem off bs).drop n = mem.drop n := by
  have hsplit : n = off + (bs.length + (n - (off + bs.length))) := by lia
  rw [hsplit, ← List.drop_drop, poke_drop_self hfit, ← List.drop_drop,
    List.drop_left, List.drop_drop, Nat.add_assoc]

/-!
## Strings in a block
-/

/-- The string that starts at offset `off`. -/
def stringAt (mem : List Byte) (off : Nat) : CString :=
  CString.ofBytes (mem.drop off)

/-- `strcpy`: the string and its terminator. -/
def pokeString (mem : List Byte) (off : Nat) (s : CString) : List Byte :=
  poke mem off (s.bytes ++ [0])

theorem stringAt_pokeString {mem : List Byte} {off : Nat} {s : CString}
    (hfit : off + s.length + 1 ≤ mem.length) :
    stringAt (pokeString mem off s) off = s := by
  have hfit' : off + (s.bytes ++ [0]).length ≤ mem.length := by
    simpa [CString.length, Nat.add_assoc] using hfit
  rw [stringAt, pokeString, poke_drop_self hfit', List.append_assoc]
  exact CString.ofBytes_append_nul s _

theorem ofBytes_take_append_nul (s : CString) (behind : List Byte) (k : Nat) :
    (CString.ofBytes ((s.bytes ++ 0 :: behind).take k)).bytes = s.bytes.take k := by
  by_cases hk : k ≤ s.bytes.length
  · have hfree : (0 : Byte) ∉ s.bytes.take k := fun h => s.nulFree (List.mem_of_mem_take h)
    rw [List.take_append_of_le_length hk, CString.ofBytes_of_nulFree hfree]
  · obtain ⟨j, hj⟩ : exists j, k - s.bytes.length = j + 1 :=
      ⟨k - s.bytes.length - 1, by lia⟩
    have hlong : s.bytes.length ≤ k := Nat.le_of_not_le hk
    rw [List.take_append, hj, List.take_succ_cons, List.take_of_length_le hlong,
      CString.ofBytes_append_nul]

theorem ofBytes_eq_of_take {mem mem' : List Byte} {n : Nat}
    (htake : mem'.take n = mem.take n) (hlen : (CString.ofBytes mem).length < n)
    (hn : n ≤ mem.length) :
    CString.ofBytes mem' = CString.ofBytes mem := by
  have hnul : (0 : Byte) ∈ mem.take n := by
    by_contra hfree
    have hall := forall_ne_of_not_mem hfree
    have hlong : (CString.ofBytes mem).bytes =
        mem.take n ++ (mem.drop n).takeWhile (fun b => b ≠ 0) := by
      rw [← List.takeWhile_append_of_pos hall, List.take_append_drop]
      rfl
    have hlen' : (CString.ofBytes mem).bytes.length < n := hlen
    rw [hlong, List.length_append, List.length_take] at hlen'
    lia
  have hread : forall m : List Byte, m.take n = mem.take n ->
      CString.ofBytes m = CString.ofBytes (mem.take n) := by
    intro m hm
    rcases (CBuffer.mk (mem.take n) hnul).exists_behind with ⟨behind, hbytes⟩
    have hm' : m = (CString.ofBytes (mem.take n)).bytes ++
        0 :: (behind ++ m.drop n) := by
      calc m = m.take n ++ m.drop n := (List.take_append_drop n m).symm
        _ = (CString.ofBytes (mem.take n)).bytes ++ 0 :: behind ++ m.drop n := by
            rw [hm]
            exact congrArg (fun l => l ++ m.drop n) hbytes
        _ = _ := by simp
    rw [hm']
    exact CString.ofBytes_append_nul _ _
  rw [hread mem' htake, hread mem rfl]

/-- A string ends where its bytes are followed by NUL and nowhere before. -/
theorem ofBytes_append_cons_eq_iff (s : CString) (b : Byte) (behind : List Byte) :
    CString.ofBytes (s.bytes ++ b :: behind) = s <-> b = 0 := by
  constructor
  · intro h
    by_contra hb
    have hall := forall_ne_of_not_mem s.nulFree
    have hbytes : (s.bytes ++ b :: behind).takeWhile (fun c => c ≠ 0) = s.bytes :=
      congrArg CString.bytes h
    rw [List.takeWhile_append_of_pos hall] at hbytes
    have hlen := congrArg List.length hbytes
    simp [hb] at hlen
  · intro hb
    rw [hb]
    exact CString.ofBytes_append_nul s behind

theorem stringAt_poke_of_lt {mem bs : List Byte} {off pos : Nat}
    (hoff : off ≤ mem.length) (hlen : pos + (stringAt mem pos).length < off) :
    stringAt (poke mem off bs) pos = stringAt mem pos := by
  apply ofBytes_eq_of_take (n := off - pos)
  · rw [← List.drop_take, ← List.drop_take, poke_take_of_le bs hoff (Nat.le_refl off)]
  · have hlen' : pos + (CString.ofBytes (mem.drop pos)).length < off := hlen
    lia
  · rw [List.length_drop]
    lia

theorem stringAt_poke_of_ge {mem bs : List Byte} {off pos : Nat}
    (hfit : off + bs.length ≤ mem.length) (hat : off + bs.length ≤ pos) :
    stringAt (poke mem off bs) pos = stringAt mem pos := by
  rw [stringAt, poke_drop_of_ge hfit hat, stringAt]

/-!
## Integers in a block
-/

def int32Bytes (v : Int32) : List Byte :=
  let n := v.toBitVec.toNat
  [UInt8.ofNat n, UInt8.ofNat (n / 256), UInt8.ofNat (n / 65536),
    UInt8.ofNat (n / 16777216)]

def int32OfBytes (bs : List Byte) : Int32 :=
  Int32.ofBitVec (BitVec.ofNat 32
    ((bs.getD 0 0).toNat + 256 * (bs.getD 1 0).toNat +
      65536 * (bs.getD 2 0).toNat + 16777216 * (bs.getD 3 0).toNat))

@[simp] theorem int32Bytes_length (v : Int32) : (int32Bytes v).length = 4 := rfl

theorem int32OfBytes_append (v : Int32) (behind : List Byte) :
    int32OfBytes (int32Bytes v ++ behind) = v := by
  have hlt : v.toBitVec.toNat < 4294967296 := v.toBitVec.isLt
  apply Int32.toBitVec_inj.mp
  apply BitVec.eq_of_toNat_eq
  simp only [int32OfBytes, int32Bytes, List.cons_append, List.getD_cons_zero,
    List.getD_cons_succ, Int32.toBitVec_ofBitVec, BitVec.toNat_ofNat,
    UInt8.toNat_ofNat']
  omega

theorem int32OfBytes_toNat {b : Byte} {bs : List Byte} :
    (int32OfBytes (b :: bs)).toBitVec.toNat =
      b.toNat + 256 * (bs.getD 0 0).toNat + 65536 * (bs.getD 1 0).toNat +
        16777216 * (bs.getD 2 0).toNat := by
  have h0 := b.toNat_lt
  have h1 := (bs.getD 0 0).toNat_lt
  have h2 := (bs.getD 1 0).toNat_lt
  have h3 := (bs.getD 2 0).toNat_lt
  simp only [int32OfBytes, List.getD_cons_zero, List.getD_cons_succ,
    Int32.toBitVec_ofBitVec, BitVec.toNat_ofNat]
  omega

theorem toInt_emod_256 (v : Int32) :
    v.toInt % 256 = ((v.toBitVec.toNat % 256 : Nat) : Int) := by
  have h := BitVec.toInt_eq_toNat_bmod v.toBitVec
  have hv : v.toInt = v.toBitVec.toInt := rfl
  rw [hv, h, Int.bmod_def]
  split <;> omega

/-- The low byte is NUL exactly for the multiples of 256. -/
theorem int32OfBytes_emod_eq_zero_iff (b : Byte) (bs : List Byte) :
    (int32OfBytes (b :: bs)).toInt % 256 = 0 <-> b = 0 := by
  have hlt := b.toNat_lt
  rw [toInt_emod_256, int32OfBytes_toNat, ← UInt8.toNat_inj, UInt8.toNat_zero]
  omega

theorem int32OfBytes_cons_inj {b c : Byte} {bs : List Byte} :
    int32OfBytes (b :: bs) = int32OfBytes (c :: bs) <-> b = c := by
  rw [← Int32.toBitVec_inj, ← BitVec.toNat_inj, int32OfBytes_toNat,
    int32OfBytes_toNat, ← UInt8.toNat_inj]
  omega

def int32At (mem : List Byte) (off : Nat) : Int32 :=
  int32OfBytes (mem.drop off)

def pokeInt32 (mem : List Byte) (off : Nat) (v : Int32) : List Byte :=
  poke mem off (int32Bytes v)

theorem int32At_pokeInt32 {mem : List Byte} {off : Nat} (v : Int32)
    (hfit : off + 4 ≤ mem.length) : int32At (pokeInt32 mem off v) off = v := by
  rw [int32At, pokeInt32, poke_drop_self (by simpa using hfit)]
  exact int32OfBytes_append v _

theorem int32At_poke_of_ge {mem bs : List Byte} {off pos : Nat}
    (hfit : off + bs.length ≤ mem.length) (hat : off + bs.length ≤ pos) :
    int32At (poke mem off bs) pos = int32At mem pos := by
  rw [int32At, poke_drop_of_ge hfit hat, int32At]

theorem int32OfBytes_take (bs : List Byte) :
    int32OfBytes (bs.take 4) = int32OfBytes bs := by
  rcases bs with _ | ⟨a, _ | ⟨b, _ | ⟨c, _ | ⟨d, rest⟩⟩⟩⟩ <;> rfl

theorem int32At_poke_of_le {mem bs : List Byte} {off pos : Nat}
    (hoff : off ≤ mem.length) (hat : pos + 4 ≤ off) :
    int32At (poke mem off bs) pos = int32At mem pos := by
  have htake : ((poke mem off bs).drop pos).take 4 = (mem.drop pos).take 4 := by
    rw [List.take_drop, List.take_drop, poke_take_of_le bs hoff hat]
  rw [int32At, ← int32OfBytes_take, htake, int32OfBytes_take, int32At]

theorem int32Bytes_int32OfBytes (a b c d : Byte) (behind : List Byte) :
    int32Bytes (int32OfBytes (a :: b :: c :: d :: behind)) = [a, b, c, d] := by
  have ha := a.toNat_lt
  have hb := b.toNat_lt
  have hc := c.toNat_lt
  have hd := d.toNat_lt
  have hnat := @int32OfBytes_toNat a (b :: c :: d :: behind)
  simp only [List.getD_cons_zero, List.getD_cons_succ] at hnat
  simp only [int32Bytes, hnat, List.cons.injEq, and_true, ← UInt8.toNat_inj,
    UInt8.toNat_ofNat']
  omega

theorem drop_eq_int32Bytes_append {mem : List Byte} {off : Nat} (hfit : off + 4 ≤ mem.length) :
    mem.drop off = int32Bytes (int32At mem off) ++ mem.drop (off + 4) := by
  rw [int32At, ← List.drop_drop]
  have hlen : 4 ≤ (mem.drop off).length := by
    rw [List.length_drop]
    lia
  generalize mem.drop off = bs at hlen ⊢
  rcases bs with _ | ⟨a, _ | ⟨b, _ | ⟨c, _ | ⟨d, rest⟩⟩⟩⟩
  · exact absurd hlen (by simp)
  · exact absurd hlen (by simp)
  · exact absurd hlen (by simp)
  · exact absurd hlen (by simp)
  · rw [int32Bytes_int32OfBytes]
    rfl

end CLib
end ShadowFs

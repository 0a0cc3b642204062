-- Bit fields and bytes of a machine word. A field is a run of bits, read by
-- `getBits` and replaced by `setBits`, as a C bit field is. The laws say that a
-- read after a write gives the value written, and that other fields stay.
import Mathlib.Data.BitVec
import Mathlib.Tactic

namespace Words

variable {w n n' : Nat}

/-! ## Fields -/

/-- The bits `lo`, ..., `lo + n - 1` of a word. -/
def getBits (x : BitVec w) (lo n : Nat) : BitVec n := x.extractLsb' lo n

/-- The word `x` with the bits from `lo` on replaced by those of `v`. -/
def setBits (x : BitVec w) (lo : Nat) (v : BitVec n) : BitVec w :=
  (x &&& ~~~((BitVec.allOnes n).setWidth w <<< lo)) ||| (v.setWidth w <<< lo)

theorem getLsbD_setBits (x : BitVec w) (lo : Nat) (v : BitVec n) (i : Nat) (hi : i < w) :
    (setBits x lo v).getLsbD i =
      if lo ≤ i ∧ i < lo + n then v.getLsbD (i - lo) else x.getLsbD i := by
  unfold setBits
  simp only [BitVec.getLsbD_or, BitVec.getLsbD_and, BitVec.getLsbD_not, BitVec.getLsbD_shiftLeft,
    BitVec.getLsbD_setWidth, BitVec.getLsbD_allOnes, hi, decide_true, Bool.true_and]
  by_cases h1 : lo ≤ i
  · have h2 : i - lo < w := by omega
    have h3 : ¬ i < lo := by omega
    by_cases h4 : i < lo + n
    · have h5 : i - lo < n := by omega
      simp [h1, h2, h3, h4, h5]
    · have h5 : ¬ i - lo < n := by omega
      have h6 : v.getLsbD (i - lo) = false := BitVec.getLsbD_of_ge v _ (by omega)
      simp [h2, h3, h4, h5, h6]
  · have h3 : i < lo := by omega
    simp [h1, h3]

theorem getBits_setBits_self (x : BitVec w) (lo : Nat) (v : BitVec n) (h : lo + n ≤ w) :
    getBits (setBits x lo v) lo n = v := by
  apply BitVec.eq_of_getLsbD_eq
  intro i hi
  unfold getBits
  rw [BitVec.getLsbD_extractLsb', getLsbD_setBits _ _ _ _ (by omega)]
  simp [hi]

/-- A field that shares no bit with the one written keeps its value. -/
theorem getBits_setBits_of_disjoint (x : BitVec w) (lo lo' : Nat) (v : BitVec n)
    (h : lo' + n' ≤ lo ∨ lo + n ≤ lo') :
    getBits (setBits x lo v) lo' n' = getBits x lo' n' := by
  apply BitVec.eq_of_getLsbD_eq
  intro i hi
  unfold getBits
  rw [BitVec.getLsbD_extractLsb', BitVec.getLsbD_extractLsb']
  by_cases hw : lo' + i < w
  · rw [getLsbD_setBits _ _ _ _ hw, if_neg (by omega)]
  · rw [BitVec.getLsbD_of_ge _ _ (by omega), BitVec.getLsbD_of_ge _ _ (by omega)]

/-- The last write of a field decides. -/
theorem setBits_setBits_self (x : BitVec w) (lo : Nat) (u v : BitVec n) :
    setBits (setBits x lo u) lo v = setBits x lo v := by
  apply BitVec.eq_of_getLsbD_eq
  intro i hi
  simp only [getLsbD_setBits _ _ _ _ hi]
  split <;> rfl

theorem getBits_zero (lo n : Nat) : getBits (0 : BitVec w) lo n = 0 := by
  apply BitVec.eq_of_getLsbD_eq
  intro i hi
  simp [getBits]

/-- Clearing the low bits rounds down to a multiple of a power of two. -/
theorem toNat_and_not_mask (x : BitVec w) (k : Nat) :
    (x &&& ~~~(BitVec.ofNat w (2 ^ k - 1))).toNat = x.toNat / 2 ^ k * 2 ^ k := by
  have hshift : x &&& ~~~(BitVec.ofNat w (2 ^ k - 1)) = (x >>> k) <<< k := by
    apply BitVec.eq_of_getLsbD_eq
    intro i hi
    rw [BitVec.getLsbD_and, BitVec.getLsbD_not, BitVec.getLsbD_ofNat, Nat.testBit_two_pow_sub_one,
      BitVec.getLsbD_shiftLeft, BitVec.getLsbD_ushiftRight]
    by_cases h : i < k
    · simp [h]
    · have : k + (i - k) = i := by omega
      simp [h, hi, this]
  have hle : x.toNat / 2 ^ k * 2 ^ k ≤ x.toNat := Nat.div_mul_le_self _ _
  rw [hshift, BitVec.toNat_shiftLeft, BitVec.toNat_ushiftRight, Nat.shiftRight_eq_div_pow,
    Nat.shiftLeft_eq]
  exact Nat.mod_eq_of_lt (hle.trans_lt x.isLt)

/-! ## Single bits -/

/-- Bit `i` of a word, as a one-bit field. -/
def getFlag (x : BitVec w) (i : Nat) : Bool := getBits x i 1 == 1

def setFlag (x : BitVec w) (i : Nat) (b : Bool) : BitVec w := setBits x i (BitVec.ofBool b)

theorem getFlag_setFlag_self (x : BitVec w) (i : Nat) (b : Bool) (h : i < w) :
    getFlag (setFlag x i b) i = b := by
  unfold getFlag setFlag
  rw [getBits_setBits_self _ _ _ (by omega)]
  cases b <;> rfl

theorem getFlag_setFlag_of_ne (x : BitVec w) (i j : Nat) (b : Bool) (h : i ≠ j) :
    getFlag (setFlag x i b) j = getFlag x j := by
  unfold getFlag setFlag
  rw [getBits_setBits_of_disjoint _ _ _ _ (by omega)]

theorem getFlag_setBits (x : BitVec w) (lo j : Nat) (v : BitVec n) (h : j < lo ∨ lo + n ≤ j) :
    getFlag (setBits x lo v) j = getFlag x j := by
  unfold getFlag
  rw [getBits_setBits_of_disjoint _ _ _ _ (by omega)]

theorem getBits_setFlag (x : BitVec w) (i lo : Nat) (b : Bool) (h : i < lo ∨ lo + n ≤ i) :
    getBits (setFlag x i b) lo n = getBits x lo n := by
  unfold setFlag
  rw [getBits_setBits_of_disjoint _ _ _ _ (by omega)]

@[simp] theorem getFlag_zero (i : Nat) : getFlag (0 : BitVec w) i = false := by
  unfold getFlag
  rw [getBits_zero]
  rfl

/-! ## Bytes, least significant first -/

def getByte (x : BitVec 64) (k : Nat) : BitVec 8 := getBits x (8 * k) 8

def setByte (x : BitVec 64) (k : Nat) (b : BitVec 8) : BitVec 64 := setBits x (8 * k) b

theorem getByte_setByte_self (x : BitVec 64) (k : Nat) (b : BitVec 8) (h : k < 8) :
    getByte (setByte x k b) k = b := getBits_setBits_self _ _ _ (by omega)

theorem getByte_setByte_of_ne (x : BitVec 64) (j k : Nat) (b : BitVec 8) (h : k ≠ j) :
    getByte (setByte x k b) j = getByte x j :=
  getBits_setBits_of_disjoint _ _ _ _ (by omega)

/-- The word with its first `n` bytes replaced where `f` gives a byte. -/
def patch (f : Nat → Option (BitVec 8)) (x : BitVec 64) : Nat → BitVec 64
  | 0 => x
  | n + 1 => match f n with
    | none => patch f x n
    | some b => setByte (patch f x n) n b

theorem getByte_patch (f : Nat → Option (BitVec 8)) (x : BitVec 64) (n k : Nat) (hk : k < n)
    (hn : n ≤ 8) : getByte (patch f x n) k = (f k).getD (getByte x k) := by
  have hlater : ∀ n, n ≤ k → getByte (patch f x n) k = getByte x k := by
    intro n
    induction n with
    | zero => intro _; rfl
    | succ n ih =>
      intro hnk
      unfold patch
      split
      · exact ih (by omega)
      · rw [getByte_setByte_of_ne _ _ _ _ (by omega)]
        exact ih (by omega)
  induction n with
  | zero => omega
  | succ n ih =>
    unfold patch
    by_cases he : k = n
    · subst he
      rcases hf : f k with _ | b
      · simp only [Option.getD_none]
        exact hlater k (Nat.le_refl k)
      · simp only [Option.getD_some]
        exact getByte_setByte_self _ _ _ (by omega)
    · split
      · exact ih (by omega) (by omega)
      · rw [getByte_setByte_of_ne _ _ _ _ (by omega)]
        exact ih (by omega) (by omega)

/-- The little-endian number in the `n` bytes from `off` on. -/
def little_endian (b : Nat → BitVec 8) (off : Nat) : Nat → Nat
  | 0 => 0
  | n + 1 => (b off).toNat + 256 * little_endian b (off + 1) n

def u16 (b : Nat → BitVec 8) (off : Nat) : BitVec 16 := BitVec.ofNat 16 (little_endian b off 2)

def u32 (b : Nat → BitVec 8) (off : Nat) : BitVec 32 := BitVec.ofNat 32 (little_endian b off 4)

def u64 (b : Nat → BitVec 8) (off : Nat) : BitVec 64 := BitVec.ofNat 64 (little_endian b off 8)

end Words

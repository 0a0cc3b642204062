-- How numbers are printed: `print_unsigned` and `print_signed` of the kernel (`stdio.c`), and `putnum`
-- of the user library (`syscall.c`). A character that is emitted is one call of `putchar` or `putc`.
import JamsOs.Numerals

namespace JamsOs

open Numerals

/-! ## The functions -/

/-- A write to `buf[i]`, where `buf` has `size` bytes. There is nothing when it would leave them. -/
def write_char (size : Nat) (buf : Nat → BitVec 8) (i : Nat) (c : BitVec 8) :
    Option (Nat → BitVec 8) :=
  if i < size then some (Function.update buf i c) else none

/-- `"0123456789ABCDEF"`, with the byte that ends it. -/
def digit_chars : List (BitVec 8) :=
  [0x30, 0x31, 0x32, 0x33, 0x34, 0x35, 0x36, 0x37, 0x38, 0x39, 0x41, 0x42, 0x43, 0x44, 0x45, 0x46, 0]

def sizeof_print_buf : Nat := 32

/-- The first loop of `print_unsigned`. A division by zero, a digit behind the string of digits and a
write behind the buffer are faults. -/
def print_digits (base : BitVec 32) (num : BitVec 64) (buf : Nat → BitVec 8) (i : Nat) :
    Option ((Nat → BitVec 8) × Nat) :=
  if 0 < num then
    if base = 0 then none
    else
      match digit_chars[(num % base.setWidth 64).toNat]? with
      | none => none
      | some c =>
        if h : i < sizeof_print_buf then
          (write_char sizeof_print_buf buf i c).bind fun buf =>
            print_digits base (num / base.setWidth 64) buf (i + 1)
        else none
  else some (buf, i)
termination_by sizeof_print_buf - i

/-- The last loop of both functions: the bytes before position `i`, the last one first. -/
def put_back (buf : Nat → BitVec 8) : Nat → List (BitVec 8)
  | 0 => []
  | i + 1 => buf i :: put_back buf i

/-- What is emitted. `buf` is what the buffer has at the start. -/
def print_unsigned (buf : Nat → BitVec 8) (num : BitVec 64) (base : BitVec 32) :
    Option (List (BitVec 8)) :=
  if num = 0 then (write_char sizeof_print_buf buf 0 0x30).map fun buf => put_back buf 1
  else (print_digits base num buf 0).map fun r => put_back r.1 r.2

def print_signed (buf : Nat → BitVec 8) (num : BitVec 64) : Option (List (BitVec 8)) :=
  if num.slt 0 then (print_unsigned buf (-num) 10).map (0x2D :: ·)
  else print_unsigned buf num 10

def sizeof_putnum_buf : Nat := 21

/-- The first loop of `putnum`, which ends at the end of the buffer too. -/
def putnum_digits (n : BitVec 64) (buf : Nat → BitVec 8) (i : Nat) :
    Option ((Nat → BitVec 8) × Nat) :=
  if h : 0 < n ∧ i < sizeof_putnum_buf then
    (write_char sizeof_putnum_buf buf i ((0x30 + n % 10).setWidth 8)).bind fun buf =>
      putnum_digits (n / 10) buf (i + 1)
  else some (buf, i)
termination_by sizeof_putnum_buf - i

def putnum (buf : Nat → BitVec 8) (n : BitVec 64) : Option (List (BitVec 8)) :=
  if n = 0 then some [0x30] else (putnum_digits n buf 0).map fun r => put_back r.1 r.2

/-! ## Reading a number -/

/-- The value of a digit, which is below the base. -/
def digit_value (base : Nat) (c : BitVec 8) : Option Nat :=
  if 0x30 ≤ c.toNat ∧ c.toNat ≤ 0x39 ∧ c.toNat - 0x30 < base then some (c.toNat - 0x30)
  else if 0x41 ≤ c.toNat ∧ c.toNat ≤ 0x46 ∧ c.toNat - 0x41 + 10 < base then some (c.toNat - 0x41 + 10)
  else none

/-- The string is the number in the base, without leading zeros. -/
def Prints (base : Nat) (s : List (BitVec 8)) (n : Nat) : Prop :=
  Numeral (digit_value base) base s n

/-- The string is the number in decimal, with a minus sign if it is negative. -/
def PrintsSigned (s : List (BitVec 8)) (n : Int) : Prop :=
  if n < 0 then ∃ t, s = 0x2D :: t ∧ Prints 10 t n.natAbs else Prints 10 s n.natAbs

/-- The character of a digit. -/
def digit_char (d : Nat) : BitVec 8 := digit_chars.getD d 0

/-! ## The loops -/

section

variable {buf buf' : Nat → BitVec 8} {i j : Nat} {c : BitVec 8}

theorem put_back_congr (h : ∀ j < i, buf' j = buf j) : put_back buf' i = put_back buf i := by
  induction i with
  | zero => rfl
  | succ i ih => rw [put_back, put_back, h i (by omega), ih fun j hj => h j (by omega)]

theorem put_back_update (buf : Nat → BitVec 8) (i : Nat) (c : BitVec 8) :
    put_back (Function.update buf i c) (i + 1) = c :: put_back buf i := by
  rw [put_back, Function.update_self]
  congr 1
  exact put_back_congr fun j hj => by rw [Function.update_of_ne (by omega)]

/-- Both functions have the same characters for the decimal digits. -/
theorem decimal_char {d : BitVec 64} (h : d.toNat < 10) :
    (0x30 + d).setWidth 8 = digit_char d.toNat := by
  have hchars : ∀ k < 10, digit_char k = BitVec.ofNat 8 (0x30 + k) := by decide
  rw [hchars _ h]
  apply BitVec.eq_of_toNat_eq
  rw [BitVec.toNat_setWidth, BitVec.toNat_add, BitVec.toNat_ofNat]
  have h30 : (0x30 : BitVec 64).toNat = 0x30 := rfl
  omega

/-- The digits of a number that fits are added behind those in the buffer. -/
theorem print_digits.spec {base : BitVec 32} (hbase : 1 < base.toNat) (hhex : base.toNat ≤ 16)
    (num : BitVec 64) (buf : Nat → BitVec 8) (i : Nat)
    (hroom : i + (Nat.digits base.toNat num.toNat).length ≤ sizeof_print_buf) :
    ∃ buf' i', print_digits base num buf i = some (buf', i') ∧
      put_back buf' i' = ((Nat.digits base.toNat num.toNat).map digit_char).reverse ++
        put_back buf i := by
  have hwide : (base.setWidth 64).toNat = base.toNat := by
    rw [BitVec.toNat_setWidth]
    omega
  have hnonzero : base ≠ 0 := fun h0 => by
    rw [h0] at hbase
    exact absurd hbase (by decide)
  induction hk : num.toNat using Nat.strongRecOn generalizing num buf i with
  | ind k ih =>
    unfold print_digits
    by_cases hmore : 0 < num
    swap
    · have hzero : k = 0 := by
        rw [BitVec.lt_def] at hmore
        simp only [BitVec.ofNat_eq_ofNat, BitVec.toNat_ofNat, Nat.zero_mod] at hmore
        omega
      rw [if_neg hmore, hzero, Nat.digits_zero]
      exact ⟨buf, i, rfl, rfl⟩
    have hpos : 0 < k := by
      rw [BitVec.lt_def] at hmore
      simp only [BitVec.ofNat_eq_ofNat, BitVec.toNat_ofNat, Nat.zero_mod] at hmore
      omega
    have hmod : (num % base.setWidth 64).toNat = k % base.toNat := by
      rw [BitVec.toNat_umod, hwide, hk]
    have hdiv : (num / base.setWidth 64).toNat = k / base.toNat := by
      rw [BitVec.toNat_udiv, hwide, hk]
    have hlt : k % base.toNat < base.toNat := Nat.mod_lt _ (by omega)
    have hchar : digit_chars[k % base.toNat]? = some (digit_char (k % base.toNat)) := by
      have hin : k % base.toNat < digit_chars.length := by
        have : digit_chars.length = 17 := rfl
        omega
      rw [digit_char, List.getD_eq_getElem?_getD, List.getElem?_eq_getElem hin, Option.getD_some]
    have hstep := Nat.digits_def' hbase hpos
    rw [hk, hstep, List.length_cons] at hroom
    have hi : i < sizeof_print_buf := by omega
    rw [if_pos hmore, if_neg hnonzero, hmod, hchar]
    dsimp only
    rw [dif_pos hi, write_char, if_pos hi, Option.bind_some]
    obtain ⟨buf', i', hrun, hput⟩ := ih (k / base.toNat) (Nat.div_lt_self hpos hbase)
      (num / base.setWidth 64) (Function.update buf i (digit_char (k % base.toNat))) (i + 1)
      (by rw [hdiv]; omega) hdiv
    refine ⟨buf', i', hrun, ?_⟩
    rw [hput, put_back_update, hstep, List.map_cons, List.reverse_cons, List.append_assoc,
      List.singleton_append]

theorem putnum_digits.spec (n : BitVec 64) (buf : Nat → BitVec 8) (i : Nat)
    (hroom : i + (Nat.digits 10 n.toNat).length ≤ sizeof_putnum_buf) :
    ∃ buf' i', putnum_digits n buf i = some (buf', i') ∧
      put_back buf' i' = ((Nat.digits 10 n.toNat).map digit_char).reverse ++ put_back buf i := by
  induction hk : n.toNat using Nat.strongRecOn generalizing n buf i with
  | ind k ih =>
    unfold putnum_digits
    by_cases hpos : 0 < k
    swap
    · have hmore : ¬ 0 < n := by
        rw [BitVec.lt_def]
        simp only [BitVec.ofNat_eq_ofNat, BitVec.toNat_ofNat, Nat.zero_mod]
        omega
      have hzero : k = 0 := by omega
      rw [dif_neg fun h => hmore h.1, hzero, Nat.digits_zero]
      exact ⟨buf, i, rfl, rfl⟩
    have hmore : 0 < n := by
      rw [BitVec.lt_def]
      simp only [BitVec.ofNat_eq_ofNat, BitVec.toNat_ofNat, Nat.zero_mod]
      omega
    have hdiv : (n / 10).toNat = k / 10 := by
      rw [BitVec.toNat_udiv, hk]
      rfl
    have hmod : (n % 10).toNat = k % 10 := by
      rw [BitVec.toNat_umod, hk]
      rfl
    have hstep := Nat.digits_def' (by decide : 1 < 10) hpos
    rw [hk, hstep, List.length_cons] at hroom
    have hi : i < sizeof_putnum_buf := by omega
    rw [dif_pos ⟨hmore, hi⟩, write_char, if_pos hi, Option.bind_some,
      decimal_char (by omega : (n % 10).toNat < 10), hmod]
    obtain ⟨buf', i', hrun, hput⟩ := ih (k / 10) (Nat.div_lt_self hpos (by decide)) (n / 10)
      (Function.update buf i (digit_char (k % 10))) (i + 1) (by rw [hdiv]; omega) hdiv
    refine ⟨buf', i', hrun, ?_⟩
    rw [hput, put_back_update, hstep, List.map_cons, List.reverse_cons, List.append_assoc,
      List.singleton_append]

theorem digit_value_char {base d : Nat} (hhex : base ≤ 16) (h : d < base) :
    digit_value base (digit_char d) = some d := by
  have hchars : ∀ k < 16, (digit_char k).toNat = if k < 10 then 0x30 + k else 0x41 + (k - 10) := by
    decide
  unfold digit_value
  rw [hchars d (by omega)]
  by_cases hd : d < 10
  · rw [if_pos hd, if_pos (by omega)]
    congr 1
    omega
  · rw [if_neg hd, if_neg (by omega), if_pos (by omega)]
    congr 1
    omega

/-- Numbers of 64 bits fit in the buffer of `print_unsigned` in each base from 4 on, and their digits
are those of the string in each base up to 16. -/
theorem print_unsigned.spec {base : BitVec 32} (hbase : 4 ≤ base.toNat) (hhex : base.toNat ≤ 16)
    (buf : Nat → BitVec 8) (num : BitVec 64) :
    print_unsigned buf num base = some (if num = 0 then [0x30] else
      ((Nat.digits base.toNat num.toNat).map digit_char).reverse) := by
  unfold print_unsigned
  split
  · rfl
  · have hroom : 0 + (Nat.digits base.toNat num.toNat).length ≤ sizeof_print_buf := by
      rw [Nat.zero_add, Nat.digits_length_le_iff (by omega)]
      calc num.toNat < 4 ^ 32 := num.isLt
        _ ≤ base.toNat ^ sizeof_print_buf := Nat.pow_le_pow_left hbase 32
    obtain ⟨buf', i', hrun, hput⟩ := print_digits.spec (by omega) hhex num buf 0 hroom
    rw [hrun, Option.map_some, hput, put_back, List.append_nil]

theorem putnum.spec (buf : Nat → BitVec 8) (n : BitVec 64) :
    putnum buf n = some (if n = 0 then [0x30] else
      ((Nat.digits 10 n.toNat).map digit_char).reverse) := by
  unfold putnum
  split
  · rfl
  · have hroom : 0 + (Nat.digits 10 n.toNat).length ≤ sizeof_putnum_buf := by
      rw [Nat.zero_add, Nat.digits_length_le_iff (by decide)]
      exact n.isLt.trans_le (by decide)
    obtain ⟨buf', i', hrun, hput⟩ := putnum_digits.spec n buf 0 hroom
    rw [hrun, Option.map_some, hput, put_back, List.append_nil]

theorem prints_digits {base : Nat} (hbase : 1 < base) (hhex : base ≤ 16) (n : BitVec 64) :
    Prints base (if n = 0 then [0x30] else ((Nat.digits base n.toNat).map digit_char).reverse)
      n.toNat := by
  have hchar : ∀ d < base, digit_value base (digit_char d) = some d :=
    fun d hd => digit_value_char hhex hd
  split
  · next hzero =>
    rw [hzero]
    exact Numeral.zero (hchar 0 (by omega))
  · next hn =>
    exact Numeral.of_digits hbase hchar fun h0 => hn (BitVec.eq_of_toNat_eq h0)

/-- The magnitude of a number that is negative, also of the least one. -/
theorem neg_toNat {v : BitVec 64} (h : v.toInt < 0) : (-v).toNat = v.toInt.natAbs := by
  have hmsb : 2 ^ 63 ≤ v.toNat := by
    rw [BitVec.toInt_eq_toNat_cond] at h
    split at h <;> omega
  have hlt := v.isLt
  rw [BitVec.toNat_neg, BitVec.toInt_eq_toNat_cond, if_neg (by omega), Nat.mod_eq_of_lt (by omega)]
  omega

end

/-- For all numbers of 64 bits: `print_unsigned` in decimal and in hexadecimal and `putnum` return, so
that no write leaves their buffers, and emit the number in the base without leading zeros. The two
decimal strings are the same. `print_signed` emits the number with its sign, also the least one. -/
theorem printed_numbers_read_back (buf buf' : Nat → BitVec 8) (n : BitVec 64) :
    (∃ s, print_unsigned buf n 10 = some s ∧ putnum buf' n = some s ∧ Prints 10 s n.toNat) ∧
    (∃ s, print_unsigned buf n 16 = some s ∧ Prints 16 s n.toNat) ∧
    ∃ s, print_signed buf n = some s ∧ PrintsSigned s n.toInt := by
  have hdecimal : ∀ n, print_unsigned buf n 10 = some (if n = 0 then [0x30] else
      ((Nat.digits 10 n.toNat).map digit_char).reverse) :=
    fun n => print_unsigned.spec (by decide) (by decide) buf n
  refine ⟨⟨_, hdecimal n, putnum.spec buf' n, prints_digits (by decide) (by decide) n⟩,
    ⟨_, print_unsigned.spec (by decide) (by decide) buf n, prints_digits (by decide) (by decide) n⟩, ?_⟩
  unfold print_signed PrintsSigned
  by_cases hneg : n.toInt < 0
  · have hslt : n.slt 0 = true := by
      rw [BitVec.slt_iff_toInt_lt]
      exact hneg
    rw [if_pos hslt, hdecimal, Option.map_some]
    refine ⟨_, rfl, ?_⟩
    rw [if_pos hneg, ← neg_toNat hneg]
    exact ⟨_, rfl, prints_digits (by decide) (by decide) (-n)⟩
  · have hslt : ¬ n.slt 0 = true := by
      rw [BitVec.slt_iff_toInt_lt]
      exact hneg
    rw [if_neg hslt, hdecimal]
    refine ⟨_, rfl, ?_⟩
    rw [if_neg hneg]
    have habs : n.toInt.natAbs = n.toNat := by
      rw [BitVec.toInt_eq_toNat_cond] at hneg ⊢
      split at hneg <;> split <;> omega
    rw [habs]
    exact prints_digits (by decide) (by decide) n

example : print_signed (fun _ => 0) (BitVec.intMin 64) = some [0x2D, 0x39, 0x32, 0x32, 0x33, 0x33, 0x37,
    0x32, 0x30, 0x33, 0x36, 0x38, 0x35, 0x34, 0x37, 0x37, 0x35, 0x38, 0x30, 0x38] := by
  decide +kernel

end JamsOs

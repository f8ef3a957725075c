import Mathlib.Tactic
import Mathlib.Algebra.Polynomial.Div
import Mathlib.Algebra.Field.ZMod

/-!
Cyclic redundancy checks, most significant bit first, for a register of any
width. A register is read as a polynomial over the field of two elements;
feeding it bits computes a remainder, and the usual table of byte values gives
the same remainder a byte at a time.
-/

namespace R8000Plus.Effects.Crc

open Polynomial

/-! ### The register -/

section Register

variable {w : Nat}

/-- One shift of the register, fed the bit `b`. -/
def feed (poly r : BitVec w) (b : Bool) : BitVec w :=
  if r.msb ^^ b then (r <<< 1) ^^^ poly else r <<< 1

def feedAll (poly r : BitVec w) (bits : List Bool) : BitVec w := bits.foldl (feed poly) r

/-- The bits in the order they are sent. -/
def bits {n : Nat} (x : BitVec n) : List Bool := (List.range n).map x.getMsbD

/-- What a byte leaves in an empty register. -/
def entry (poly : BitVec w) (c : BitVec 8) : BitVec w := feedAll poly 0 (bits c)

/-- A byte at a time, with the entries looked up. -/
def feedByte (table : BitVec 8 → BitVec w) (r : BitVec w) (c : BitVec 8) : BitVec w :=
  (r <<< 8) ^^^ table ((r >>> (w - 8)).setWidth 8 ^^^ c)

end Register

/-! ### Registers as polynomials -/

noncomputable section

/-- Bit `i` is the coefficient of `X ^ i`. -/
def toPoly {n : Nat} (x : BitVec n) : (ZMod 2)[X] :=
  ∑ i ∈ Finset.range n, C (if x.getLsbD i then 1 else 0) * X ^ i

variable {n w : Nat}

@[simp] theorem coeff_toPoly (x : BitVec n) (i : Nat) :
    (toPoly x).coeff i = if x.getLsbD i then 1 else 0 := by
  simp only [toPoly, finsetSum_coeff, coeff_C_mul_X_pow]
  by_cases hi : i < n
  · rw [Finset.sum_eq_single_of_mem i (Finset.mem_range.mpr hi)]
    · simp
    · exact fun j _ hj => if_neg (Ne.symm hj)
  · rw [BitVec.getLsbD_of_ge x i (by omega)]
    refine Finset.sum_eq_zero fun j hj => if_neg ?_
    have := Finset.mem_range.mp hj
    omega

theorem toPoly_injective : Function.Injective (toPoly (n := n)) := by
  intro x y h
  refine BitVec.eq_of_getLsbD_eq fun i hi => ?_
  have hcoeff : (toPoly x).coeff i = (toPoly y).coeff i := by rw [h]
  rw [coeff_toPoly, coeff_toPoly] at hcoeff
  cases hx : x.getLsbD i <;> cases hy : y.getLsbD i <;> simp [hx, hy] at hcoeff ⊢

theorem toPoly_xor (x y : BitVec n) : toPoly (x ^^^ y) = toPoly x + toPoly y := by
  ext i
  cases hx : x.getLsbD i <;> cases hy : y.getLsbD i <;> simp [hx, hy, CharTwo.add_self_eq_zero]

theorem degree_toPoly_lt (x : BitVec n) : (toPoly x).degree < n := by
  refine (degree_lt_iff_coeff_zero _ _).mpr fun i hi => ?_
  simp [BitVec.getLsbD_of_ge x i hi]

/-- The bits a left shift drops are the ones a right shift keeps. -/
theorem toPoly_shiftLeft (r : BitVec w) {k : Nat} (hk : k ≤ w) :
    toPoly (r <<< k) + toPoly (r >>> (w - k)) * X ^ w = toPoly r * X ^ k := by
  ext i
  rw [coeff_add, coeff_mul_X_pow', coeff_mul_X_pow']
  simp only [coeff_toPoly, BitVec.getLsbD_shiftLeft, BitVec.getLsbD_ushiftRight]
  by_cases hiw : i < w
  · by_cases hik : i < k
    · simp [hik, Nat.not_le.mpr hiw, Nat.not_le.mpr hik]
    · simp [hiw, hik, Nat.not_le.mpr hiw, Nat.not_lt.mp hik]
  · have hki : k ≤ i := by omega
    have hsum : w - k + (i - w) = i - k := by omega
    simp [hiw, Nat.not_lt.mp hiw, hki, hsum]

/-! ### Remainders -/

variable (poly : BitVec w)

/-- The generator: the register's taps below the bit shifted out. -/
def generator : (ZMod 2)[X] := X ^ w + toPoly poly

theorem generator_monic : (generator poly).Monic :=
  monic_X_pow_add (degree_toPoly_lt poly)

theorem degree_generator : (generator poly).degree = w := by
  rw [generator, degree_add_eq_left_of_degree_lt, degree_X_pow]
  rw [degree_X_pow]
  exact degree_toPoly_lt poly

/-- A register holds its own remainder. -/
theorem eq_modByMonic {r : BitVec w} {p : (ZMod 2)[X]}
    (h : generator poly ∣ p - toPoly r) : toPoly r = p %ₘ generator poly := by
  have hself : toPoly r %ₘ generator poly = toPoly r :=
    (modByMonic_eq_self_iff (generator_monic poly)).mpr
      (by rw [degree_generator]; exact degree_toPoly_lt r)
  rw [← hself]
  exact (modByMonic_eq_of_dvd_sub (generator_monic poly) h).symm

/-- The polynomial of a message, its first bit the leading coefficient. -/
def message (bits : List Bool) : (ZMod 2)[X] :=
  bits.foldl (fun p b => p * X + C (if b then 1 else 0)) 0

theorem message_concat (bs : List Bool) (b : Bool) :
    message (bs ++ [b]) = message bs * X + C (if b then 1 else 0) := by
  simp [message]

theorem message_append (xs ys : List Bool) :
    message (xs ++ ys) = message xs * X ^ ys.length + message ys := by
  induction ys using List.reverseRecOn with
  | nil => simp [message]
  | append_singleton ys y ih =>
      rw [← List.append_assoc, message_concat, message_concat, ih, List.length_append,
        List.length_singleton, pow_succ]
      ring

section Feed

variable (hw : 0 < w)
include hw

theorem toPoly_shiftLeft_one (r : BitVec w) :
    toPoly (r <<< 1) + C (if r.msb then 1 else 0) * X ^ w = toPoly r * X := by
  have hshift := toPoly_shiftLeft r (k := 1) hw
  have htop : toPoly (r >>> (w - 1)) = C (if r.msb then 1 else 0) := by
    ext i
    rw [coeff_toPoly, coeff_C, BitVec.getLsbD_ushiftRight, BitVec.msb_eq_getLsbD_last]
    by_cases hi : i = 0
    · simp [hi]
    · rw [BitVec.getLsbD_of_ge r _ (by omega)]
      simp [hi]
  rwa [htop, pow_one] at hshift

/-- Shifting multiplies by `X`; what leaves at the top is reduced. -/
theorem feed_congr (r : BitVec w) (b : Bool) :
    generator poly ∣
      toPoly r * X + C (if b then 1 else 0) * X ^ w - toPoly (feed poly r b) := by
  have htwo : (2 : (ZMod 2)[X]) = 0 := CharTwo.two_eq_zero
  rw [← toPoly_shiftLeft_one hw, feed]
  cases r.msb <;> cases b <;>
    simp only [Bool.xor_self, Bool.false_xor, Bool.true_xor, Bool.not_false,
      if_true, Bool.false_eq_true, if_false, toPoly_xor, generator, C_0, C_1]
  -- only when one of the two bits is set the taps come in
  · exact ⟨0, by ring⟩
  · exact ⟨1, by linear_combination (-toPoly poly) * htwo⟩
  · exact ⟨1, by linear_combination (-toPoly poly) * htwo⟩
  · exact ⟨0, by linear_combination X ^ w * htwo⟩

/-- What a register ends with: the message, below the register's width, after
what was there before. -/
theorem feedAll_congr (r : BitVec w) (bs : List Bool) :
    generator poly ∣
      toPoly r * X ^ bs.length + message bs * X ^ w - toPoly (feedAll poly r bs) := by
  induction bs using List.reverseRecOn with
  | nil => simp [feedAll, message]
  | append_singleton bs b ih =>
      have hlast := feed_congr poly hw (feedAll poly r bs) b
      have hsum := (ih.mul_right X).add hlast
      have hfeed : feedAll poly r (bs ++ [b]) = feed poly (feedAll poly r bs) b := by
        simp [feedAll]
      rw [hfeed, message_concat, List.length_append, List.length_singleton, pow_succ]
      convert hsum using 1
      ring

theorem toPoly_feedAll (r : BitVec w) (bs : List Bool) :
    toPoly (feedAll poly r bs) =
      (toPoly r * X ^ bs.length + message bs * X ^ w) %ₘ generator poly :=
  eq_modByMonic poly (feedAll_congr poly hw r bs)

end Feed

/-! ### A byte at a time -/

@[simp] theorem length_bits (x : BitVec n) : (bits x).length = n := by simp [bits]

theorem bits_append {m : Nat} (x : BitVec n) (y : BitVec m) : bits (x ++ y) = bits x ++ bits y := by
  refine List.ext_getElem (by simp) fun i hi hi' => ?_
  simp only [bits, List.getElem_map, List.getElem_range, BitVec.getMsbD_append,
    List.getElem_append, List.length_map, List.length_range]
  split
  · simp_all
  · simp_all

/-- The first `k` bits are the polynomial's upper part. -/
theorem message_upper (x : BitVec n) {k : Nat} (hk : k ≤ n) :
    message ((List.range k).map x.getMsbD) = toPoly (x >>> (n - k)) := by
  induction k with
  | zero =>
      ext i
      simp [message]
  | succ k ih =>
      rw [List.range_succ, List.map_append, List.map_singleton, message_concat, ih (by omega)]
      ext i
      cases i with
      | zero =>
          have hbit : x.getMsbD k = x.getLsbD (n - (k + 1)) := by
            rw [BitVec.getMsbD_eq_getLsbD, Nat.sub_sub, Nat.add_comm 1 k]
            simp [show k < n by omega]
          rw [coeff_add, coeff_mul_X_zero, coeff_C_zero, zero_add, coeff_toPoly, hbit]
          simp
      | succ i =>
          have hpos : n - k + i = n - (k + 1) + (i + 1) := by omega
          rw [coeff_add, coeff_mul_X, coeff_C_succ, add_zero, coeff_toPoly, coeff_toPoly]
          simp [hpos]

theorem message_bits (x : BitVec n) : message (bits x) = toPoly x := by
  have hall := message_upper x (le_refl n)
  rwa [Nat.sub_self, BitVec.ushiftRight_zero] at hall

theorem toPoly_setWidth_ushiftRight (r : BitVec w) {k : Nat} (hk : k ≤ w) :
    toPoly ((r >>> (w - k)).setWidth k) = toPoly (r >>> (w - k)) := by
  ext i
  by_cases hi : i < k
  · simp [hi]
  · simp [hi, BitVec.getLsbD_of_ge r (w - k + i) (by omega)]

/-- The table gives what feeding the byte's bits gives. -/
theorem feedByte_entry (hw : 8 ≤ w) (r : BitVec w) (c : BitVec 8) :
    feedByte (entry poly) r c = feedAll poly r (bits c) := by
  apply toPoly_injective
  let i := (r >>> (w - 8)).setWidth 8 ^^^ c
  have hsplit := toPoly_shiftLeft r hw
  have hentry := feedAll_congr poly (by omega) 0 (bits i)
  have hindex : toPoly i = toPoly (r >>> (w - 8)) + toPoly c := by
    rw [toPoly_xor, toPoly_setWidth_ushiftRight r hw]
  rw [toPoly_feedAll poly (by omega), length_bits, message_bits, ← hsplit]
  refine eq_modByMonic poly ?_
  rw [feedByte, toPoly_xor]
  rw [message_bits, hindex] at hentry
  convert hentry using 1
  have hzero : toPoly (0 : BitVec w) = 0 := by
    ext j
    simp
  rw [hzero, entry]
  ring

/-- A whole message, a byte at a time. -/
theorem foldl_feedByte_entry (hw : 8 ≤ w) (r : BitVec w) (bytes : List (BitVec 8)) :
    bytes.foldl (feedByte (entry poly)) r = feedAll poly r (bytes.flatMap bits) := by
  induction bytes generalizing r with
  | nil => rfl
  | cons c bytes ih =>
      rw [List.foldl_cons, feedByte_entry poly hw, ih, List.flatMap_cons]
      simp only [feedAll, List.foldl_append]

end

end R8000Plus.Effects.Crc

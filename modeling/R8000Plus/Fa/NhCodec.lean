import R8000Plus.Fa.NextHopMac

/-!
The NH row as a data format: an entry of 67 bits, cut into words from the
bottom. `fa_set_nh_entry` builds exactly those words, so nothing in them lies
above the entry, and its fields come back at the positions of the vendor's row
dump.
-/

namespace R8000Plus.Fa

/-- The fields as `fa_dump_nh_entry` prints them. -/
@[ext]
structure NhFields where
  ft : Word
  o : Word
  vt : Word
  da : Mac
  deriving DecidableEq

def nhFields (row : Nat → Word) : NhFields where
  ft := row 0 &&& 0x1
  o := (row 0 >>> 1) &&& 0x3
  vt := (row 0 >>> 3) &&& 0xFFFF
  da := ctfFaGetNhDa row

/-- What `fa_set_nh_entry` is called with, each value within its field. -/
structure NhArgs where
  s : Mac
  ft : Word
  o : Word
  vt : Word
  ft_lt : ft.toNat < 2
  o_lt : o.toNat < 4
  vt_lt : vt.toNat < 65536

namespace NhArgs

def row (a : NhArgs) : List Word := faSetNhEntry a.s a.ft a.o a.vt

def fields (a : NhArgs) : NhFields := ⟨a.ft, a.o, a.vt, a.s⟩

end NhArgs

/-! ### The code builds the format -/

section Words

variable (s : Mac) (ft o vt : Word)

/-- The words of the row are the entry, whatever the arguments. -/
theorem nhRow_word (j : Nat) :
    ofWords (faSetNhEntry s ft o vt) j =
      (nhEntry s (ft.setWidth 1) (o.setWidth 2) (vt.setWidth 16)).extractLsb' (32 * j) 32 := by
  apply BitVec.eq_of_getLsbD_eq
  intro i hi
  match j with
  | 0 | 1 | 2 =>
      -- both sides in single bits of the arguments, which the cases then tell apart
      simp only [ofWords, faSetNhEntry, nhEntry, List.getD_cons_succ, List.getD_cons_zero,
        BitVec.getLsbD_extractLsb', BitVec.getLsbD_append, BitVec.getLsbD_or, BitVec.getLsbD_and,
        BitVec.getLsbD_shiftLeft, BitVec.getLsbD_ushiftRight, BitVec.getLsbD_setWidth]
      interval_cases i <;> simp
  | j + 3 =>
      have habove : NH_ENTRY_BITS ≤ 32 * (j + 3) + i := by
        simp only [NH_ENTRY_BITS]
        omega
      rw [BitVec.getLsbD_extractLsb', BitVec.getLsbD_of_ge _ _ habove, Bool.and_false]
      exact BitVec.getLsbD_zero

theorem nhRow_bit (j i : Nat) (hi : i < 32) :
    (ofWords (faSetNhEntry s ft o vt) j).getLsbD i =
      (nhEntry s (ft.setWidth 1) (o.setWidth 2) (vt.setWidth 16)).getLsbD (32 * j + i) := by
  simp [nhRow_word, hi]

/-- Nothing lies above the entry. -/
theorem nhRow_other_bits (j i : Nat) (h : NH_ENTRY_BITS ≤ 32 * j + i) :
    (ofWords (faSetNhEntry s ft o vt) j).getLsbD i = false := by
  by_cases hi : i < 32
  · rw [nhRow_bit s ft o vt j i hi]
    exact BitVec.getLsbD_of_ge _ _ h
  · exact BitVec.getLsbD_of_ge _ i (not_lt.mp hi)

theorem nhRow_word_two_lt : (ofWords (faSetNhEntry s ft o vt) 2).toNat < 8 := by
  rw [nhRow_word]
  have hbits : (nhEntry s (ft.setWidth 1) (o.setWidth 2) (vt.setWidth 16)).toNat < 2 ^ 67 :=
    BitVec.isLt _
  rw [BitVec.extractLsb'_toNat, Nat.shiftRight_eq_div_pow]
  omega

end Words

/-! ### Reading back -/

/-- Shift and mask take a field out of a word. -/
theorem shift_mask_eq (x : Word) (lo width : Nat) :
    (x >>> lo) &&& BitVec.ofNat 32 (2 ^ width - 1) = (x.extractLsb' lo width).setWidth 32 := by
  apply BitVec.eq_of_getLsbD_eq
  intro i hi
  simp only [BitVec.getLsbD_and, BitVec.getLsbD_ushiftRight, BitVec.getLsbD_ofNat,
    Nat.testBit_two_pow_sub_one, BitVec.getLsbD_setWidth, BitVec.getLsbD_extractLsb', hi,
    decide_true, Bool.true_and]
  exact Bool.and_comm _ _

theorem nhFields_eq (row : Nat → Word) :
    nhFields row =
      ⟨((row 0).extractLsb' 0 1).setWidth 32, ((row 0).extractLsb' 1 2).setWidth 32,
        ((row 0).extractLsb' 3 16).setWidth 32, ctfFaGetNhDa row⟩ := by
  have hft := shift_mask_eq (row 0) 0 1
  have ho := shift_mask_eq (row 0) 1 2
  have hvt := shift_mask_eq (row 0) 3 16
  rw [BitVec.ushiftRight_zero] at hft
  rw [← hft, ← ho, ← hvt]
  rfl

section Fields

variable (s : Mac) (ft o vt : Word)

theorem nhRow_ft : (ofWords (faSetNhEntry s ft o vt) 0).extractLsb' 0 1 = ft.setWidth 1 := by
  apply BitVec.eq_of_getLsbD_eq
  intro i hi
  simp only [nhRow_word, nhEntry, BitVec.getLsbD_extractLsb', BitVec.getLsbD_append]
  interval_cases i
  simp

theorem nhRow_o : (ofWords (faSetNhEntry s ft o vt) 0).extractLsb' 1 2 = o.setWidth 2 := by
  apply BitVec.eq_of_getLsbD_eq
  intro i hi
  simp only [nhRow_word, nhEntry, BitVec.getLsbD_extractLsb', BitVec.getLsbD_append]
  interval_cases i <;> simp

theorem nhRow_vt : (ofWords (faSetNhEntry s ft o vt) 0).extractLsb' 3 16 = vt.setWidth 16 := by
  apply BitVec.eq_of_getLsbD_eq
  intro i hi
  simp only [nhRow_word, nhEntry, BitVec.getLsbD_extractLsb', BitVec.getLsbD_append]
  interval_cases i <;> simp

end Fields

theorem NhArgs.nhFields_row (a : NhArgs) : nhFields (ofWords a.row) = a.fields := by
  have hft := eq_setWidth_of_lt a.ft 1 a.ft_lt
  have ho := eq_setWidth_of_lt a.o 2 a.o_lt
  have hvt := eq_setWidth_of_lt a.vt 16 a.vt_lt
  rw [nhFields_eq, row, nhRow_ft, nhRow_o, nhRow_vt, ctfFaGetNhDa_row, ← hft, ← ho, ← hvt]
  rfl

end R8000Plus.Fa

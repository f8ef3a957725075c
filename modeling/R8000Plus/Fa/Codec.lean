import R8000Plus.Fa.FlowRule
import R8000Plus.Fa.Slots

/-!
The NF row as a data format. The hardware's field positions make an encoder and
a decoder over fields of their exact width; `fa_prep_napt_ipv4_row` builds that
encoding of its arguments, so reading a row back gives them again.
-/

namespace R8000Plus.Fa

/-- The fields of an IPv4 NF row, addresses and ports in host order. -/
@[ext]
structure NfFields where
  action : BitVec 2
  tgtDma : BitVec 1
  poolIdx : BitVec 2
  nhIdx : BitVec 7
  natIp : Word
  natPort : BitVec 16
  tupleDip : Word
  tupleSip : Word
  tupleDp : BitVec 16
  tupleSp : BitVec 16
  tcp : Bool
  external : Bool
  valid : Bool
  ipv4 : Bool
  deriving DecidableEq, Repr

/-- Field by field at the positions of the hardware format. -/
def nfFields (row : Nat → Word) : NfFields where
  action := (row 1).extractLsb' 3 2
  tgtDma := (row 1).extractLsb' 5 1
  poolIdx := (row 1).extractLsb' 6 2
  nhIdx := (row 1).extractLsb' 8 7
  natIp := (row 2).extractLsb' 0 15 ++ (row 1).extractLsb' 15 17
  natPort := (row 2).extractLsb' 15 16
  tupleDip := row 4
  tupleSip := row 5
  tupleDp := (row 3).extractLsb' 0 15 ++ (row 2).extractLsb' 31 1
  tupleSp := (row 3).extractLsb' 15 16
  tcp := (row 3).getLsbD 31
  external := (row 6).getLsbD 0
  valid := (row 6).getLsbD 20
  ipv4 := (row 7).getLsbD 31

/-- The bits of word `j` that belong to a field. -/
def nfFieldBit (j i : Nat) : Bool :=
  match j with
  | 1 => 3 ≤ i
  | 2 | 3 | 4 | 5 => true
  | 6 => i = 0 || i = 20
  | 7 => i = 31
  | _ => false

/-- The row that holds these fields and nothing else. -/
def NfFields.words (f : NfFields) : List Word :=
  [ 0,
    f.natIp.extractLsb' 0 17 ++ f.nhIdx ++ f.poolIdx ++ f.tgtDma ++ f.action ++ 0#3,
    f.tupleDp.extractLsb' 0 1 ++ f.natPort ++ f.natIp.extractLsb' 17 15,
    BitVec.ofBool f.tcp ++ f.tupleSp ++ f.tupleDp.extractLsb' 1 15,
    f.tupleDip,
    f.tupleSip,
    0#11 ++ BitVec.ofBool f.valid ++ 0#19 ++ BitVec.ofBool f.external,
    BitVec.ofBool f.ipv4 ++ 0#31 ]

/-- What `fa_prep_napt_ipv4_row` is called with, each index within its field. -/
structure NfArgs where
  action : Word
  tgtDma : Word
  poolIdx : Word
  nhIdx : Word
  natIp : Be32
  natPort : Be16
  tupleDip : Be32
  tupleSip : Be32
  tupleDp : Be16
  tupleSp : Be16
  proto : Byte
  isSnat : Bool
  action_lt : action.toNat < 2 ^ 2
  tgtDma_lt : tgtDma.toNat < 2 ^ 1
  poolIdx_lt : poolIdx.toNat < 2 ^ 2
  nhIdx_lt : nhIdx.toNat < 2 ^ 7

namespace NfArgs

def row (a : NfArgs) : List Word :=
  faPrepNaptIpv4Row a.action a.tgtDma a.poolIdx a.nhIdx a.natIp a.natPort a.tupleDip a.tupleSip
    a.tupleDp a.tupleSp a.proto a.isSnat

def fields (a : NfArgs) : NfFields where
  action := a.action.setWidth 2
  tgtDma := a.tgtDma.setWidth 1
  poolIdx := a.poolIdx.setWidth 2
  nhIdx := a.nhIdx.setWidth 7
  natIp := ntohl a.natIp
  natPort := ntohs a.natPort
  tupleDip := ntohl a.tupleDip
  tupleSip := ntohl a.tupleSip
  tupleDp := ntohs a.tupleDp
  tupleSp := ntohs a.tupleSp
  tcp := a.proto == 6
  external := !a.isSnat
  valid := true
  ipv4 := true

/-- The same arguments, but for a protocol that is not TCP in either. -/
def SameButNonTcp (a b : NfArgs) : Prop :=
  b = { a with proto := b.proto } ∧ (a.proto = b.proto ∨ a.proto ≠ 6 ∧ b.proto ≠ 6)

end NfArgs

/-! ### The format -/

/-- Reading back what was encoded. -/
theorem nfFields_words (f : NfFields) : nfFields (ofWords f.words) = f := by
  ext1
  all_goals
    simp only [nfFields, ofWords, NfFields.words, List.getD_cons_succ, List.getD_cons_zero]
  case tcp | external | valid | ipv4 =>
    simp only [BitVec.getLsbD_append]
    simp
  all_goals
    apply BitVec.eq_of_getLsbD_eq
    intro i hi
    simp only [BitVec.getLsbD_append, BitVec.getLsbD_extractLsb']
    interval_cases i <;> simp

theorem words_other_bits (f : NfFields) (j i : Nat) (h : nfFieldBit j i = false) :
    (ofWords f.words j).getLsbD i = false := by
  by_cases hi : i < 32
  · match j with
    | 0 => simp [ofWords, NfFields.words]
    | 1 =>
        have hlow : i < 3 := by simpa [nfFieldBit] using h
        simp only [ofWords, NfFields.words, List.getD_cons_succ, List.getD_cons_zero,
          BitVec.getLsbD_append]
        simp [hlow]
    | 2 | 3 | 4 | 5 => exact absurd h (by simp [nfFieldBit])
    | 6 =>
        simp only [nfFieldBit] at h
        simp only [ofWords, NfFields.words, List.getD_cons_succ, List.getD_cons_zero,
          BitVec.getLsbD_append]
        interval_cases i <;> simp at h ⊢
    | 7 =>
        simp only [nfFieldBit] at h
        simp only [ofWords, NfFields.words, List.getD_cons_succ, List.getD_cons_zero,
          BitVec.getLsbD_append]
        interval_cases i <;> simp at h ⊢
    | j + 8 => simp [ofWords, NfFields.words]
  · exact BitVec.getLsbD_of_ge _ i (not_lt.mp hi)

theorem words_injective : Function.Injective NfFields.words := by
  intro f g h
  rw [← nfFields_words f, ← nfFields_words g, h]

/-! ### The code builds the format -/

theorem ntohs_ntohs (x : Be16) : ntohs (ntohs x) = x := by
  apply BitVec.eq_of_getLsbD_eq
  intro i hi
  simp only [ntohs, BitVec.getLsbD_append, BitVec.getLsbD_extractLsb']
  interval_cases i <;> simp

namespace NfArgs

/-- Word 1: five fields, the last of them the low part of the NAT address. -/
theorem word_one (action : BitVec 2) (dma : BitVec 1) (pool : BitVec 2) (nh : BitVec 7)
    (natIp : Word) :
    (action.setWidth 32 <<< 3) ||| (dma.setWidth 32 <<< 5) ||| (pool.setWidth 32 <<< 6) |||
        (nh.setWidth 32 <<< 8) ||| ((natIp &&& 0x1FFFF) <<< 15) =
      natIp.extractLsb' 0 17 ++ nh ++ pool ++ dma ++ action ++ 0#3 := by
  apply BitVec.eq_of_getLsbD_eq
  intro i hi
  simp only [BitVec.getLsbD_append, BitVec.getLsbD_extractLsb']
  interval_cases i <;> simp

theorem word_two (natIp : Word) (natPort dp : BitVec 16) :
    ((natIp &&& 0xFFFE0000) >>> 17) ||| (natPort.setWidth 32 <<< 15) |||
        ((dp.setWidth 32 &&& 0x1) <<< 31) =
      dp.extractLsb' 0 1 ++ natPort ++ natIp.extractLsb' 17 15 := by
  apply BitVec.eq_of_getLsbD_eq
  intro i hi
  simp only [BitVec.getLsbD_append, BitVec.getLsbD_extractLsb']
  interval_cases i <;> simp

theorem word_three (dp sp : BitVec 16) (tcp : Bool) :
    ((dp.setWidth 32 &&& 0xFFFE) >>> 1) ||| (sp.setWidth 32 <<< 15) |||
        (((if tcp then 1 else 0) <<< 31 : Nat) : Word) =
      BitVec.ofBool tcp ++ sp ++ dp.extractLsb' 1 15 := by
  apply BitVec.eq_of_getLsbD_eq
  intro i hi
  simp only [BitVec.getLsbD_append, BitVec.getLsbD_extractLsb']
  cases tcp <;> interval_cases i <;> simp

theorem word_six (isSnat : Bool) :
    (if isSnat then CTF_NP_INTERNAL else CTF_NP_EXTERNAL) ||| NF_VALID =
      0#11 ++ BitVec.ofBool true ++ 0#19 ++ BitVec.ofBool (!isSnat) := by
  cases isSnat <;> decide

theorem word_seven : ((1 <<< 31 : Nat) : Word) = BitVec.ofBool true ++ 0#31 := by
  decide

variable (a b : NfArgs)

/-- The row of the code is the encoding of its arguments. -/
theorem row_eq_words : a.row = a.fields.words := by
  have haction := eq_setWidth_of_lt a.action 2 a.action_lt
  have hdma := eq_setWidth_of_lt a.tgtDma 1 a.tgtDma_lt
  have hpool := eq_setWidth_of_lt a.poolIdx 2 a.poolIdx_lt
  have hnh := eq_setWidth_of_lt a.nhIdx 7 a.nhIdx_lt
  have hone := word_one (a.action.setWidth 2) (a.tgtDma.setWidth 1) (a.poolIdx.setWidth 2)
    (a.nhIdx.setWidth 7) (ntohl a.natIp)
  rw [← haction, ← hdma, ← hpool, ← hnh] at hone
  have htwo := word_two (ntohl a.natIp) (ntohs a.natPort) (ntohs a.tupleDp)
  have hthree := word_three (ntohs a.tupleDp) (ntohs a.tupleSp) (a.proto == 6)
  simp only [beq_iff_eq] at hthree
  rw [row, faPrepNaptIpv4Row, hone, htwo, hthree, word_six, word_seven]
  rfl

theorem nfFields_row : nfFields (ofWords a.row) = a.fields := by
  rw [row_eq_words, nfFields_words]

theorem row_other_bits (j i : Nat) (h : nfFieldBit j i = false) :
    (ofWords a.row j).getLsbD i = false := by
  rw [row_eq_words]
  exact words_other_bits a.fields j i h

/-- An index within its field is what its low bits say. -/
theorem eq_of_low_bits {w : Nat} {x y : Word} (hx : x.toNat < 2 ^ w) (hy : y.toNat < 2 ^ w)
    (h : x.setWidth w = y.setWidth w) : x = y := by
  rw [eq_setWidth_of_lt x w hx, eq_setWidth_of_lt y w hy, h]

variable {a b}

theorem sameButNonTcp_of_fields (h : a.fields = b.fields) : a.SameButNonTcp b := by
  obtain ⟨action, tgtDma, poolIdx, nhIdx, natIp, natPort, dip, sip, dp, sp, proto, snat,
    haction, hdma, hpool, hnh⟩ := a
  obtain ⟨action', tgtDma', poolIdx', nhIdx', natIp', natPort', dip', sip', dp', sp', proto',
    snat', haction', hdma', hpool', hnh'⟩ := b
  simp only [fields, NfFields.mk.injEq] at h
  obtain ⟨h1, h2, h3, h4, h5, h6, h7, h8, h9, h10, h11, h12, -, -⟩ := h
  obtain rfl := eq_of_low_bits haction haction' h1
  obtain rfl := eq_of_low_bits hdma hdma' h2
  obtain rfl := eq_of_low_bits hpool hpool' h3
  obtain rfl := eq_of_low_bits hnh hnh' h4
  obtain rfl := Function.LeftInverse.injective ntohl_ntohl h5
  obtain rfl := Function.LeftInverse.injective ntohs_ntohs h6
  obtain rfl := Function.LeftInverse.injective ntohl_ntohl h7
  obtain rfl := Function.LeftInverse.injective ntohl_ntohl h8
  obtain rfl := Function.LeftInverse.injective ntohs_ntohs h9
  obtain rfl := Function.LeftInverse.injective ntohs_ntohs h10
  obtain rfl := Bool.not_inj h12
  have hiff : proto = 6 ↔ proto' = 6 := by
    rw [← beq_iff_eq, h11, beq_iff_eq]
  refine ⟨rfl, ?_⟩
  rcases eq_or_ne proto 6 with hproto | hproto
  · exact .inl (hproto.trans (hiff.mp hproto).symm)
  · exact .inr ⟨hproto, mt hiff.mpr hproto⟩

theorem sameButNonTcp_of_row (h : a.row = b.row) : a.SameButNonTcp b := by
  rw [row_eq_words, row_eq_words] at h
  exact sameButNonTcp_of_fields (words_injective h)

end NfArgs

theorem CTF_NAPT_OVRW_IP_lt : CTF_NAPT_OVRW_IP.toNat < 4 := by decide

theorem word_zero_lt_two : (0 : Word).toNat < 2 := by decide

theorem word_zero_lt_four : (0 : Word).toNat < 4 := by decide

theorem Slot.word_lt (i : Slot) : i.word.toNat < 128 := by
  have hidx := i.idx_le
  rw [Slot.word_toNat]
  simp only [FA_MAX_LIVE_FLOWS] at hidx
  omega

/-- The arguments of the call in `fa_flow_replace_live`, for slot `i`. -/
def Decoded.nfArgs (d : Decoded) (i : Slot) : NfArgs where
  action := CTF_NAPT_OVRW_IP
  tgtDma := 0
  poolIdx := 0
  nhIdx := i.word
  natIp := if d.natSrc ≠ 0 then d.natSrc else d.srcIp
  natPort := if d.natSport ≠ 0 then d.natSport else d.srcPort
  tupleDip := d.dstIp
  tupleSip := d.srcIp
  tupleDp := d.dstPort
  tupleSp := d.srcPort
  proto := d.proto
  isSnat := d.isSnat
  action_lt := CTF_NAPT_OVRW_IP_lt
  tgtDma_lt := word_zero_lt_two
  poolIdx_lt := word_zero_lt_four
  nhIdx_lt := i.word_lt

/-- The row codec: every field comes back, the bits outside the fields are
zero, rows tell their arguments apart up to a protocol that is not TCP, and the
arguments that a slot gives are within their fields. -/
theorem nfRow_codec :
    (∀ a : NfArgs, nfFields (ofWords a.row) = a.fields) ∧
      (∀ (a : NfArgs) (j i : Nat),
        nfFieldBit j i = false → (ofWords a.row j).getLsbD i = false) ∧
      (∀ a b : NfArgs, a.row = b.row → a.SameButNonTcp b) ∧
      ∀ (d : Decoded) (cookie : Cookie) (i : Slot),
        d.nfRow (Slots.taken cookie i).nhIdx = (d.nfArgs i).row :=
  ⟨NfArgs.nfFields_row, NfArgs.row_other_bits, fun _ _ => NfArgs.sameButNonTcp_of_row,
    fun _ _ _ => rfl⟩

/-- Two protocols that are not TCP make one row, and no bit below the action
field is set in it. -/
theorem nfRow_codec_other_protocols :
    (Decoded.nfArgs { proto := 17 } ⟨0, by decide⟩).SameButNonTcp
        (Decoded.nfArgs { proto := 1 } ⟨0, by decide⟩) ∧
      (ofWords (Decoded.nfArgs { proto := 17 } ⟨0, by decide⟩).row 1).getLsbD 2 = false :=
  ⟨nfRow_codec.2.2.1 _ _ rfl, nfRow_codec.2.1 _ 1 2 rfl⟩

end R8000Plus.Fa

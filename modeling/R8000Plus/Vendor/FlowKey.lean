import R8000Plus.Effects.Crc
import R8000Plus.Fa.Rows

/-!
How the vendor driver keys a flow: the connection tuple, the bucket sum of the
software cache, `FA_NAPT_HASH`, and the CRC that names a flow's bucket of
hardware rows. Tuple fields are kept as the little-endian CPU loads them, so
the bytes of a field in memory are its bytes from the low end up.
-/

namespace R8000Plus.Vendor

open Effects Fa

/-- `uint32 [IPADDR_U32_SZ]`; IPv4 uses the first word. -/
structure IpAddr where
  w0 : Be32
  w1 : Be32
  w2 : Be32
  w3 : Be32
  deriving DecidableEq, Repr

/-- `ctf_conn_tuple_t`. -/
structure ConnTuple where
  sip : IpAddr
  dip : IpAddr
  sp : Be16
  dp : Be16
  proto : Byte
  deriving DecidableEq, Repr

def FA_NAPT_SZ : Nat := 256

/-- The sum that `FA_NAPT_HASH` folds. Its parameters are named in another order
than the calls pass them; the sum does not mind. -/
def faNaptSum (v6 : Bool) (t : ConnTuple) : Word :=
  if v6 then
    t.sip.w0 + t.sip.w1 + t.sip.w2 + t.sip.w3 + t.dip.w0 + t.dip.w1 + t.dip.w2 + t.dip.w3 +
      t.proto.setWidth 32 + t.sp.setWidth 32 + t.dp.setWidth 32
  else
    t.sip.w0 + t.dip.w0 + t.proto.setWidth 32 + t.sp.setWidth 32 + t.dp.setWidth 32

/-- `FA_NAPT_HASH`. -/
def faNaptHash (v6 : Bool) (t : ConnTuple) : Nat :=
  let sum := (faNaptSum v6 t >>> 16) + (faNaptSum v6 t &&& 0xffff)
  (((sum >>> 8) + (sum &&& 0xff)) &&& 0xff).toNat

theorem faNaptHash_lt (v6 : Bool) (t : ConnTuple) : faNaptHash v6 t < FA_NAPT_SZ := by
  simp only [faNaptHash, BitVec.toNat_and]
  exact Nat.lt_of_le_of_lt Nat.and_le_right (by decide)

/-! ### The CRC -/

def P_CCITT : BitVec 16 := 0x1021

/-- One round of the loop that fills `crcccitt_tab`, on `crc` and `c`. -/
def crcRound (s : BitVec 16 × BitVec 16) : BitVec 16 × BitVec 16 :=
  (if (s.1 ^^^ s.2) &&& 0x8000 ≠ 0 then (s.1 <<< 1) ^^^ P_CCITT else s.1 <<< 1, s.2 <<< 1)

/-- `crcccitt_tab` as `init_crcccitt_tab` leaves it. -/
def initCrcccittTab (i : Byte) : BitVec 16 := (crcRound^[8] (0, i.setWidth 16 <<< 8)).1

def updateCrcCcitt (tab : Byte → BitVec 16) (crc : BitVec 16) (c : Byte) : BitVec 16 :=
  let tmp := (crc >>> 8) ^^^ c.setWidth 16
  (crc <<< 8) ^^^ tab (tmp.setWidth 8)

/-- The bytes of an address in memory. -/
def wordBytes (x : Be32) : List Byte :=
  [x.extractLsb' 0 8, x.extractLsb' 8 8, x.extractLsb' 16 8, x.extractLsb' 24 8]

def portBytes (x : Be16) : List Byte := [x.extractLsb' 0 8, x.extractLsb' 8 8]

/-- `istr[i] = (istr[i] << 1) | (istr[i+1] >> 7)` up to the last byte, which
takes the TCP bit. -/
def shiftIn (tcp : Bool) : List Byte → List Byte
  | [] => []
  | [x] => [(x <<< 1) ||| (if tcp then 1 else 0)]
  | x :: y :: rest => ((x <<< 1) ||| (y >>> 7)) :: shiftIn tcp (y :: rest)

/-- `istr` when the CRC is taken of it. -/
def crcString (t : ConnTuple) : List Byte :=
  shiftIn (decide (t.proto = 6)) (0 :: (wordBytes t.sip.w0 ++ wordBytes t.dip.w0)) ++
    (portBytes t.sp ++ portBytes t.dp)

def faCrcCcitt (tab : Byte → BitVec 16) (t : ConnTuple) : BitVec 16 :=
  (crcString t).foldl (updateCrcCcitt tab) 0

/-! ### What it computes -/

/-- The key of the hardware's flow lookup: addresses, TCP flag and ports in
host order, 97 bits. -/
def flowKey (t : ConnTuple) : BitVec 97 :=
  ntohl t.sip.w0 ++ ntohl t.dip.w0 ++ BitVec.ofBool (decide (t.proto = 6)) ++
    ntohs t.sp ++ ntohs t.dp

theorem and_top_ne_zero_iff (x : BitVec 16) : x &&& 0x8000 ≠ 0 ↔ x.msb = true := by
  have htop : (0x8000 : BitVec 16) = BitVec.twoPow 16 15 := by decide
  rw [htop, BitVec.and_twoPow, BitVec.msb_eq_getLsbD_last]
  cases x.getLsbD 15 <;> decide

theorem crcRound_eq (crc c : BitVec 16) :
    crcRound (crc, c) = (Crc.feed P_CCITT crc c.msb, c <<< 1) := by
  simp only [crcRound, Crc.feed, and_top_ne_zero_iff, BitVec.msb_xor]

/-- The rounds feed the byte's bits from the top. -/
theorem crcRound_iterate (i : Byte) (k : Nat) (hk : k ≤ 8) :
    crcRound^[k] (0, i.setWidth 16 <<< 8) =
      (Crc.feedAll P_CCITT 0 ((List.range k).map i.getMsbD), i.setWidth 16 <<< (8 + k)) := by
  induction k with
  | zero => rfl
  | succ k ih =>
      have hmsb : (i.setWidth 16 <<< (8 + k)).msb = i.getMsbD k := by
        rw [BitVec.msb_eq_getLsbD_last, BitVec.getMsbD_eq_getLsbD]
        have hidx : 8 - 1 - k = 16 - 1 - (8 + k) := by omega
        have hlow : ¬ 16 - 1 < 8 + k := by omega
        have hk8 : k < 8 := by omega
        simp [hidx, hlow, hk8]
      rw [Function.iterate_succ_apply', ih (by omega), crcRound_eq, hmsb, List.range_succ,
        ← BitVec.shiftLeft_add]
      simp [Crc.feedAll, Nat.add_assoc]

theorem initCrcccittTab_eq : initCrcccittTab = Crc.entry P_CCITT := by
  funext i
  rw [initCrcccittTab, crcRound_iterate i 8 le_rfl]
  rfl

theorem updateCrcCcitt_eq (tab : Byte → BitVec 16) : updateCrcCcitt tab = Crc.feedByte tab := by
  funext crc c
  simp only [updateCrcCcitt, Crc.feedByte, BitVec.setWidth_xor]
  rw [BitVec.setWidth_setWidth_of_le c (by decide), BitVec.setWidth_eq]

theorem bits_byte (x : Byte) :
    Crc.bits x = [x.getLsbD 7, x.getLsbD 6, x.getLsbD 5, x.getLsbD 4, x.getLsbD 3, x.getLsbD 2,
      x.getLsbD 1, x.getLsbD 0] := rfl

theorem bits_shifted (x : Byte) (low : Byte) (h : ∀ k, 0 < k → low.getLsbD k = false) :
    Crc.bits ((x <<< 1) ||| low) = (Crc.bits x).tail ++ [low.getLsbD 0] := by
  simp only [bits_byte, BitVec.getLsbD_or, BitVec.getLsbD_shiftLeft, h 1 (by decide),
    h 2 (by decide), h 3 (by decide), h 4 (by decide), h 5 (by decide), h 6 (by decide),
    h 7 (by decide)]
  simp

/-- Shifting a string of bytes left by one bit drops the first and brings a new
last. -/
theorem flatMap_bits_shiftIn (tcp : Bool) (x : Byte) (rest : List Byte) :
    (shiftIn tcp (x :: rest)).flatMap Crc.bits =
      ((x :: rest).flatMap Crc.bits).tail ++ [tcp] := by
  induction rest generalizing x with
  | nil =>
      have hlow : ∀ k, 0 < k → (if tcp then 1 else 0 : Byte).getLsbD k = false := by
        intro k hk
        cases tcp <;> simp [BitVec.getLsbD_one]
        omega
      have hbit : (if tcp then 1 else 0 : Byte).getLsbD 0 = tcp := by cases tcp <;> rfl
      rw [shiftIn, List.flatMap_singleton, List.flatMap_singleton, bits_shifted x _ hlow, hbit]
  | cons y rest ih =>
      have hlow : ∀ k, 0 < k → (y >>> 7).getLsbD k = false := by
        intro k hk
        rw [BitVec.getLsbD_ushiftRight, BitVec.getLsbD_of_ge y _ (by omega)]
      rw [shiftIn, List.flatMap_cons, ih, bits_shifted x _ hlow]
      simp [bits_byte]

theorem flatMap_bits_wordBytes (x : Be32) : (wordBytes x).flatMap Crc.bits = Crc.bits (ntohl x) := by
  change _ = Crc.bits (n := 8 + 8 + 8 + 8)
    (x.extractLsb' 0 8 ++ x.extractLsb' 8 8 ++ x.extractLsb' 16 8 ++ x.extractLsb' 24 8)
  simp only [Crc.bits_append]
  simp [wordBytes]

theorem flatMap_bits_portBytes (x : Be16) : (portBytes x).flatMap Crc.bits = Crc.bits (ntohs x) := by
  change _ = Crc.bits (n := 8 + 8) (x.extractLsb' 0 8 ++ x.extractLsb' 8 8)
  simp only [Crc.bits_append]
  simp [portBytes]

/-- The driver's thirteen bytes are the lookup key behind seven zero bits. -/
theorem flatMap_bits_crcString (t : ConnTuple) :
    (crcString t).flatMap Crc.bits = List.replicate 7 false ++ Crc.bits (flowKey t) := by
  have hflag : ∀ b : Bool, Crc.bits (BitVec.ofBool b) = [b] := by decide
  rw [crcString, List.flatMap_append, flatMap_bits_shiftIn, List.flatMap_append,
    flatMap_bits_portBytes, flatMap_bits_portBytes, List.flatMap_cons, List.flatMap_append,
    flatMap_bits_wordBytes, flatMap_bits_wordBytes]
  simp only [flowKey, Crc.bits_append, hflag]
  simp [bits_byte, List.replicate]

open Polynomial in
theorem generator_ccitt : Crc.generator P_CCITT = X ^ 16 + X ^ 12 + X ^ 5 + 1 := by
  have htaps : Crc.toPoly P_CCITT = X ^ 12 + X ^ 5 + 1 := by
    ext i
    by_cases hi : i < 16
    · interval_cases i <;> simp [P_CCITT, coeff_X_pow, coeff_one]
    · rw [Crc.coeff_toPoly, BitVec.getLsbD_of_ge _ i (by omega)]
      simp [coeff_X_pow, coeff_one, show i ≠ 12 by omega, show i ≠ 5 by omega,
        show i ≠ 0 by omega]
  rw [Crc.generator, htaps]
  ring

open Polynomial in
/-- The CRC is the remainder of the lookup key, moved up by the register's
width, by `X ^ 16 + X ^ 12 + X ^ 5 + 1`. -/
theorem faCrcCcitt_remainder (t : ConnTuple) :
    Crc.toPoly (faCrcCcitt initCrcccittTab t) =
      (Crc.toPoly (flowKey t) * X ^ 16) %ₘ (X ^ 16 + X ^ 12 + X ^ 5 + 1) := by
  have hzero : Crc.toPoly (0 : BitVec 16) = 0 := by
    ext i
    simp
  have hpad : ∀ bs, Crc.message (List.replicate 7 false ++ bs) = Crc.message bs := by
    intro bs
    rw [Crc.message_append]
    simp [Crc.message, List.replicate]
  rw [faCrcCcitt, updateCrcCcitt_eq, initCrcccittTab_eq,
    Crc.foldl_feedByte_entry P_CCITT (by decide), Crc.toPoly_feedAll P_CCITT (by decide),
    flatMap_bits_crcString, hpad, Crc.message_bits, hzero, generator_ccitt, zero_mul, zero_add]

end R8000Plus.Vendor

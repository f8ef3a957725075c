import Mathlib.Tactic

/-!
The packed table rows of the FA block. `fa_set_nh_entry` and
`fa_prep_napt_ipv4_row` are copied field for field. Values the kernel types as
`__be32` and `__be16` are kept as the little-endian CPU holds them, so a row
word only contains host order after `ntohl` or `ntohs`.
-/

namespace R8000Plus.Fa

abbrev Word := BitVec 32
abbrev Byte := BitVec 8
/-- A `__be32` as loaded by the CPU. -/
abbrev Be32 := BitVec 32
/-- A `__be16` as loaded by the CPU. -/
abbrev Be16 := BitVec 16

def ntohl (x : Be32) : Word :=
  x.extractLsb' 0 8 ++ x.extractLsb' 8 8 ++ x.extractLsb' 16 8 ++ x.extractLsb' 24 8

def ntohs (x : Be16) : BitVec 16 :=
  x.extractLsb' 0 8 ++ x.extractLsb' 8 8

/-- Byte swapping is its own inverse, so one definition serves both ways. -/
abbrev htonl (x : Word) : Be32 := ntohl x

abbrev cpuToBe16 (x : BitVec 16) : Be16 := ntohs x

@[simp] theorem ntohl_ntohl (x : Be32) : ntohl (ntohl x) = x := by
  apply BitVec.eq_of_getLsbD_eq
  intro i hi
  simp only [ntohl, BitVec.getLsbD_append, BitVec.getLsbD_extractLsb']
  interval_cases i <;> simp

/-- `u8 [ETH_ALEN]`. -/
abbrev Mac := Fin 6 → Byte

def CTF_NH_OP_NOTAG : Word := 2
def CTF_NP_INTERNAL : Word := 0
def CTF_NP_EXTERNAL : Word := 1
def CTF_NAPT_OVRW_IP : Word := 1

def NH_ROW_WORDS : Nat := 3
def NF_ROW_WORDS : Nat := 8

/-- The valid flag of an NF row, `1U << 20` of word 6. -/
def NF_VALID : Word := 1 <<< 20

def faSetNhEntry (s : Mac) (ft o vt : Word) : List Word :=
  [ (ft &&& 0x1) ||| ((o &&& 0x3) <<< 1) ||| ((vt &&& 0xFFFF) <<< 3) |||
      ((s 5).setWidth 32 <<< 19) ||| ((s 4 &&& 0x1F).setWidth 32 <<< 27),
    ((s 4 &&& 0xE0).setWidth 32 >>> 5) ||| ((s 3).setWidth 32 <<< 3) |||
      ((s 2).setWidth 32 <<< 11) ||| ((s 1).setWidth 32 <<< 19) |||
      ((s 0 &&& 0x1F).setWidth 32 <<< 27),
    (s 0 &&& 0xE0).setWidth 32 >>> 5 ]

/-- A MAC, a VLAN tag, a tag operation and a frame type. -/
abbrev NH_ENTRY_BITS : Nat := 67

/-- An NH entry in the memory, from the top down: the bytes of the MAC in the
order they are sent, and the other fields below them. -/
def nhEntry (s : Mac) (ft : BitVec 1) (o : BitVec 2) (vt : BitVec 16) : BitVec NH_ENTRY_BITS :=
  s 0 ++ s 1 ++ s 2 ++ s 3 ++ s 4 ++ s 5 ++ vt ++ o ++ ft

/-- The pool row, which only the vendor driver writes. -/
def ctfFaSetNpEntry (s : Mac) (e : Word) : List Word :=
  [ (e &&& 0x1) ||| ((s 5).setWidth 32 <<< 1) ||| ((s 4).setWidth 32 <<< 9) |||
      ((s 3).setWidth 32 <<< 17) ||| ((s 2 &&& 0x7F).setWidth 32 <<< 25),
    ((s 2 &&& 0x80).setWidth 32 >>> 7) ||| ((s 1).setWidth 32 <<< 1) |||
      ((s 0).setWidth 32 <<< 9) ]

def faPrepNaptIpv4Row (action tgtDma poolIdx nhIdx : Word) (natIp : Be32)
    (natPort : Be16) (tupleDip tupleSip : Be32) (tupleDp tupleSp : Be16)
    (proto : Byte) (isSnat : Bool) : List Word :=
  [ 0,
    (action <<< 3) ||| (tgtDma <<< 5) ||| (poolIdx <<< 6) ||| (nhIdx <<< 8) |||
      ((ntohl natIp &&& 0x1FFFF) <<< 15),
    ((ntohl natIp &&& 0xFFFE0000) >>> 17) ||| ((ntohs natPort).setWidth 32 <<< 15) |||
      (((ntohs tupleDp).setWidth 32 &&& 0x1) <<< 31),
    (((ntohs tupleDp).setWidth 32 &&& 0xFFFE) >>> 1) |||
      ((ntohs tupleSp).setWidth 32 <<< 15) |||
      ((if proto = 6 then 1 else 0) <<< 31),
    ntohl tupleDip,
    ntohl tupleSip,
    (if isSnat then CTF_NP_INTERNAL else CTF_NP_EXTERNAL) ||| NF_VALID,
    1 <<< 31 ]

@[simp] theorem faSetNhEntry_length (s : Mac) (ft o vt : Word) :
    (faSetNhEntry s ft o vt).length = NH_ROW_WORDS := rfl

@[simp] theorem faPrepNaptIpv4Row_length (action tgtDma poolIdx nhIdx : Word)
    (natIp : Be32) (natPort : Be16) (tupleDip tupleSip : Be32)
    (tupleDp tupleSp : Be16) (proto : Byte) (isSnat : Bool) :
    (faPrepNaptIpv4Row action tgtDma poolIdx nhIdx natIp natPort tupleDip tupleSip
      tupleDp tupleSp proto isSnat).length = NF_ROW_WORDS := rfl

/-! Field readers of the NF row, at the positions the vendor driver's row dump
uses. A row is given by its words. -/

def nfValid (row : Nat → Word) : Bool := (row 6).getLsbD 20

def nfAction (row : Nat → Word) : Word := (row 1 >>> 3) &&& 0x3

def nfNhIdx (row : Nat → Word) : Word := (row 1 >>> 8) &&& 0x7F

/-- Bit 0 of word 6: clear is LAN->WAN, set is WAN->LAN. -/
def nfExternal (row : Nat → Word) : Bool := (row 6).getLsbD 0

/-- The rewrite address, in host order. -/
def nfNatIp (row : Nat → Word) : Word := (row 1 >>> 15) ||| ((row 2 &&& 0x7FFF) <<< 17)

/-- The rewrite port, in host order. -/
def nfNatPort (row : Nat → Word) : BitVec 16 := (row 2).extractLsb' 15 16

/-- A row as the driver's buffer holds it. -/
def ofWords (words : List Word) : Nat → Word := fun j => words.getD j 0

theorem ofWords_getElem (words : List Word) (j : Nat) (hj : j < words.length) :
    words[j] = ofWords words j := by
  simp [ofWords, hj]

/-- A row read word by word. -/
theorem map_range_ofWords {words : List Word} {f : Nat → Word}
    (h : ∀ j < words.length, f j = ofWords words j) : (List.range words.length).map f = words := by
  refine List.ext_getElem (by simp) fun j hj hj' => ?_
  rw [List.getElem_map, List.getElem_range, h j hj', ofWords_getElem words j hj']

theorem eq_setWidth_of_lt (x : Word) (w : Nat) (hx : x.toNat < 2 ^ w) :
    x = (x.setWidth w).setWidth 32 := by
  apply BitVec.eq_of_toNat_eq
  have hxw : x.toNat % 2 ^ w = x.toNat := Nat.mod_eq_of_lt hx
  simp only [BitVec.toNat_setWidth, hxw]
  exact (Nat.mod_eq_of_lt x.isLt).symm

theorem toNat_and_seven (x : Word) : (x &&& 0x7).toNat = x.toNat % 8 :=
  Nat.and_two_pow_sub_one_eq_mod x.toNat 3

section Fields

variable (action tgtDma poolIdx nhIdx : Word) (natIp tupleDip tupleSip : Be32)
variable (natPort tupleDp tupleSp : Be16) (proto : Byte) (isSnat : Bool)

theorem ofWords_row_six :
    ofWords (faPrepNaptIpv4Row action tgtDma poolIdx nhIdx natIp natPort
      tupleDip tupleSip tupleDp tupleSp proto isSnat) 6 =
      (if isSnat then CTF_NP_INTERNAL else CTF_NP_EXTERNAL) ||| NF_VALID := rfl

@[simp] theorem nfValid_row :
    nfValid (ofWords (faPrepNaptIpv4Row action tgtDma poolIdx nhIdx natIp natPort
      tupleDip tupleSip tupleDp tupleSp proto isSnat)) = true := by
  rw [nfValid, ofWords_row_six]
  cases isSnat <;> decide

@[simp] theorem nfExternal_row :
    nfExternal (ofWords (faPrepNaptIpv4Row action tgtDma poolIdx nhIdx natIp natPort
      tupleDip tupleSip tupleDp tupleSp proto isSnat)) = !isSnat := by
  rw [nfExternal, ofWords_row_six]
  cases isSnat <;> decide

theorem nfAction_row (ha : action.toNat < 2 ^ 2) (hd : tgtDma.toNat < 2 ^ 1) :
    nfAction (ofWords (faPrepNaptIpv4Row action tgtDma poolIdx nhIdx natIp natPort
      tupleDip tupleSip tupleDp tupleSp proto isSnat)) = action := by
  rw [eq_setWidth_of_lt action 2 ha, eq_setWidth_of_lt tgtDma 1 hd]
  apply BitVec.eq_of_getLsbD_eq
  intro i hi
  simp only [nfAction, ofWords, faPrepNaptIpv4Row, List.getD_cons_succ, List.getD_cons_zero]
  interval_cases i <;> simp

theorem nfNhIdx_row (ha : action.toNat < 2 ^ 2) (hd : tgtDma.toNat < 2 ^ 1)
    (hp : poolIdx.toNat < 2 ^ 2) (hn : nhIdx.toNat < 2 ^ 7) :
    nfNhIdx (ofWords (faPrepNaptIpv4Row action tgtDma poolIdx nhIdx natIp natPort
      tupleDip tupleSip tupleDp tupleSp proto isSnat)) = nhIdx := by
  rw [eq_setWidth_of_lt action 2 ha, eq_setWidth_of_lt tgtDma 1 hd,
    eq_setWidth_of_lt poolIdx 2 hp, eq_setWidth_of_lt nhIdx 7 hn]
  apply BitVec.eq_of_getLsbD_eq
  intro i hi
  simp only [nfNhIdx, ofWords, faPrepNaptIpv4Row, List.getD_cons_succ, List.getD_cons_zero]
  interval_cases i <;> simp

/-- The rewrite address survives its split over words 1 and 2. -/
theorem nfNatIp_row (ha : action.toNat < 2 ^ 2) (hd : tgtDma.toNat < 2 ^ 1)
    (hp : poolIdx.toNat < 2 ^ 2) (hn : nhIdx.toNat < 2 ^ 7) :
    nfNatIp (ofWords (faPrepNaptIpv4Row action tgtDma poolIdx nhIdx natIp natPort
      tupleDip tupleSip tupleDp tupleSp proto isSnat)) = ntohl natIp := by
  rw [eq_setWidth_of_lt action 2 ha, eq_setWidth_of_lt tgtDma 1 hd,
    eq_setWidth_of_lt poolIdx 2 hp, eq_setWidth_of_lt nhIdx 7 hn]
  apply BitVec.eq_of_getLsbD_eq
  intro i hi
  simp only [nfNatIp, ofWords, faPrepNaptIpv4Row, List.getD_cons_succ, List.getD_cons_zero]
  generalize ntohl natIp = n
  interval_cases i <;> simp

end Fields

end R8000Plus.Fa

import Mathlib
import R8000Plus.Effects.Chained
import R8000Plus.Fa.NextHopMac
import R8000Plus.Vendor.FlowKey
import R8000Plus.Vendor.RowAccess

/-!
The vendor driver's flow cache: connections hashed into chains, each holding one
row of the NAPT flow table, a reference to a row of the next-hop table and the
index of a row of the pool table. The functions are programs over row accesses;
each runs under the driver's lock from its first access of the cache on. The
software-hash build is modelled, in which `HW_HASH()` is 0.
-/

namespace R8000Plus.Vendor

open Effects Fa

/-- The `BCME_` codes the file returns. -/
inductive Bcme where
  | ok
  | error
  | badArg
  | busy
  | notFound
  deriving DecidableEq, Repr

/-! ### Data -/

/-- `next_hop_t`: the free list threads through `flist`. -/
structure NextHop where
  flist : Byte → Byte
  freeIdx : Byte
  ref : Byte → BitVec 16

structure NhopEntry where
  l2Ftype : Word
  tagOp : Word
  vlanTci : BitVec 16
  nhMac : Mac

structure PoolEntry where
  external : Word
  remapMac : Mac

/-- `napt_flow_t`. -/
structure NaptFlow where
  naptIdx : Nat
  hits : Word
  action : Word
  tgtDma : Word
  deriving DecidableEq

/-- `fa_napt_t` without its link. -/
structure FaNapt where
  poolIdx : Byte
  nhIdx : Byte
  dhost : Mac
  v6 : Bool
  nfi : NaptFlow
  tuple : ConnTuple
  deriving DecidableEq

/-- The part of `ctf_ipc_t` the driver reads. The TCI that `fa_napt_add` packs of
`tos` and `vid` is carried ready-made: the header with its shifts and masks is
not in the repository. -/
structure Ipc where
  tuple : ConnTuple
  vlanTci : BitVec 16
  dhost : Mac
  shost : Mac
  /-- `et_fa_dev_on` of the two interfaces. -/
  txDevOn : Bool
  rxDevOn : Bool
  pppIfp : Bool
  action : Word
  natIp : Be32
  natPort : Be16
  live : Word
  /-- `PKTISFAAUX` of the packet. -/
  pktFaAux : Bool

def CTF_ACTION_TAG : Word := 1 <<< 0
def CTF_ACTION_SNAT : Word := 1 <<< 2
def CTF_ACTION_DNAT : Word := 1 <<< 3

namespace Ipc

/-- `ipc->action & flag`. -/
def has (ipc : Ipc) (flag : Word) : Bool := ipc.action &&& flag ≠ 0

end Ipc

def CTF_NH_OP_CTAG : Word := 1
def CTF_NAPT_OVRW_PORT : Word := 2

/-- `fa_info_t`, and the CRC table beside it. Of the pointers in `ftable` only
whether they are `NULL` is ever looked at. -/
structure FaInfo where
  napt : Chains FaNapt
  ftable : Nat → Bool
  accMode : AccMode
  nflows : BitVec 16
  nhi : NextHop
  crcTab : Byte → BitVec 16

namespace FaInfo

/-- The chains in the order the driver walks them all. -/
def flows (fai : FaInfo) : List FaNapt := Chains.entries FA_NAPT_SZ fai.napt

/-- After `fa_attach`. -/
def attached : FaInfo where
  napt := fun _ => []
  ftable := fun _ => false
  accMode := .none
  nflows := 0
  nhi := { flist := fun _ => 0, freeIdx := 0, ref := fun _ => 0 }
  crcTab := fun _ => 0

end FaInfo

/-! ### Next hops -/

def NHOP_FULL : Byte := 128

namespace NextHop

/-- `PEEKNEXT_NHIDX`. -/
def peekNext (nhi : NextHop) : Byte := nhi.freeIdx

/-- `GETNEXT_NHIDX`. -/
def getNext (nhi : NextHop) : NextHop :=
  { nhi with
    freeIdx := nhi.flist nhi.freeIdx
    flist := Function.update nhi.flist nhi.freeIdx 0 }

/-- `PUTNEXT_NHIDX`. -/
def putNext (nhi : NextHop) (i : Byte) : NextHop :=
  let freeIdx := if nhi.freeIdx = NHOP_FULL then i else nhi.freeIdx
  { nhi with flist := Function.update nhi.flist i freeIdx, freeIdx := i }

def incRef (nhi : NextHop) (i : Byte) : NextHop :=
  { nhi with ref := Function.update nhi.ref i (nhi.ref i + 1) }

def decRef (nhi : NextHop) (i : Byte) : NextHop :=
  { nhi with ref := Function.update nhi.ref i (nhi.ref i - 1) }

/-- As `fa_reset_next_hop_tbl` leaves it. -/
def reset : NextHop where
  flist := fun i => i + 1
  freeIdx := 0
  ref := fun _ => 0

end NextHop

/-- The scan of the next-hop rows from `idx` on with `n` rows left: the row with
the MAC, or the code to return. -/
def scanNhop (mac : Mac) (idx : Byte) : Nat → RowProg (Bcme × Byte)
  | 0 => return (.notFound, idx)
  | n + 1 => do
      match ← faReadNhopEntry (idx.setWidth 32) with
      | none => return (.busy, idx)
      | some d =>
          if ctfFaGetNhDa (ofWords d) = mac then return (.ok, idx)
          else scanNhop mac (idx + 1) n

/-- The row that a flow to the same MAC already uses, else row 0. -/
def nhopHint (fai : FaInfo) (mac : Mac) : Byte :=
  match fai.flows.find? fun napt => napt.dhost = mac with
  | some napt => if napt.nhIdx = NHOP_FULL then 0 else napt.nhIdx
  | none => 0

def faFindNhop (fai : FaInfo) (tbInfo : FaNapt) (nh : NhopEntry) :
    RowProg (Bcme × FaInfo × FaNapt) := do
  let idx := nhopHint fai nh.nhMac
  let (ret, idx) ← scanNhop nh.nhMac idx (CTF_MAX_NEXTHOP_TABLE_INDEX - idx.toNat)
  if ret = .ok then
    let nhIdx := idx &&& 127
    return (.ok, { fai with nhi := fai.nhi.incRef nhIdx }, { tbInfo with nhIdx := nhIdx })
  else return (ret, fai, tbInfo)

/-- `CTF_FA_SET_NH_ENTRY`, which `fa_accel` took over. -/
abbrev ctfFaSetNhEntry := faSetNhEntry

def faAddNhopEntry (fai : FaInfo) (tbInfo : FaNapt) (nh : NhopEntry) :
    RowProg (Bcme × FaInfo × FaNapt) := do
  if fai.nhi.peekNext = NHOP_FULL then return (.busy, fai, tbInfo)
  else
    let (ret, fai, tbInfo) ← faFindNhop fai tbInfo nh
    if ret = .ok ∨ ret = .busy then return (ret, fai, tbInfo)
    else
      let d := ctfFaSetNhEntry nh.nhMac nh.l2Ftype nh.tagOp (nh.vlanTci.setWidth 32)
      if ← faWriteNhopEntry d (fai.nhi.peekNext.setWidth 32) then
        let nhIdx := fai.nhi.peekNext &&& 127
        return (.ok, { fai with nhi := fai.nhi.getNext.incRef nhIdx },
          { tbInfo with nhIdx := nhIdx })
      else return (.busy, fai, tbInfo)

/-- Its result is never looked at; the entry passed is freed after it. -/
def faDeleteNhopEntry (fai : FaInfo) (npi : FaNapt) : RowProg FaInfo := do
  let nhi := if fai.nhi.ref npi.nhIdx = 0 then fai.nhi else fai.nhi.decRef npi.nhIdx
  if nhi.ref npi.nhIdx = 0 then
    if ← faWriteNhopEntry [0, 0, 0] (npi.nhIdx.setWidth 32) then
      return { fai with nhi := nhi.putNext npi.nhIdx }
    else return { fai with nhi := nhi }
  else return { fai with nhi := nhi }

/-! ### Pool rows -/

/-- The source MAC of a pool row, `CTF_FA_GET_NP_SA`. -/
def ctfFaGetNpSa (s : Nat → Word) : Mac :=
  ![((s 1 >>> 9) &&& 0xFF).setWidth 8,
    ((s 1 >>> 1) &&& 0xFF).setWidth 8,
    ((s 0 >>> 25) &&& 0x7F).setWidth 8 ||| ((s 1 &&& 0x1) <<< 7).setWidth 8,
    ((s 0 >>> 17) &&& 0xFF).setWidth 8,
    ((s 0 >>> 9) &&& 0xFF).setWidth 8,
    ((s 0 >>> 1) &&& 0xFF).setWidth 8]

/-- From row `i` on, with `n` rows left. -/
def scanPool (pt : PoolEntry) (i : Byte) : Nat → RowProg (Bcme × Byte)
  | 0 => return (.notFound, i)
  | n + 1 => do
      match ← faReadPoolRow (i.setWidth 32) with
      | none => return (.busy, i)
      | some d =>
          if pt.remapMac = ctfFaGetNpSa (ofWords d) ∧ ofWords d 0 &&& 0x1 = pt.external then
            return (.ok, i)
          else scanPool pt (i + 1) n

def faFindPool (tbInfo : FaNapt) (pt : PoolEntry) : RowProg (Bcme × FaNapt) := do
  let (ret, i) ← scanPool pt 0 CTF_MAX_POOL_TABLE_INDEX
  if ret = .ok then return (.ok, { tbInfo with poolIdx := i &&& 3 })
  else return (ret, tbInfo)

/-- After a row is written the code is still the one of the search. -/
def findOrAddPool (tbInfo : FaNapt) (pe : PoolEntry) : RowProg (Bcme × FaNapt) := do
  let (ret, tbInfo) ← faFindPool tbInfo pe
  if ret = .ok ∨ ret = .busy then return (ret, tbInfo)
  else if ← faWritePoolRow (ctfFaSetNpEntry pe.remapMac pe.external) pe.external then
    return (ret, { tbInfo with poolIdx := pe.external.setWidth 8 })
  else return (.busy, tbInfo)

def faAddPoolEntry (tbInfo : FaNapt) (pe : PoolEntry) : RowProg (Bcme × FaNapt) := do
  ctfFaWar777 true
  let r ← findOrAddPool tbInfo pe
  ctfFaWar777 false
  return r

/-! ### Flows -/

/-- `FA_NAPT_TPL_CMP`; IPv6 compares both addresses as stored. -/
def naptTplCmp (napt : FaNapt) (v6 : Bool) (t : ConnTuple) : Bool :=
  (if v6 then napt.tuple.sip = t.sip ∧ napt.tuple.dip = t.dip
    else napt.tuple.sip.w0 = t.sip.w0 ∧ napt.tuple.dip.w0 = t.dip.w0) ∧
  napt.tuple.proto = t.proto ∧ napt.tuple.sp = t.sp ∧ napt.tuple.dp = t.dp

def faNaptLkupLl (fai : FaInfo) (v6 : Bool) (t : ConnTuple) : Option FaNapt :=
  (fai.napt (faNaptHash v6 t)).find? fun napt => naptTplCmp napt v6 t

def faNaptPrepIpv4Word (napt : FaNapt) (ipc : Ipc) : List Word :=
  faPrepNaptIpv4Row napt.nfi.action napt.nfi.tgtDma (napt.poolIdx.setWidth 32)
    (napt.nhIdx.setWidth 32) ipc.natIp ipc.natPort ipc.tuple.dip.w0 ipc.tuple.sip.w0
    ipc.tuple.dp ipc.tuple.sp ipc.tuple.proto (ipc.has CTF_ACTION_SNAT)

/-- The first unused row of the four in the bucket of the CRC's low byte. -/
def freeBucket (fai : FaInfo) (t : ConnTuple) : Option Nat :=
  let crcHash := (faCrcCcitt fai.crcTab t &&& 0xff).toNat
  ((List.range CTF_MAX_BUCKET_INDEX).map fun i => crcHash * CTF_MAX_BUCKET_INDEX + i).find?
    fun naptIdx => !fai.ftable naptIdx

/-- The entry as allocated, before the table functions fill their indices in. -/
def freshNapt (naptIdx : Nat) (ipc : Ipc) : FaNapt where
  poolIdx := 0
  nhIdx := 0
  dhost := ipc.dhost
  v6 := false
  nfi := { naptIdx := naptIdx, hits := 0, action := 0, tgtDma := 0 }
  tuple := ipc.tuple

def Ipc.nhop (ipc : Ipc) : NhopEntry where
  l2Ftype := 0
  tagOp := if ipc.has CTF_ACTION_TAG then CTF_NH_OP_CTAG else CTF_NH_OP_NOTAG
  vlanTci := ipc.vlanTci
  nhMac := ipc.dhost

/-- The pool entry's direction is the reverse of the flow's. -/
def Ipc.pool (ipc : Ipc) : PoolEntry where
  external := if ipc.has CTF_ACTION_SNAT then CTF_NP_EXTERNAL else CTF_NP_INTERNAL
  remapMac := ipc.shost

/-- `CTF_NAPT_OVRW_IP`, and `CTF_NAPT_OVRW_PORT` where the port changes. -/
def Ipc.naptAction (ipc : Ipc) : Word :=
  if (ipc.has CTF_ACTION_SNAT ∧ ipc.tuple.sp ≠ ipc.natPort) ∨
      (ipc.has CTF_ACTION_DNAT ∧ ipc.tuple.dp ≠ ipc.natPort) then
    CTF_NAPT_OVRW_IP ||| CTF_NAPT_OVRW_PORT
  else CTF_NAPT_OVRW_IP

/-- Linking a programmed entry in. -/
def FaInfo.link (fai : FaInfo) (napt : FaNapt) : FaInfo :=
  let hash := faNaptHash napt.v6 napt.tuple
  { fai with
    napt := Function.update fai.napt hash (napt :: fai.napt hash)
    ftable := Function.update fai.ftable napt.nfi.naptIdx true
    nflows := fai.nflows + 1 }

/-- From the allocation on. -/
def faNaptProgram (fai : FaInfo) (ipc : Ipc) (naptIdx : Nat) : RowProg (Bcme × FaInfo) := do
  let (ret, fai, napt) ← faAddNhopEntry fai (freshNapt naptIdx ipc) ipc.nhop
  if ret = .busy then return (.busy, fai)
  else
    let (ret, napt) ← faAddPoolEntry napt ipc.pool
    if ret = .busy then return (.busy, fai)
    else
      let napt := { napt with nfi := { napt.nfi with action := ipc.naptAction } }
      if ← faWriteNaptEntry (faNaptPrepIpv4Word napt ipc) (BitVec.ofNat 32 naptIdx) then
        return (.ok, fai.link napt)
      else return (.busy, fai)

/-- `mem` is whether the allocation of the entry succeeds. -/
def faNaptAdd (fai : FaInfo) (ipc : Ipc) (v6 mem : Bool) : RowProg (Bcme × FaInfo) :=
  if !ipc.txDevOn || !ipc.rxDevOn then return (.error, fai)
  else if v6 then return (.error, fai)
  else if ipc.pppIfp then return (.error, fai)
  else
    match freeBucket fai ipc.tuple with
    | none => return (.error, fai)
    | some naptIdx =>
        if fai.ftable naptIdx then return (.error, fai)
        else if (faNaptLkupLl fai v6 ipc.tuple).isSome then return (.error, fai)
        else if !mem then return (.error, fai)
        else faNaptProgram fai ipc naptIdx

/-- `_fa_napt_del`. -/
def faNaptDelLl (fai : FaInfo) (napt : FaNapt) : RowProg (Bcme × FaInfo) := do
  let idx := BitVec.ofNat 32 napt.nfi.naptIdx
  match ← faReadNaptEntry idx with
  | none => return (.busy, fai)
  | some tbl =>
      let vidx := if napt.v6 then 7 else 6
      if ofWords tbl vidx &&& NF_VALID = 0 then return (.ok, fai)
      else if ← faWriteNaptEntry (tbl.set vidx (ofWords tbl vidx &&& ~~~NF_VALID)) idx then
        return (.ok, ← faDeleteNhopEntry fai napt)
      else return (.busy, fai)

/-- Taking the first matching entry out of its chain. -/
def FaInfo.unlink (fai : FaInfo) (v6 : Bool) (t : ConnTuple) : FaInfo :=
  let hash := faNaptHash v6 t
  { fai with
    napt := Function.update fai.napt hash
      ((fai.napt hash).eraseP fun napt => naptTplCmp napt v6 t) }

def faNaptDel (fai : FaInfo) (ipc : Ipc) (v6 : Bool) : RowProg (Bcme × FaInfo) := do
  match faNaptLkupLl fai v6 ipc.tuple with
  | none => return (.ok, fai)
  | some napt =>
      let (ret, fai) ← faNaptDelLl (fai.unlink v6 ipc.tuple) napt
      return (ret, { fai with
        ftable := Function.update fai.ftable napt.nfi.naptIdx false
        nflows := fai.nflows - 1 })

/-- Whether the packet is to be freed for want of a fast path. -/
def faConntrack (fai : FaInfo) (ipc : Ipc) (v6 : Bool) : Bool :=
  ipc.pktFaAux && (faNaptLkupLl fai v6 ipc.tuple).isNone

/-- The hit counter, split over words 0 and 1. -/
def naptHits (tbl : Nat → Word) : Word := ((tbl 1 &&& 0x7) <<< 29) ||| (tbl 0 >>> 3)

/-- The entry that a lookup finds, in place. -/
def FaInfo.setHits (fai : FaInfo) (v6 : Bool) (t : ConnTuple) (hits : Word) : FaInfo :=
  let hash := faNaptHash v6 t
  { fai with
    napt := Function.update fai.napt hash
      ((fai.napt hash).replaceF fun napt =>
        if naptTplCmp napt v6 t then some { napt with nfi := { napt.nfi with hits := hits } }
        else none) }

/-- Returns `ipc->live`. -/
def faNaptLive (fai : FaInfo) (ipc : Ipc) (v6 : Bool) : RowProg (Word × FaInfo) := do
  if ipc.live ≠ 0 then return (ipc.live, fai)
  else
    match faNaptLkupLl fai v6 ipc.tuple with
    | none => return (ipc.live, fai)
    | some napt =>
        match ← faReadNaptEntry (BitVec.ofNat 32 napt.nfi.naptIdx) with
        | none => return (ipc.live, fai)
        | some tbl =>
            let hits := naptHits (ofWords tbl)
            if napt.nfi.hits ≠ hits then return (1, fai.setHits v6 ipc.tuple hits)
            else return (ipc.live, fai)

/-! ### Modes -/

def faSetmode (fai : FaInfo) (mode : AccMode) : RowProg (Bcme × FaInfo) := do
  if fai.accMode = mode then return (.ok, fai)
  else if ← .request (RowOp.init mode) then return (.ok, { fai with accMode := mode })
  else return (.error, fai)

/-- The flush of the chains, on the entries in the order they are walked. The
slots in `ftable` stay as they are. -/
def flushFlows (fai : FaInfo) : List FaNapt → RowProg FaInfo
  | [] => return fai
  | napt :: rest => do
      let (_, fai) ← faNaptDelLl fai napt
      flushFlows { fai with nflows := fai.nflows - 1 } rest

def faFlush (fai : FaInfo) : RowProg FaInfo := do
  if fai.nflows = 0 then return fai
  else return { ← flushFlows fai fai.flows with napt := fun _ => [] }

def faDown (fai : FaInfo) : RowProg (Bcme × FaInfo) := do
  if fai.accMode = .bypass then return (.ok, fai)
  else
    let (ret, fai) ← faSetmode fai .bypass
    if ret ≠ .ok then return (ret, fai)
    else return (.ok, ← faFlush fai)

def faUp (fai : FaInfo) (mode : AccMode) : RowProg (Bcme × FaInfo) := do
  if fai.accMode = mode then return (.ok, fai)
  else if mode = .bypass then
    -- the result of `fa_down` is not passed on
    let (_, fai) ← faDown fai
    return (.ok, fai)
  else if mode = .swAcc then return (.badArg, fai)
  else
    let (ret, fai) ← faSetmode fai mode
    if ret ≠ .ok then return (ret, fai)
    else return (.ok, { fai with crcTab := initCrcccittTab, nhi := NextHop.reset })

/-! ### Calls -/

/-- What the rest of the network driver calls, one at a time under the lock. -/
inductive Call where
  | add (ipc : Ipc) (v6 mem : Bool)
  | del (ipc : Ipc) (v6 : Bool)
  | live (ipc : Ipc) (v6 : Bool)
  | conntrack (ipc : Ipc) (v6 : Bool)
  | up (mode : AccMode)
  | down

def Call.prog (fai : FaInfo) : Call → RowProg FaInfo
  | .add ipc v6 mem => do return (← faNaptAdd fai ipc v6 mem).2
  | .del ipc v6 => do return (← faNaptDel fai ipc v6).2
  | .live ipc v6 => do return (← faNaptLive fai ipc v6).2
  | .conntrack ipc v6 => do
      -- freeing the packet leaves no trace in the driver
      let _ ← pure (faConntrack fai ipc v6)
      return fai
  | .up mode => do return (← faUp fai mode).2
  | .down => do return (← faDown fai).2

/-- The driver's state next to the hardware. -/
structure Etc where
  fai : FaInfo
  hw : Hw

def Etc.step (s : Etc) (c : Call) : Etc :=
  let r := (c.prog s.fai).run Hw.perform s.hw
  ⟨r.1, r.2⟩

/-- After a first `fa_up` to normal mode on an attached driver. -/
def Etc.start (hw : Hw) : Etc := Etc.step ⟨FaInfo.attached, hw⟩ (.up .normal)

/-- The driver's state then, if the init completes. -/
def FaInfo.started : FaInfo :=
  { FaInfo.attached with
    accMode := .normal
    crcTab := initCrcccittTab
    nhi := NextHop.reset }

theorem faUp_attached (hw : Hw) (hdone : hw.now.busy = false) :
    ((faUp FaInfo.attached .normal).run Hw.perform hw).1 = (.ok, FaInfo.started) := by
  simp [faUp, faSetmode, FaInfo.attached, FaInfo.started, Hw.perform, hdone]

theorem Etc.start_fai {hw : Hw} (hdone : hw.now.busy = false) :
    (Etc.start hw).fai = FaInfo.started := by
  have hup := faUp_attached hw hdone
  simp only [Etc.start, Etc.step, Call.prog, Prog.run_bind]
  exact congrArg Prod.snd hup

end R8000Plus.Vendor

import R8000Plus.Fa.Rows

/-!
The part of the kernel's generic flow rule that the driver reads, and the
decoders of `fa_accel.c` over it. Match keys are exact-match values, which is
what the flowtable sends; the driver never looks at their masks.
-/

namespace R8000Plus.Fa

/-- `enum flow_action_mangle_base`. -/
inductive MangleHdr where
  | unspec
  | eth
  | ip4
  | ip6
  | tcp
  | udp
  deriving DecidableEq, Repr

/-- One rewrite of the 32-bit header word at `offset`. `mask` and `val` are the
words as the CPU holds them. -/
structure Mangle where
  htype : MangleHdr
  offset : Nat
  mask : Word
  val : Word
  deriving DecidableEq, Repr

structure NetDevice where
  name : String
  deriving DecidableEq, Repr

/-- An action entry. `other` carries the id of every action the driver's
switches leave to their default case. -/
inductive FlowAction where
  | mangle (m : Mangle)
  | redirect (dev : Option NetDevice)
  | csum
  | other (id : Nat)
  deriving DecidableEq, Repr

structure Ipv4Addrs where
  src : Be32
  dst : Be32
  deriving DecidableEq, Repr

structure Ports where
  src : Be16
  dst : Be16
  deriving DecidableEq, Repr

/-- A key is `some` when the rule's dissector has it. -/
structure FlowRule where
  ipProto : Option Byte
  ipv4Addrs : Option Ipv4Addrs
  ports : Option Ports
  ethDst : Option Mac
  actions : List FlowAction

/-- `offsetof(struct iphdr, saddr)` and `offsetof(struct iphdr, daddr)`. -/
def IPHDR_SADDR : Nat := 12
def IPHDR_DADDR : Nat := 16

/-- The local variables `fa_flow_replace_live` fills in while it decodes. -/
structure Decoded where
  srcIp : Be32 := 0
  dstIp : Be32 := 0
  natSrc : Be32 := 0
  natDst : Be32 := 0
  srcPort : Be16 := 0
  dstPort : Be16 := 0
  natSport : Be16 := 0
  natDport : Be16 := 0
  proto : Byte := 0
  dstMac : Mac := fun _ => 0
  haveIp : Bool := false
  havePorts : Bool := false
  haveMac : Bool := false
  egressDev : Option NetDevice := none

def faDecodeMangleIpv4 (act : Mangle) (d : Decoded) : Decoded :=
  if act.htype ≠ .ip4 then d
  else if act.offset = IPHDR_SADDR then { d with natSrc := act.val, haveIp := true }
  else if act.offset = IPHDR_DADDR then { d with natDst := act.val, haveIp := true }
  else d

def faDecodeManglePorts (act : Mangle) (d : Decoded) : Decoded :=
  if act.htype ≠ .tcp ∧ act.htype ≠ .udp then d
  else
    let val := ntohl act.val
    if act.offset = 0 then
      if act.mask = ~~~htonl 0xffff then
        { d with natDport := cpuToBe16 (val.setWidth 16), havePorts := true }
      else
        { d with natSport := cpuToBe16 ((val >>> 16).setWidth 16), havePorts := true }
    else if act.offset = 2 then
      { d with natDport := cpuToBe16 (val.setWidth 16), havePorts := true }
    else d

/-- A MAC is taken from the match key only. An Ethernet rewrite sets the flag
and leaves the bytes alone. -/
def faDecodeDstMac (rule : FlowRule) (mac : Mac) : Mac × Bool :=
  let (mac, have_) := match rule.ethDst with
    | some dst => (dst, true)
    | none => (mac, false)
  rule.actions.foldl (fun (mac, have_) act =>
    match act with
    | .mangle m => if m.htype = .eth then (mac, true) else (mac, have_)
    | _ => (mac, have_)) (mac, have_)

/-- The three key lookups at the top of `fa_flow_replace_live`. -/
def faDecodeKeys (rule : FlowRule) : Decoded :=
  let d : Decoded := {}
  let d := match rule.ipProto with
    | some proto => { d with proto := proto }
    | none => d
  let d := match rule.ipv4Addrs with
    | some key => { d with srcIp := key.src, dstIp := key.dst, haveIp := true }
    | none => d
  match rule.ports with
  | some key => { d with srcPort := key.src, dstPort := key.dst, havePorts := true }
  | none => d

/-- One pass of the action loop of `fa_flow_replace_live`. -/
def faDecodeAction (d : Decoded) : FlowAction → Decoded
  | .mangle m => faDecodeManglePorts m (faDecodeMangleIpv4 m d)
  | .redirect dev => { d with egressDev := dev }
  | .csum => d
  | .other _ => d

def faDecodeRule (rule : FlowRule) : Decoded :=
  let d := faDecodeKeys rule
  let (mac, have_) := faDecodeDstMac rule d.dstMac
  rule.actions.foldl faDecodeAction { d with dstMac := mac, haveMac := have_ }

/-- The two checks that send a rule back to the software path before any slot
is taken. -/
def Decoded.refused (d : Decoded) : Bool :=
  !d.haveIp || d.proto != 6 || !d.haveMac

/-- `egress_dev && !strcmp(egress_dev->name, "wan")`. -/
def Decoded.isSnat (d : Decoded) : Bool :=
  match d.egressDev with
  | some dev => dev.name == "wan"
  | none => false

def Decoded.nhRow (d : Decoded) : List Word :=
  faSetNhEntry d.dstMac 0 CTF_NH_OP_NOTAG 0

def Decoded.nfRow (d : Decoded) (nhIdx : Word) : List Word :=
  faPrepNaptIpv4Row CTF_NAPT_OVRW_IP 0 0 nhIdx
    (if d.natSrc ≠ 0 then d.natSrc else d.srcIp)
    (if d.natSport ≠ 0 then d.natSport else d.srcPort)
    d.dstIp d.srcIp d.dstPort d.srcPort d.proto d.isSnat

@[simp] theorem Decoded.nhRow_length (d : Decoded) : d.nhRow.length = NH_ROW_WORDS := rfl

@[simp] theorem Decoded.nfRow_length (d : Decoded) (nhIdx : Word) :
    (d.nfRow nhIdx).length = NF_ROW_WORDS := rfl

@[simp] theorem Decoded.nfValid_nfRow (d : Decoded) (nhIdx : Word) :
    nfValid (ofWords (d.nfRow nhIdx)) = true :=
  nfValid_row ..

theorem Decoded.nfNhIdx_nfRow (d : Decoded) (nhIdx : Word) (h : nhIdx.toNat < 2 ^ 7) :
    nfNhIdx (ofWords (d.nfRow nhIdx)) = nhIdx :=
  nfNhIdx_row _ _ _ _ _ _ _ _ _ _ _ _ (by decide) (by decide) (by decide) h

/-- The rule for one direction of a TCP connection leaving by `wan`, its source
rewritten to the router's address. -/
def FlowRule.toWan (mac : Mac) : FlowRule where
  ipProto := some 6
  ipv4Addrs := some { src := htonl 0xC0A80164, dst := htonl 0x08080808 }
  ports := some { src := cpuToBe16 50000, dst := cpuToBe16 443 }
  ethDst := some mac
  actions :=
    [ .mangle ⟨.ip4, IPHDR_SADDR, 0, htonl 0xCB007105⟩,
      .redirect (some ⟨"wan"⟩) ]

/-- The rule for the other direction: the destination is rewritten back to the
client's address. -/
def FlowRule.toLan (mac : Mac) : FlowRule where
  ipProto := some 6
  ipv4Addrs := some { src := htonl 0x08080808, dst := htonl 0xCB007105 }
  ports := some { src := cpuToBe16 443, dst := cpuToBe16 50000 }
  ethDst := some mac
  actions :=
    [ .mangle ⟨.ip4, IPHDR_DADDR, 0, htonl 0xC0A80164⟩,
      .redirect (some ⟨"br-lan"⟩) ]

end R8000Plus.Fa

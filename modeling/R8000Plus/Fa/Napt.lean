import R8000Plus.Fa.Durable

/-!
Two meanings of a rule for a packet: what its MANGLE actions do to the headers,
and what the NAPT row written for it makes the hardware do. The row always
rewrites one address, chosen by the egress device, and never a port.
-/

namespace R8000Plus.Fa

open Effects

/-! ### Packets -/

/-- Header bytes, each header from its own start. -/
structure Packet where
  eth : Nat → Byte
  ip : Nat → Byte
  l4 : Nat → Byte

/-- The 32-bit word at an offset as the little-endian CPU loads it. -/
def wordAt (header : Nat → Byte) (offset : Nat) : Word :=
  header (offset + 3) ++ header (offset + 2) ++ header (offset + 1) ++ header offset

def halfAt (header : Nat → Byte) (offset : Nat) : Be16 := header (offset + 1) ++ header offset

def putWord (header : Nat → Byte) (offset : Nat) (word : Word) : Nat → Byte := fun k =>
  if offset ≤ k ∧ k < offset + 4 then word.extractLsb' (8 * (k - offset)) 8 else header k

/-- The addresses and ports of a TCP/IPv4 packet. -/
structure Tuple where
  saddr : Be32
  daddr : Be32
  sport : Be16
  dport : Be16
  deriving DecidableEq, Repr

/-- `offsetof(struct iphdr, protocol)`. -/
def IPHDR_PROTOCOL : Nat := 9

def Packet.tuple (p : Packet) : Tuple where
  saddr := wordAt p.ip IPHDR_SADDR
  daddr := wordAt p.ip IPHDR_DADDR
  sport := halfAt p.l4 0
  dport := halfAt p.l4 2

/-- The header word at the offset becomes `(w & mask) | val`. -/
def Mangle.word (m : Mangle) (w : Word) : Word := (w &&& m.mask) ||| m.val

def Mangle.rewrite (m : Mangle) (header : Nat → Byte) : Nat → Byte :=
  putWord header m.offset (m.word (wordAt header m.offset))

def FlowAction.apply (p : Packet) : FlowAction → Packet
  | .mangle m =>
      match m.htype with
      | .eth => { p with eth := m.rewrite p.eth }
      | .ip4 => { p with ip := m.rewrite p.ip }
      | .tcp => { p with l4 := m.rewrite p.l4 }
      | .udp => { p with l4 := m.rewrite p.l4 }
      | .ip6 => p
      | .unspec => p
  | _ => p

namespace FlowRule

def keySrc (rule : FlowRule) : Option Be32 := rule.ipv4Addrs.map Ipv4Addrs.src
def keyDst (rule : FlowRule) : Option Be32 := rule.ipv4Addrs.map Ipv4Addrs.dst
def keySport (rule : FlowRule) : Option Be16 := rule.ports.map Ports.src
def keyDport (rule : FlowRule) : Option Be16 := rule.ports.map Ports.dst

/-- The packet has the value of every key the rule matches on. -/
structure Matches (rule : FlowRule) (p : Packet) : Prop where
  proto : ∀ proto ∈ rule.ipProto, p.ip IPHDR_PROTOCOL = proto
  saddr : ∀ addr ∈ rule.keySrc, p.tuple.saddr = addr
  daddr : ∀ addr ∈ rule.keyDst, p.tuple.daddr = addr
  sport : ∀ port ∈ rule.keySport, p.tuple.sport = port
  dport : ∀ port ∈ rule.keyDport, p.tuple.dport = port

/-- The device of the REDIRECT, the last one if there are more. -/
def egress (rule : FlowRule) : Option NetDevice :=
  rule.actions.foldl (fun dev act =>
    match act with
    | .redirect dev' => dev'
    | _ => dev) none

end FlowRule

/-- What the hardware does with a packet that hits a row. -/
def naptRewrite (row : Nat → Word) (t : Tuple) : Tuple :=
  let addr (old : Be32) : Be32 := if (nfAction row).getLsbD 0 then htonl (nfNatIp row) else old
  let port (old : Be16) : Be16 :=
    if (nfAction row).getLsbD 1 then cpuToBe16 (nfNatPort row) else old
  if nfExternal row then { t with daddr := addr t.daddr, dport := port t.dport }
  else { t with saddr := addr t.saddr, sport := port t.sport }

/-! ### Header words -/

theorem wordAt_putWord_self (header : Nat → Byte) (offset : Nat) (word : Word) :
    wordAt (putWord header offset word) offset = word := by
  apply BitVec.eq_of_getLsbD_eq
  intro i hi
  simp only [wordAt, putWord, Nat.le_add_right, Nat.add_lt_add_iff_left, Nat.add_sub_cancel_left,
    Nat.le_refl, Nat.sub_self, true_and, BitVec.getLsbD_append]
  interval_cases i <;> simp

theorem wordAt_putWord_of_disjoint (header : Nat → Byte) {offset other : Nat} (word : Word)
    (h : other + 4 ≤ offset ∨ offset + 4 ≤ other) :
    wordAt (putWord header offset word) other = wordAt header other := by
  have hsame : ∀ k < 4, putWord header offset word (other + k) = header (other + k) := by
    intro k hk
    rw [putWord, if_neg (by omega)]
  rw [wordAt, wordAt, hsame 3 (by omega), hsame 2 (by omega), hsame 1 (by omega)]
  rw [show other = other + 0 from rfl, hsame 0 (by omega)]

theorem halfAt_putWord_low (header : Nat → Byte) (offset : Nat) (word : Word) :
    halfAt (putWord header offset word) offset = word.extractLsb' 0 16 := by
  apply BitVec.eq_of_getLsbD_eq
  intro i hi
  simp only [halfAt, putWord, Nat.le_add_right, Nat.add_lt_add_iff_left, Nat.add_sub_cancel_left,
    Nat.le_refl, Nat.sub_self, true_and, BitVec.getLsbD_append]
  interval_cases i <;> simp

theorem halfAt_putWord_high (header : Nat → Byte) (word : Word) :
    halfAt (putWord header 0 word) 2 = word.extractLsb' 16 16 := by
  apply BitVec.eq_of_getLsbD_eq
  intro i hi
  simp only [halfAt, putWord, BitVec.getLsbD_append]
  interval_cases i <;> simp

theorem halfAt_putWord_before (header : Nat → Byte) (word : Word) :
    halfAt (putWord header 2 word) 0 = halfAt header 0 := by
  simp [halfAt, putWord]

theorem wordAt_low (header : Nat → Byte) (offset : Nat) :
    (wordAt header offset).extractLsb' 0 16 = halfAt header offset := by
  apply BitVec.eq_of_getLsbD_eq
  intro i hi
  simp only [wordAt, halfAt, BitVec.getLsbD_extractLsb', BitVec.getLsbD_append]
  interval_cases i <;> simp

theorem wordAt_high (header : Nat → Byte) :
    (wordAt header 0).extractLsb' 16 16 = halfAt header 2 := by
  apply BitVec.eq_of_getLsbD_eq
  intro i hi
  simp only [wordAt, halfAt, BitVec.getLsbD_extractLsb', BitVec.getLsbD_append]
  interval_cases i <;> simp

/-! ### What the actions do -/

/-- One whole field set to a value. -/
inductive Rewrite where
  | saddr (val : Be32)
  | daddr (val : Be32)
  | sport (val : Be16)
  | dport (val : Be16)
  deriving DecidableEq, Repr

def Rewrite.apply (t : Tuple) : Rewrite → Tuple
  | .saddr val => { t with saddr := val }
  | .daddr val => { t with daddr := val }
  | .sport val => { t with sport := val }
  | .dport val => { t with dport := val }

/-- The last value each field was set to. -/
structure Rewrites where
  saddr : Option Be32
  daddr : Option Be32
  sport : Option Be16
  dport : Option Be16
  deriving DecidableEq, Repr

namespace Rewrites

def empty : Rewrites := ⟨none, none, none, none⟩

def note (r : Rewrites) : Option Rewrite → Rewrites
  | none => r
  | some (.saddr val) => { r with saddr := some val }
  | some (.daddr val) => { r with daddr := some val }
  | some (.sport val) => { r with sport := some val }
  | some (.dport val) => { r with dport := some val }

def apply (r : Rewrites) (t : Tuple) : Tuple where
  saddr := r.saddr.getD t.saddr
  daddr := r.daddr.getD t.daddr
  sport := r.sport.getD t.sport
  dport := r.dport.getD t.dport

def ofList (effects : List (Option Rewrite)) : Rewrites := effects.foldl note empty

end Rewrites

/-- A supported action and the field it sets, if it sets one: a MANGLE that
replaces a whole address or a whole TCP port whatever the header word was, an
Ethernet MANGLE, the checksum, a REDIRECT. -/
inductive FlowAction.Does : FlowAction → Option Rewrite → Prop
  | saddr (m : Mangle) (val : Be32) (htype : m.htype = .ip4) (hoffset : m.offset = IPHDR_SADDR)
      (hword : ∀ w, m.word w = val) : Does (.mangle m) (some (.saddr val))
  | daddr (m : Mangle) (val : Be32) (htype : m.htype = .ip4) (hoffset : m.offset = IPHDR_DADDR)
      (hword : ∀ w, m.word w = val) : Does (.mangle m) (some (.daddr val))
  | sport (m : Mangle) (val : Be16) (htype : m.htype = .tcp) (hoffset : m.offset = 0)
      (hword : ∀ w, (m.word w).extractLsb' 0 16 = val ∧
        (m.word w).extractLsb' 16 16 = w.extractLsb' 16 16) : Does (.mangle m) (some (.sport val))
  | dport (m : Mangle) (val : Be16) (htype : m.htype = .tcp) (hoffset : m.offset = 0)
      (hword : ∀ w, (m.word w).extractLsb' 16 16 = val ∧
        (m.word w).extractLsb' 0 16 = w.extractLsb' 0 16) : Does (.mangle m) (some (.dport val))
  | dportAlone (m : Mangle) (val : Be16) (htype : m.htype = .tcp) (hoffset : m.offset = 2)
      (hword : ∀ w, (m.word w).extractLsb' 0 16 = val) : Does (.mangle m) (some (.dport val))
  | eth (m : Mangle) (htype : m.htype = .eth) : Does (.mangle m) none
  | csum : Does .csum none
  | redirect (dev : Option NetDevice) : Does (.redirect dev) none

theorem saddr_rewrite (m : Mangle) (header : Nat → Byte) (h : m.offset = IPHDR_SADDR) :
    wordAt (m.rewrite header) IPHDR_SADDR = m.word (wordAt header IPHDR_SADDR) ∧
      wordAt (m.rewrite header) IPHDR_DADDR = wordAt header IPHDR_DADDR := by
  rw [Mangle.rewrite, h]
  exact ⟨wordAt_putWord_self .., wordAt_putWord_of_disjoint _ _ (by decide)⟩

theorem daddr_rewrite (m : Mangle) (header : Nat → Byte) (h : m.offset = IPHDR_DADDR) :
    wordAt (m.rewrite header) IPHDR_DADDR = m.word (wordAt header IPHDR_DADDR) ∧
      wordAt (m.rewrite header) IPHDR_SADDR = wordAt header IPHDR_SADDR := by
  rw [Mangle.rewrite, h]
  exact ⟨wordAt_putWord_self .., wordAt_putWord_of_disjoint _ _ (by decide)⟩

theorem ports_rewrite (m : Mangle) (header : Nat → Byte) (h : m.offset = 0) :
    halfAt (m.rewrite header) 0 = (m.word (wordAt header 0)).extractLsb' 0 16 ∧
      halfAt (m.rewrite header) 2 = (m.word (wordAt header 0)).extractLsb' 16 16 := by
  rw [Mangle.rewrite, h]
  exact ⟨halfAt_putWord_low .., halfAt_putWord_high ..⟩

theorem dportAlone_rewrite (m : Mangle) (header : Nat → Byte) (h : m.offset = 2) :
    halfAt (m.rewrite header) 0 = halfAt header 0 ∧
      halfAt (m.rewrite header) 2 = (m.word (wordAt header 2)).extractLsb' 0 16 := by
  rw [Mangle.rewrite, h]
  exact ⟨halfAt_putWord_before .., halfAt_putWord_low ..⟩

theorem FlowAction.Does.tuple {act : FlowAction} {effect : Option Rewrite} (h : act.Does effect)
    (p : Packet) : (act.apply p).tuple = effect.elim p.tuple (Rewrite.apply p.tuple) := by
  cases h with
  | saddr m val htype hoffset hword =>
      obtain ⟨hself, hother⟩ := saddr_rewrite m p.ip hoffset
      simp [FlowAction.apply, htype, Packet.tuple, Rewrite.apply, hself, hother, hword]
  | daddr m val htype hoffset hword =>
      obtain ⟨hself, hother⟩ := daddr_rewrite m p.ip hoffset
      simp [FlowAction.apply, htype, Packet.tuple, Rewrite.apply, hself, hother, hword]
  | sport m val htype hoffset hword =>
      obtain ⟨hlow, hhigh⟩ := ports_rewrite m p.l4 hoffset
      obtain ⟨hval, hkeep⟩ := hword (wordAt p.l4 0)
      simp [FlowAction.apply, htype, Packet.tuple, Rewrite.apply, hlow, hhigh, hval, hkeep,
        wordAt_high]
  | dport m val htype hoffset hword =>
      obtain ⟨hlow, hhigh⟩ := ports_rewrite m p.l4 hoffset
      obtain ⟨hval, hkeep⟩ := hword (wordAt p.l4 0)
      simp [FlowAction.apply, htype, Packet.tuple, Rewrite.apply, hlow, hhigh, hval, hkeep,
        wordAt_low]
  | dportAlone m val htype hoffset hword =>
      obtain ⟨hbefore, hlow⟩ := dportAlone_rewrite m p.l4 hoffset
      simp [FlowAction.apply, htype, Packet.tuple, Rewrite.apply, hbefore, hlow, hword]
  | eth m htype => simp [FlowAction.apply, htype, Packet.tuple]
  | csum => rfl
  | redirect dev => rfl

theorem Rewrites.apply_note (r : Rewrites) (effect : Option Rewrite) (t : Tuple) :
    (r.note effect).apply t = effect.elim (r.apply t) (Rewrite.apply (r.apply t)) := by
  rcases effect with - | (val | val | val | val) <;> rfl

theorem applied_from {actions : List FlowAction} {effects : List (Option Rewrite)}
    (h : List.Forall₂ FlowAction.Does actions effects) (p p0 : Packet) (r : Rewrites)
    (hp : p.tuple = r.apply p0.tuple) :
    (actions.foldl FlowAction.apply p).tuple = (effects.foldl Rewrites.note r).apply p0.tuple := by
  induction h generalizing p r with
  | nil => exact hp
  | cons hdoes _ ih => exact ih _ _ (by rw [hdoes.tuple, Rewrites.apply_note, hp])

/-- The actions of a rule, applied to a packet in order, set each field to the
last value given for it. -/
theorem applied_tuple {actions : List FlowAction} {effects : List (Option Rewrite)}
    (h : List.Forall₂ FlowAction.Does actions effects) (p : Packet) :
    (actions.foldl FlowAction.apply p).tuple = (Rewrites.ofList effects).apply p.tuple :=
  applied_from h p p .empty rfl

/-! ### What the driver decodes -/

theorem FlowAction.Does.natSrc {act : FlowAction} {effect : Option Rewrite} (h : act.Does effect)
    (d : Decoded) (r : Rewrites) (hd : d.natSrc = r.saddr.getD 0) :
    (faDecodeAction d act).natSrc = (r.note effect).saddr.getD 0 := by
  have hports : ∀ (m : Mangle) (d : Decoded), (faDecodeManglePorts m d).natSrc = d.natSrc := by
    intro m d
    simp only [faDecodeManglePorts]
    split_ifs <;> rfl
  cases h with
  | saddr m val htype hoffset hword =>
      have hval : m.val = val := by simpa [Mangle.word] using hword 0
      simp [faDecodeAction, hports, faDecodeMangleIpv4, htype, hoffset, Rewrites.note, hval]
  | daddr m val htype hoffset hword =>
      simp [faDecodeAction, hports, faDecodeMangleIpv4, htype, hoffset, IPHDR_SADDR, IPHDR_DADDR,
        Rewrites.note, hd]
  | sport m val htype => simp [faDecodeAction, hports, faDecodeMangleIpv4, htype, Rewrites.note, hd]
  | dport m val htype => simp [faDecodeAction, hports, faDecodeMangleIpv4, htype, Rewrites.note, hd]
  | dportAlone m val htype =>
      simp [faDecodeAction, hports, faDecodeMangleIpv4, htype, Rewrites.note, hd]
  | eth m htype => simp [faDecodeAction, hports, faDecodeMangleIpv4, htype, Rewrites.note, hd]
  | csum => exact hd
  | redirect dev => exact hd

theorem natSrc_from {actions : List FlowAction} {effects : List (Option Rewrite)}
    (h : List.Forall₂ FlowAction.Does actions effects) (d : Decoded) (r : Rewrites)
    (hd : d.natSrc = r.saddr.getD 0) :
    (actions.foldl faDecodeAction d).natSrc = (effects.foldl Rewrites.note r).saddr.getD 0 := by
  induction h generalizing d r with
  | nil => exact hd
  | cons hdoes _ ih => exact ih _ _ (hdoes.natSrc _ _ hd)

/-- The action loop reads the match keys and leaves them alone. -/
theorem faDecodeAction_keys (d : Decoded) (act : FlowAction) :
    (faDecodeAction d act).srcIp = d.srcIp ∧ (faDecodeAction d act).proto = d.proto ∧
      (faDecodeAction d act).dstMac = d.dstMac := by
  cases act with
  | mangle m =>
      simp only [faDecodeAction, faDecodeManglePorts, faDecodeMangleIpv4]
      split_ifs <;> exact ⟨rfl, rfl, rfl⟩
  | _ => exact ⟨rfl, rfl, rfl⟩

theorem faDecodeAction_egressDev (d : Decoded) (act : FlowAction) :
    (faDecodeAction d act).egressDev =
      match act with
      | .redirect dev => dev
      | _ => d.egressDev := by
  cases act with
  | mangle m =>
      simp only [faDecodeAction, faDecodeManglePorts, faDecodeMangleIpv4]
      split_ifs <;> rfl
  | _ => rfl

theorem foldl_srcIp (actions : List FlowAction) (d : Decoded) :
    (actions.foldl faDecodeAction d).srcIp = d.srcIp :=
  foldl_unchanged (fun d act => (faDecodeAction_keys d act).1) d actions

theorem foldl_egressDev (actions : List FlowAction) (d : Decoded) :
    (actions.foldl faDecodeAction d).egressDev =
      actions.foldl (fun dev act =>
        match act with
        | .redirect dev' => dev'
        | _ => dev) d.egressDev := by
  induction actions generalizing d with
  | nil => rfl
  | cons act actions ih =>
      rw [List.foldl_cons, List.foldl_cons, ih, faDecodeAction_egressDev]

theorem faDecodeRule_srcIp (rule : FlowRule) : (faDecodeRule rule).srcIp = rule.keySrc.getD 0 := by
  rw [faDecodeRule]
  simp only [foldl_srcIp, faDecodeKeys, FlowRule.keySrc]
  cases rule.ipProto <;> cases rule.ipv4Addrs <;> cases rule.ports <;> rfl

theorem faDecodeRule_egressDev (rule : FlowRule) :
    (faDecodeRule rule).egressDev = rule.egress := by
  rw [faDecodeRule]
  simp only [foldl_egressDev, faDecodeKeys, FlowRule.egress]
  cases rule.ipProto <;> cases rule.ipv4Addrs <;> cases rule.ports <;> rfl

theorem faDecodeRule_natSrc {rule : FlowRule} {effects : List (Option Rewrite)}
    (h : List.Forall₂ FlowAction.Does rule.actions effects) :
    (faDecodeRule rule).natSrc = (Rewrites.ofList effects).saddr.getD 0 := by
  rw [faDecodeRule]
  refine natSrc_from h _ .empty ?_
  simp only [faDecodeKeys]
  cases rule.ipProto <;> cases rule.ipv4Addrs <;> cases rule.ports <;> rfl

theorem faDecodeRule_isSnat (rule : FlowRule) :
    (faDecodeRule rule).isSnat = true ↔ rule.egress = some ⟨"wan"⟩ := by
  rw [Decoded.isSnat, faDecodeRule_egressDev]
  cases rule.egress with
  | none => simp
  | some dev =>
      obtain ⟨name⟩ := dev
      simp

/-! ### What the row does -/

theorem nfAction_congr {row row' : Nat → Word} (h : row 1 &&& ~~~7 = row' 1 &&& ~~~7) :
    nfAction row = nfAction row' := by
  have hmask : ∀ w : Word, (w >>> 3) &&& (3 : Word) = ((w &&& ~~~7) >>> 3) &&& (3 : Word) := by
    intro w
    apply BitVec.eq_of_getLsbD_eq
    intro i hi
    interval_cases i <;> simp
  rw [nfAction, nfAction, hmask, h, ← hmask]

theorem nfNatIp_congr {row row' : Nat → Word} (h : row 1 &&& ~~~7 = row' 1 &&& ~~~7)
    (h2 : row 2 = row' 2) : nfNatIp row = nfNatIp row' := by
  have hmask : ∀ w : Word, w >>> 15 = (w &&& ~~~7) >>> 15 := by
    intro w
    apply BitVec.eq_of_getLsbD_eq
    intro i hi
    interval_cases i <;> simp
  rw [nfNatIp, nfNatIp, hmask, h, ← hmask, h2]

theorem naptRewrite_congr {row row' : Nat → Word} (h1 : row 1 &&& ~~~7 = row' 1 &&& ~~~7)
    (h2 : row 2 = row' 2) (h6 : row 6 = row' 6) (t : Tuple) :
    naptRewrite row t = naptRewrite row' t := by
  have hdir : nfExternal row = nfExternal row' := by rw [nfExternal, nfExternal, h6]
  have hport : nfNatPort row = nfNatPort row' := by rw [nfNatPort, nfNatPort, h2]
  rw [naptRewrite, naptRewrite, hdir, hport, nfAction_congr h1, nfNatIp_congr h1 h2]

/-- The address the driver puts into the row. -/
def Decoded.natIp (d : Decoded) : Be32 := if d.natSrc ≠ 0 then d.natSrc else d.srcIp

/-- A row of this driver rewrites one address and no port. -/
theorem naptRewrite_nfRow (d : Decoded) (i : Slot) (t : Tuple) :
    naptRewrite (ofWords (d.nfRow i.word)) t =
      if d.isSnat then { t with saddr := d.natIp } else { t with daddr := d.natIp } := by
  have hidx : i.word.toNat < 2 ^ 7 := by
    have hle := i.idx_le
    simp only [FA_MAX_LIVE_FLOWS] at hle
    rw [Slot.word_toNat]
    omega
  have haction : nfAction (ofWords (d.nfRow i.word)) = 1 :=
    nfAction_row _ _ _ _ _ _ _ _ _ _ _ _ (by decide) (by decide)
  have hip : nfNatIp (ofWords (d.nfRow i.word)) = ntohl d.natIp :=
    nfNatIp_row _ _ _ _ _ _ _ _ _ _ _ _ (by decide) (by decide) (by decide) hidx
  have hdir : nfExternal (ofWords (d.nfRow i.word)) = !d.isSnat := nfExternal_row ..
  simp only [naptRewrite, haction, hip, hdir, ntohl_ntohl]
  cases d.isSnat <;> simp

/-! ### When the two agree -/

/-- The row of a rule carries out the rewrites of its actions on every packet
that has the rule's keys. Ports: they are only set to what the packet has
already. Towards the WAN port the row sets the source to the last source
rewrite; the destination must stay. Elsewhere it sets the destination to the
source key; the source must stay. -/
structure FlowRule.Carries (rule : FlowRule) (r : Rewrites) : Prop where
  sport : ∀ val, r.sport = some val → rule.keySport = some val
  dport : ∀ val, r.dport = some val → rule.keyDport = some val
  wanDst : rule.egress = some ⟨"wan"⟩ → ∀ val, r.daddr = some val → rule.keyDst = some val
  wanSrc : rule.egress = some ⟨"wan"⟩ → ∀ val, r.saddr = some val →
    val ≠ 0 ∨ rule.keySrc.getD 0 = 0
  wanKey : rule.egress = some ⟨"wan"⟩ → r.saddr = none → rule.keySrc.isSome = true
  lanSrc : rule.egress ≠ some ⟨"wan"⟩ → ∀ val, r.saddr = some val → rule.keySrc = some val
  lanDst : rule.egress ≠ some ⟨"wan"⟩ → ∀ val, r.daddr = some val → val = rule.keySrc.getD 0
  lanKey : rule.egress ≠ some ⟨"wan"⟩ → r.daddr = none →
    rule.keyDst = some (rule.keySrc.getD 0)

/-- The tuples a rule's keys allow. -/
structure FlowRule.Allows (rule : FlowRule) (t : Tuple) : Prop where
  saddr : ∀ addr ∈ rule.keySrc, t.saddr = addr
  daddr : ∀ addr ∈ rule.keyDst, t.daddr = addr
  sport : ∀ port ∈ rule.keySport, t.sport = port
  dport : ∀ port ∈ rule.keyDport, t.dport = port

/-- A value that is only known to agree with an optional key always equals
`val` exactly when the key is there and is `val`. -/
theorem forall_key_eq_iff {n : Nat} (hn : 0 < n) (key : Option (BitVec n)) (val : BitVec n) :
    (∀ x, (∀ k ∈ key, x = k) → x = val) ↔ key = some val := by
  constructor
  · intro h
    cases key with
    | some k => rw [h k (by simp)]
    | none =>
        have hzero := h 0 (by simp)
        have hones := h (BitVec.allOnes n) (by simp)
        have hne : BitVec.allOnes n ≠ 0 := by
          intro heq
          have hbit := congrArg (fun x : BitVec n => x.getLsbD 0) heq
          simp [hn] at hbit
        exact absurd (hones.trans hzero.symm) hne
  · rintro rfl x hx
    exact hx val rfl

/-- A field that the actions may set and the row leaves alone. -/
theorem forall_getD_iff {n : Nat} (hn : 0 < n) (key set : Option (BitVec n)) :
    (∀ x, (∀ k ∈ key, x = k) → x = set.getD x) ↔ ∀ val, set = some val → key = some val := by
  cases set with
  | none => simp
  | some val => simpa using forall_key_eq_iff hn key val

/-- A field that the row sets to `nat`. -/
theorem forall_nat_iff {n : Nat} (hn : 0 < n) (key set : Option (BitVec n)) (nat : BitVec n) :
    (∀ x, (∀ k ∈ key, x = k) → nat = set.getD x) ↔
      (∀ val, set = some val → nat = val) ∧ (set = none → key = some nat) := by
  cases set with
  | none =>
      have hkey := forall_key_eq_iff hn key nat
      simp only [Option.getD_none, reduceCtorEq, false_implies, implies_true, true_implies,
        true_and, ← hkey]
      exact forall₂_congr fun x _ => eq_comm
  | some val =>
      simp only [Option.getD_some, Option.some.injEq, forall_eq', reduceCtorEq, false_implies,
        and_true]
      exact ⟨fun h => h (key.getD 0) (by rintro k rfl; rfl), fun h _ _ => h⟩

/-- The four fields can be chosen independently. -/
theorem FlowRule.forall_allows_iff (rule : FlowRule) (A B : Be32 → Prop) (C D : Be16 → Prop) :
    (∀ t, rule.Allows t → A t.saddr ∧ B t.daddr ∧ C t.sport ∧ D t.dport) ↔
      (∀ x, (∀ k ∈ rule.keySrc, x = k) → A x) ∧ (∀ x, (∀ k ∈ rule.keyDst, x = k) → B x) ∧
        (∀ x, (∀ k ∈ rule.keySport, x = k) → C x) ∧
          ∀ x, (∀ k ∈ rule.keyDport, x = k) → D x := by
  have hbase : ∀ {n : Nat} (key : Option (BitVec n)), ∀ k ∈ key, key.getD 0 = k := by
    rintro n key k rfl
    rfl
  constructor
  · intro h
    refine ⟨fun x hx => ?_, fun x hx => ?_, fun x hx => ?_, fun x hx => ?_⟩
    · exact (h ⟨x, rule.keyDst.getD 0, rule.keySport.getD 0, rule.keyDport.getD 0⟩
        ⟨hx, hbase _, hbase _, hbase _⟩).1
    · exact (h ⟨rule.keySrc.getD 0, x, rule.keySport.getD 0, rule.keyDport.getD 0⟩
        ⟨hbase _, hx, hbase _, hbase _⟩).2.1
    · exact (h ⟨rule.keySrc.getD 0, rule.keyDst.getD 0, x, rule.keyDport.getD 0⟩
        ⟨hbase _, hbase _, hx, hbase _⟩).2.2.1
    · exact (h ⟨rule.keySrc.getD 0, rule.keyDst.getD 0, rule.keySport.getD 0, x⟩
        ⟨hbase _, hbase _, hbase _, hx⟩).2.2.2
  · rintro ⟨hA, hB, hC, hD⟩ t ht
    exact ⟨hA _ ht.saddr, hB _ ht.daddr, hC _ ht.sport, hD _ ht.dport⟩

section Agree

variable {rule : FlowRule} {r : Rewrites} {d : Decoded}
variable (hnat : d.natSrc = r.saddr.getD 0) (hsrc : d.srcIp = rule.keySrc.getD 0)

include hnat hsrc

theorem natIp_of_none (h : r.saddr = none) : d.natIp = rule.keySrc.getD 0 := by
  rw [Decoded.natIp, hnat, h, hsrc]
  rfl

theorem natIp_of_some {val : Be32} (h : r.saddr = some val) :
    d.natIp = val ↔ val ≠ 0 ∨ rule.keySrc.getD 0 = 0 := by
  rw [Decoded.natIp, hnat, h, hsrc, Option.getD_some]
  by_cases hval : val = 0
  · subst hval
    simp
  · exact iff_of_true (if_pos hval) (.inl hval)

/-- Towards the WAN port. -/
theorem wan_agree_iff (hwan : rule.egress = some ⟨"wan"⟩) :
    (∀ t, rule.Allows t → ({ t with saddr := d.natIp } : Tuple) = r.apply t) ↔
      rule.Carries r := by
  have hsplit := rule.forall_allows_iff (fun x => d.natIp = r.saddr.getD x)
    (fun x => x = r.daddr.getD x) (fun x => x = r.sport.getD x) (fun x => x = r.dport.getD x)
  rw [forall_nat_iff (by decide), forall_getD_iff (by decide), forall_getD_iff (by decide),
    forall_getD_iff (by decide)] at hsplit
  have hsaddr : (∀ val, r.saddr = some val → d.natIp = val) ↔
      ∀ val, r.saddr = some val → val ≠ 0 ∨ rule.keySrc.getD 0 = 0 :=
    forall₂_congr fun val h => natIp_of_some hnat hsrc h
  have hkey : (r.saddr = none → rule.keySrc = some d.natIp) ↔
      (r.saddr = none → rule.keySrc.isSome = true) := by
    refine imp_congr_right fun h => ?_
    rw [natIp_of_none hnat hsrc h]
    cases rule.keySrc <;> simp
  simp only [Rewrites.apply, Tuple.mk.injEq]
  rw [hsplit, hsaddr, hkey]
  constructor
  · rintro ⟨⟨hs, hk⟩, hd, hsp, hdp⟩
    exact ⟨hsp, hdp, fun _ => hd, fun _ => hs, fun _ => hk, fun h => absurd hwan h,
      fun h => absurd hwan h, fun h => absurd hwan h⟩
  · intro h
    exact ⟨⟨h.wanSrc hwan, h.wanKey hwan⟩, h.wanDst hwan, h.sport, h.dport⟩

/-- Towards any other device. -/
theorem lan_agree_iff (hlan : rule.egress ≠ some ⟨"wan"⟩) :
    (∀ t, rule.Allows t → ({ t with daddr := d.natIp } : Tuple) = r.apply t) ↔
      rule.Carries r := by
  have hsplit := rule.forall_allows_iff (fun x => x = r.saddr.getD x)
    (fun x => d.natIp = r.daddr.getD x) (fun x => x = r.sport.getD x) (fun x => x = r.dport.getD x)
  rw [forall_getD_iff (by decide), forall_nat_iff (by decide), forall_getD_iff (by decide),
    forall_getD_iff (by decide)] at hsplit
  -- where the source stays, the row's address is the source key
  have hnatIp : (∀ val, r.saddr = some val → rule.keySrc = some val) →
      d.natIp = rule.keySrc.getD 0 := by
    intro hs
    cases h : r.saddr with
    | none => exact natIp_of_none hnat hsrc h
    | some val =>
        have hkey := hs val h
        rw [hkey, Option.getD_some, natIp_of_some hnat hsrc h, hkey, Option.getD_some]
        exact (em (val = 0)).symm
  simp only [Rewrites.apply, Tuple.mk.injEq]
  rw [hsplit]
  constructor
  · rintro ⟨hs, ⟨hd, hk⟩, hsp, hdp⟩
    rw [hnatIp hs] at hd hk
    exact ⟨hsp, hdp, fun h => absurd h hlan, fun h => absurd h hlan, fun h => absurd h hlan,
      fun _ => hs, fun _ val hval => (hd val hval).symm, fun _ => hk⟩
  · intro h
    have hs := h.lanSrc hlan
    rw [hnatIp hs]
    exact ⟨hs, ⟨fun val hval => (h.lanDst hlan val hval).symm, h.lanKey hlan⟩, h.sport, h.dport⟩

end Agree

/-- The packet with other addresses and ports. -/
def Packet.withTuple (p : Packet) (t : Tuple) : Packet :=
  { p with
    ip := putWord (putWord p.ip IPHDR_SADDR t.saddr) IPHDR_DADDR t.daddr
    l4 := putWord p.l4 0 (t.dport ++ t.sport) }

theorem Packet.tuple_withTuple (p : Packet) (t : Tuple) : (p.withTuple t).tuple = t := by
  obtain ⟨saddr, daddr, sport, dport⟩ := t
  have hsport : (dport ++ sport : Word).extractLsb' 0 16 = sport := by
    apply BitVec.eq_of_getLsbD_eq
    intro i hi
    simp only [BitVec.getLsbD_extractLsb', BitVec.getLsbD_append]
    interval_cases i <;> simp
  have hdport : (dport ++ sport : Word).extractLsb' 16 16 = dport := by
    apply BitVec.eq_of_getLsbD_eq
    intro i hi
    simp only [BitVec.getLsbD_extractLsb', BitVec.getLsbD_append]
    interval_cases i <;> simp
  rw [Packet.tuple, Packet.withTuple, wordAt_putWord_self,
    wordAt_putWord_of_disjoint _ _ (by decide), wordAt_putWord_self, halfAt_putWord_low,
    halfAt_putWord_high, hsport, hdport]

/-- A TCP packet with given addresses and ports. -/
def Packet.ofTuple (t : Tuple) : Packet where
  eth := fun _ => 0
  ip := putWord (putWord (fun _ => 6) IPHDR_SADDR t.saddr) IPHDR_DADDR t.daddr
  l4 := putWord (fun _ => 0) 0 (t.dport ++ t.sport)

theorem Packet.tuple_ofTuple (t : Tuple) : (Packet.ofTuple t).tuple = t :=
  Packet.tuple_withTuple ⟨fun _ => 0, fun _ => 6, fun _ => 0⟩ t

/-! ### Accepted rules -/

theorem foldl_proto (actions : List FlowAction) (d : Decoded) :
    (actions.foldl faDecodeAction d).proto = d.proto :=
  foldl_unchanged (fun d act => (faDecodeAction_keys d act).2.1) d actions

/-- Only rules that match on TCP get past the checks. -/
theorem ipProto_of_accepted {rule : FlowRule} (h : (faDecodeRule rule).refused = false) :
    rule.ipProto = some 6 := by
  have hproto : (faDecodeRule rule).proto = rule.ipProto.getD 0 := by
    rw [faDecodeRule]
    simp only [foldl_proto, faDecodeKeys]
    cases rule.ipProto <;> cases rule.ipv4Addrs <;> cases rule.ports <;> rfl
  simp only [Decoded.refused, hproto, Bool.or_eq_false_iff, bne_eq_false_iff_eq] at h
  cases hkey : rule.ipProto with
  | none => simp [hkey] at h
  | some proto => simpa [hkey] using h.1.2

/-- Packets that match a rule and tuples its keys allow are the same thing. -/
theorem FlowRule.forall_matches_iff {rule : FlowRule} (hproto : rule.ipProto = some 6)
    (P : Tuple → Prop) :
    (∀ p, rule.Matches p → P p.tuple) ↔ ∀ t, rule.Allows t → P t := by
  constructor
  · intro h t ht
    have hp := h (.ofTuple t)
    rw [Packet.tuple_ofTuple] at hp
    refine hp ⟨?_, ?_, ?_, ?_, ?_⟩
    · intro proto hmem
      rw [hproto] at hmem
      exact Option.some.inj hmem
    all_goals rw [Packet.tuple_ofTuple]
    · exact ht.saddr
    · exact ht.daddr
    · exact ht.sport
    · exact ht.dport
  · intro h p hp
    exact h p.tuple ⟨hp.saddr, hp.daddr, hp.sport, hp.dport⟩

namespace Accel

/-- What the NF row of an accepted rule does to a packet. -/
theorem Intact.sends {w : Accel} {cookie : Cookie} {d : Decoded} {i : Slot}
    (h : w.Intact cookie d i) (t : Tuple) :
    naptRewrite (w.dev.rows (nfRowAt i.idx)) t =
      if d.isSnat then { t with saddr := d.natIp } else { t with daddr := d.natIp } := by
  have hrow := h.nf
  rw [h.slot, Slots.taken_nfIdx, Slots.taken_nhIdx, Slot.word_toNat] at hrow
  have h2 := hrow 2 (by decide)
  have h6 := hrow 6 (by decide)
  rw [driverBits_nf _ (by decide), BitVec.and_allOnes, BitVec.and_allOnes] at h2 h6
  rw [naptRewrite_congr (hrow 1 (by decide)) h2 h6, naptRewrite_nfRow]

/-- For an accepted rule with supported actions, the NF row in the table does to
every matching packet what the actions do exactly when the row carries out the
rewrites. -/
theorem napt_agrees_iff (w : Accel) (cls : FlowClsOffload) (i : Slot)
    (effects : List (Option Rewrite)) (hindexed : w.flows.Indexed)
    (hcmd : cls.command = .replace) (hslot : w.flows.firstFree = some i)
    (haccept : (w.callback cls).1 = 0)
    (hdoes : List.Forall₂ FlowAction.Does cls.rule.actions effects) :
    (∀ p, cls.rule.Matches p →
        naptRewrite ((w.callback cls).2.dev.rows (nfRowAt i.idx)) p.tuple =
          (cls.rule.actions.foldl FlowAction.apply p).tuple) ↔
      cls.rule.Carries (.ofList effects) := by
  have hout := callback_outcome w cls hindexed
  rw [haccept] at hout
  generalize (w.callback cls).2 = w' at hout ⊢
  generalize hzero : (0 : Int) = ret at hout
  cases hout with
  | ignored hother => exact absurd hcmd hother.1
  | skipped => simp [EOPNOTSUPP] at hzero
  | unknown hdestroy => simp [hcmd] at hdestroy
  | destroyed _ _ hdestroy => simp [hcmd] at hdestroy
  | replaced k w' _ hrefused hfree hend =>
      obtain rfl := Option.some.inj (hslot.symm.trans hfree)
      obtain ⟨ctl, window, polled, rfl⟩ := hend
      have hnat := faDecodeRule_natSrc hdoes
      have hsrc := faDecodeRule_srcIp cls.rule
      have hsnat := faDecodeRule_isSnat cls.rule
      simp only [applied_tuple hdoes]
      change (∀ p, cls.rule.Matches p → naptRewrite
        ((w.replaced cls.cookie (faDecodeRule cls.rule) i).2.dev.rows (nfRowAt i.idx)) p.tuple =
          (Rewrites.ofList effects).apply p.tuple) ↔ _
      simp only [(replaced_intact hzero.symm).sends]
      rw [FlowRule.forall_matches_iff (ipProto_of_accepted hrefused) fun t =>
        (if (faDecodeRule cls.rule).isSnat then
            ({ t with saddr := (faDecodeRule cls.rule).natIp } : Tuple)
          else { t with daddr := (faDecodeRule cls.rule).natIp }) =
            (Rewrites.ofList effects).apply t]
      by_cases hwan : cls.rule.egress = some ⟨"wan"⟩
      · simp only [hsnat.mpr hwan, if_true]
        exact wan_agree_iff hnat hsrc hwan
      · have hdir : (faDecodeRule cls.rule).isSnat = false := by
          rw [← Bool.not_eq_true, hsnat]
          exact hwan
        simp only [hdir, Bool.false_eq_true, if_false]
        exact lan_agree_iff hnat hsrc hwan

theorem toWan_does :
    List.Forall₂ FlowAction.Does (FlowRule.toWan fun _ => 0).actions
      [some (.saddr (htonl 0xCB007105)), none] := by
  refine .cons (.saddr _ _ rfl rfl fun w => ?_) (.cons (.redirect _) .nil)
  simp [Mangle.word]

theorem toWan_carries :
    (FlowRule.toWan fun _ => 0).Carries (.ofList [some (.saddr (htonl 0xCB007105)), none]) := by
  refine ⟨nofun, nofun, fun _ => nofun, fun _ val hval => .inl ?_, fun _ => nofun, ?_, ?_, ?_⟩
  · obtain rfl := Option.some.inj hval
    decide
  all_goals exact fun hlan => absurd rfl hlan

/-- Plain source NAT towards the WAN port is carried out. -/
theorem napt_agrees_toWan :
    ((loaded (.reset .wordByWord fun _ => .clean)).callback
        ⟨.replace, 7, .toWan fun _ => 0⟩).1 = 0 ∧
      ∀ p, (FlowRule.toWan fun _ => 0).Matches p →
        naptRewrite (((loaded (.reset .wordByWord fun _ => .clean)).callback
          ⟨.replace, 7, .toWan fun _ => 0⟩).2.dev.rows
            (nfRowAt (Slot.idx ⟨0, by decide⟩))) p.tuple =
          ((FlowRule.toWan fun _ => 0).actions.foldl FlowAction.apply p).tuple := by
  have haccept : ((loaded (.reset .wordByWord fun _ => .clean)).callback
      ⟨.replace, 7, .toWan fun _ => 0⟩).1 = 0 := by decide +kernel
  exact ⟨haccept, (napt_agrees_iff (loaded (.reset .wordByWord fun _ => .clean))
    ⟨.replace, 7, .toWan fun _ => 0⟩ ⟨0, by decide⟩ _ Slots.loaded_indexed rfl
    (by decide +kernel) haccept toWan_does).mpr toWan_carries⟩

/-- The way back: the driver puts the server's address into the row, so the
packet goes to the server instead of to the client. -/
theorem napt_agrees_toLan :
    ((loaded (.reset .wordByWord fun _ => .clean)).callback
        ⟨.replace, 7, .toLan fun _ => 0⟩).1 = 0 ∧
      ¬ ∀ p, (FlowRule.toLan fun _ => 0).Matches p →
        naptRewrite (((loaded (.reset .wordByWord fun _ => .clean)).callback
          ⟨.replace, 7, .toLan fun _ => 0⟩).2.dev.rows (nfRowAt 1)) p.tuple =
            ((FlowRule.toLan fun _ => 0).actions.foldl FlowAction.apply p).tuple := by
  refine ⟨by decide +kernel, fun hagree => ?_⟩
  let t : Tuple :=
    ⟨htonl 0x08080808, htonl 0xCB007105, cpuToBe16 443, cpuToBe16 50000⟩
  have hmatch : (FlowRule.toLan fun _ => 0).Matches (.ofTuple t) := by
    constructor
    · exact fun proto hproto => Option.some.inj hproto
    all_goals rw [Packet.tuple_ofTuple]
    all_goals exact fun val hval => Option.some.inj hval
  have heq := hagree (.ofTuple t) hmatch
  exact absurd heq (by decide +kernel)

end Accel

end R8000Plus.Fa

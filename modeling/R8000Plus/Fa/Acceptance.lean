import R8000Plus.Fa.NextHopMac

/-!
Which rules an accepted flow may come from. The rows send every packet of the
flow with one address rewritten and a new destination MAC, so they can stand in
for a rule only if that is what its actions make of the packet. The driver
checks much less: it never asks for a port key or a REDIRECT, takes an address
that only a MANGLE gives, reads a MANGLE's value without its mask, and passes
over every action it does not know.
-/

namespace R8000Plus.Fa

open Effects

/-! ### What the rows send -/

/-- A packet as an NF row and an NH row send it on. -/
def Packet.forwarded (p : Packet) (nf nh : Nat → Word) : Packet :=
  { p.withTuple (naptRewrite nf p.tuple) with
    eth := fun k => if h : k < 6 then ctfFaGetNhDa nh ⟨k, h⟩ else p.eth k }

/-- The header bits that hold an address or a port. -/
def Tuple.bitAt (t : Tuple) : Header → Nat → Nat → Option Bool
  | .eth, _, _ => none
  | .ip, k, b =>
      if IPHDR_DADDR ≤ k ∧ k < IPHDR_DADDR + 4 then
        some (t.daddr.getLsbD (8 * (k - IPHDR_DADDR) + b))
      else if IPHDR_SADDR ≤ k ∧ k < IPHDR_SADDR + 4 then
        some (t.saddr.getLsbD (8 * (k - IPHDR_SADDR) + b))
      else none
  | .l4, k, b => if k < 4 then some ((t.dport ++ t.sport : Word).getLsbD (8 * k + b)) else none

theorem Packet.withTuple_bit (p : Packet) (t : Tuple) (hdr : Header) (k b : Nat) (hb : b < 8) :
    (p.withTuple t).bit hdr k b = (t.bitAt hdr k b).getD (p.bit hdr k b) := by
  cases hdr with
  | eth => rfl
  | ip =>
      simp only [Packet.bit, Packet.header, Packet.withTuple, putWord_bit _ _ _ _ _ hb,
        Tuple.bitAt]
      split_ifs <;> rfl
  | l4 =>
      simp only [Packet.bit, Packet.header, Packet.withTuple, putWord_bit _ _ _ _ _ hb,
        Tuple.bitAt, Nat.zero_le, true_and, Nat.zero_add, Nat.sub_zero]
      split_ifs <;> rfl

theorem Packet.withTuple_tuple (p : Packet) : p.withTuple p.tuple = p := by
  have hword : ∀ (header : Nat → Byte) (offset k b : Nat), offset ≤ k → k < offset + 4 → b < 8 →
      (wordAt header offset).getLsbD (8 * (k - offset) + b) = (header k).getLsbD b := by
    intro header offset k b hlow hhigh hb
    rw [wordAt_bit header offset (k - offset) b (by omega) hb, Nat.add_sub_cancel' hlow]
  refine Packet.ext_bits fun hdr k b hb => ?_
  rw [p.withTuple_bit p.tuple hdr k b hb]
  cases hdr with
  | eth => rfl
  | ip =>
      simp only [Tuple.bitAt, Packet.tuple]
      split_ifs with hdaddr hsaddr
      · exact hword p.ip IPHDR_DADDR k b hdaddr.1 hdaddr.2 hb
      · exact hword p.ip IPHDR_SADDR k b hsaddr.1 hsaddr.2 hb
      · rfl
  | l4 =>
      have hports : (p.tuple.dport ++ p.tuple.sport : Word) = wordAt p.l4 0 := by
        rw [wordAt, BitVec.append_assoc]
        rfl
      simp only [Tuple.bitAt, hports]
      split_ifs with hk
      · exact hword p.l4 0 k b (Nat.zero_le k) (by omega) hb
      · rfl

/-- Which bits these are does not depend on the values. -/
theorem Tuple.bitAt_none {t : Tuple} (t' : Tuple) {hdr : Header} {k b : Nat}
    (h : t.bitAt hdr k b = none) : t'.bitAt hdr k b = none := by
  cases hdr with
  | eth => rfl
  | ip =>
      simp only [Tuple.bitAt] at h ⊢
      split_ifs at h ⊢
      rfl
  | l4 =>
      simp only [Tuple.bitAt] at h ⊢
      split_ifs at h ⊢
      rfl

/-- A rewrite of a header word that the driver's decoders know: one of the MAC
addresses, an IPv4 address, or the ports. -/
def Mangle.recognised (m : Mangle) : Bool :=
  match m.htype with
  | .eth => m.offset == 0 || m.offset == 4 || m.offset == 8
  | .ip4 => m.offset == IPHDR_SADDR || m.offset == IPHDR_DADDR
  | .tcp => m.offset == 0 || m.offset == 2
  | .udp => m.offset == 0 || m.offset == 2
  | .ip6 => false
  | .unspec => false

namespace FlowRule

variable (rule : FlowRule)

/-- The packet has the value of every key of the rule. -/
def Hits (p : Packet) : Prop := rule.Matches p ∧ rule.MatchesEth p

/-- One REDIRECT to a device, and besides it only checksums and recognised
MANGLEs. -/
def ActsOnly : Prop :=
  ∃ pre dev suf, rule.actions = pre ++ .redirect (some dev) :: suf ∧
    ∀ act ∈ pre ++ suf, act = .csum ∨ ∃ m, act = .mangle m ∧ m.recognised = true

/-- All of the rule is a match on one TCP/IPv4 connection and actions that the
decoders know, and the two rows send every packet of it on as the actions
rewrite it. -/
structure Sound (nf nh : Nat → Word) : Prop where
  proto : rule.ipProto = some 6
  addrs : rule.ipv4Addrs.isSome = true
  ports : rule.ports.isSome = true
  actions : rule.ActsOnly
  effect : ∀ p, rule.Hits p → p.forwarded nf nh = rule.actions.foldl FlowAction.apply p

/-! ### The condition -/

/-- What a MANGLE sets the source address to, if it sets it. -/
def srcRewrite : FlowAction → Option Be32
  | .mangle m => if m.htype = .ip4 ∧ m.offset = IPHDR_SADDR then some m.val else none
  | _ => none

/-- The address in the row: the last source rewrite unless that is zero, and
else the source key. -/
def rowAddr : Be32 :=
  let nat := (lastSet srcRewrite rule.actions).getD 0
  if nat ≠ 0 then nat else rule.keySrc.getD 0

/-- The connection of the keys. -/
def keyTuple : Tuple :=
  ⟨rule.keySrc.getD 0, rule.keyDst.getD 0, rule.keySport.getD 0, rule.keyDport.getD 0⟩

/-- The connection as the rows send it on: the row address is the source towards
the WAN port and the destination elsewhere. -/
def sentTuple : Tuple :=
  if rule.egress = some ⟨"wan"⟩ then { rule.keyTuple with saddr := rule.rowAddr }
  else { rule.keyTuple with daddr := rule.rowAddr }

/-- The header bits that are the same in every packet of a rule with all keys. -/
def keyBit : Header → Nat → Nat → Option Bool
  | .eth, k, b => if h : k < 6 then rule.ethDst.map fun mac => (mac ⟨k, h⟩).getLsbD b else none
  | .ip, k, b =>
      if k = IPHDR_PROTOCOL then some ((6 : Byte).getLsbD b) else rule.keyTuple.bitAt .ip k b
  | .l4, k, b => rule.keyTuple.bitAt .l4 k b

/-- The header bits that are the same in every packet the rows send on. -/
def sentBit : Header → Nat → Nat → Option Bool
  | .eth, k, b => if h : k < 6 then some ((rule.keyMac ⟨k, h⟩).getLsbD b) else none
  | .ip, k, b =>
      if k = IPHDR_PROTOCOL then some ((6 : Byte).getLsbD b) else rule.sentTuple.bitAt .ip k b
  | .l4, k, b => rule.sentTuple.bitAt .l4 k b

/-- The device of a REDIRECT. -/
def redirectTo : FlowAction → Option (Option NetDevice)
  | .redirect dev => some dev
  | _ => none

/-- An action that changes packets, or may, in a way the driver does not look
at: its loop passes over it. -/
def passedOver : FlowAction → Bool
  | .mangle m => !m.recognised
  | .other _ => true
  | .redirect _ => false
  | .csum => false

/-- None of the checks that the driver leaves out would fail: both flags are set
by the keys, before the loop over the actions; the loop comes by one REDIRECT,
with a device, and passes over no action; and a bit that an action sets last, or
else the keys decide, is as the rows send it. -/
structure RowsSuffice : Prop where
  haveIp : (faDecodeKeys rule).haveIp = true
  havePorts : (faDecodeKeys rule).havePorts = true
  redirect : ∃ dev, rule.actions.filterMap redirectTo = [some dev]
  read : ∀ act ∈ rule.actions, passedOver act = false
  bits : ∀ hdr k b, b < 8 →
    (lastSet (FlowAction.bitAt hdr k b) rule.actions).or (rule.keyBit hdr k b) =
      rule.sentBit hdr k b

theorem faDecodeKeys_haveIp : (faDecodeKeys rule).haveIp = rule.ipv4Addrs.isSome := by
  rw [faDecodeKeys]
  cases rule.ipProto <;> cases rule.ipv4Addrs <;> cases rule.ports <;> rfl

theorem faDecodeKeys_havePorts : (faDecodeKeys rule).havePorts = rule.ports.isSome := by
  rw [faDecodeKeys]
  cases rule.ipProto <;> cases rule.ipv4Addrs <;> cases rule.ports <;> rfl

/-- The loop as the driver runs it, and the actions as a whole. -/
theorem actsOnly_iff : rule.ActsOnly ↔ (∃ dev, rule.actions.filterMap redirectTo = [some dev]) ∧
    ∀ act ∈ rule.actions, passedOver act = false := by
  have hother : ∀ act, act = .csum ∨ (∃ m, act = .mangle m ∧ m.recognised = true) ↔
      redirectTo act = none ∧ passedOver act = false := by
    intro act
    cases act <;> simp [redirectTo, passedOver]
  have hredirect : ∀ act dev, redirectTo act = some (some dev) ↔ act = .redirect (some dev) := by
    intro act dev
    cases act <;> simp [redirectTo]
  simp only [ActsOnly, hother, List.filterMap_eq_cons_iff, List.filterMap_eq_nil_iff, hredirect]
  constructor
  · rintro ⟨pre, dev, suf, hactions, hrest⟩
    refine ⟨⟨dev, pre, _, suf, hactions, fun act hact => ?_, rfl, fun act hact => ?_⟩,
      fun act hact => ?_⟩
    · exact (hrest act (List.mem_append_left _ hact)).1
    · exact (hrest act (List.mem_append_right _ hact)).1
    · rw [hactions, List.mem_append, List.mem_cons] at hact
      rcases hact with hact | rfl | hact
      · exact (hrest act (List.mem_append_left _ hact)).2
      · rfl
      · exact (hrest act (List.mem_append_right _ hact)).2
  · rintro ⟨⟨dev, pre, _, suf, hactions, hpre, rfl, hsuf⟩, hread⟩
    refine ⟨pre, dev, suf, hactions, fun act hact => ?_⟩
    rcases List.mem_append.mp hact with hact | hact
    · exact ⟨hpre act hact, hread act (by simp [hactions, hact])⟩
    · exact ⟨hsuf act hact, hread act (by simp [hactions, hact])⟩

/-! ### What the driver puts into the rows -/

theorem faDecodeAction_natSrc (d : Decoded) (act : FlowAction) :
    (faDecodeAction d act).natSrc = (srcRewrite act).getD d.natSrc := by
  cases act with
  | mangle m =>
      have hports (d : Decoded) : (faDecodeManglePorts m d).natSrc = d.natSrc := by
        simp only [faDecodeManglePorts]
        split_ifs <;> rfl
      simp only [faDecodeAction, hports, faDecodeMangleIpv4, srcRewrite]
      by_cases htype : m.htype = .ip4
      · simp only [htype, ne_eq, not_true, if_false, true_and]
        split_ifs <;> rfl
      · simp only [htype, ne_eq, not_false_eq_true, if_true, false_and, if_false]
        rfl
  | redirect dev | csum | other id => rfl

theorem natIp_eq_rowAddr : (faDecodeRule rule).natIp = rule.rowAddr := by
  have hnat : (faDecodeRule rule).natSrc = (lastSet srcRewrite rule.actions).getD 0 := by
    rw [faDecodeRule, observe_foldl faDecodeAction_natSrc, faDecodeKeys]
    cases rule.ipProto <;> cases rule.ipv4Addrs <;> cases rule.ports <;> rfl
  rw [Decoded.natIp, hnat, faDecodeRule_srcIp]
  rfl

variable {rule}

/-- A packet of a rule with all keys has the connection of the keys. -/
theorem Hits.tuple_eq {p : Packet} (h : rule.Hits p) (haddrs : rule.ipv4Addrs.isSome = true)
    (hports : rule.ports.isSome = true) :
    p.tuple = rule.keyTuple := by
  obtain ⟨addrs, haddrs⟩ := Option.isSome_iff_exists.mp haddrs
  obtain ⟨ports, hports⟩ := Option.isSome_iff_exists.mp hports
  have hsaddr := h.1.saddr addrs.src (by simp [keySrc, haddrs])
  have hdaddr := h.1.daddr addrs.dst (by simp [keyDst, haddrs])
  have hsport := h.1.sport ports.src (by simp [keySport, hports])
  have hdport := h.1.dport ports.dst (by simp [keyDport, hports])
  calc
    p.tuple = ⟨p.tuple.saddr, p.tuple.daddr, p.tuple.sport, p.tuple.dport⟩ := rfl
    _ = ⟨addrs.src, addrs.dst, ports.src, ports.dst⟩ := by rw [hsaddr, hdaddr, hsport, hdport]
    _ = rule.keyTuple := by rw [keyTuple, keySrc, keyDst, keySport, keyDport, haddrs, hports]; rfl

/-- A packet of a rule with all keys, `fill` wherever the keys leave it open. -/
def sample (rule : FlowRule) (fill : Byte) : Packet :=
  Packet.withTuple
    { eth := fun k => if h : k < 6 then (rule.ethDst.getD fun _ => fill) ⟨k, h⟩ else fill
      ip := fun k => if k = IPHDR_PROTOCOL then 6 else fill
      l4 := fun _ => fill }
    rule.keyTuple

theorem sample_hits (hproto : rule.ipProto = some 6) (fill : Byte) :
    rule.Hits (rule.sample fill) := by
  have hkey {n : Nat} (key : Option (BitVec n)) : ∀ k ∈ key, key.getD 0 = k := by
    rintro k rfl
    rfl
  have htuple : (rule.sample fill).tuple = rule.keyTuple := Packet.tuple_withTuple _ _
  refine ⟨⟨fun proto hmem => ?_, ?_, ?_, ?_, ?_⟩, fun mac hmac k => ?_⟩
  · rw [hproto] at hmem
    exact Option.some.inj hmem
  · rw [htuple]
    exact hkey rule.keySrc
  · rw [htuple]
    exact hkey rule.keyDst
  · rw [htuple]
    exact hkey rule.keySport
  · rw [htuple]
    exact hkey rule.keyDport
  · have hmac : rule.ethDst = some mac := hmac
    simp [sample, Packet.withTuple, hmac]

/-- Where the keys do not decide a bit, the sample packets have their filling
there. -/
theorem sample_bit {hdr : Header} {k b : Nat} (hb : b < 8) (fill : Byte) :
    (rule.sample fill).bit hdr k b = (rule.keyBit hdr k b).getD (fill.getLsbD b) := by
  rw [sample, Packet.withTuple_bit _ _ _ _ _ hb]
  cases hdr with
  | eth =>
      by_cases hk : k < 6
      · cases hmac : rule.ethDst <;> simp [Tuple.bitAt, Packet.bit, Packet.header, keyBit, hk, hmac]
      · simp [Tuple.bitAt, Packet.bit, Packet.header, keyBit, hk]
  | ip =>
      by_cases hk : k = IPHDR_PROTOCOL
      · subst hk
        simp [Tuple.bitAt, Packet.bit, Packet.header, keyBit, IPHDR_PROTOCOL, IPHDR_SADDR,
          IPHDR_DADDR]
      · simp [Packet.bit, Packet.header, keyBit, hk]
  | l4 => rfl

/-- Every packet of the rule has the bits that the keys decide. -/
theorem Hits.bit {p : Packet} (h : rule.Hits p) (hproto : rule.ipProto = some 6)
    (htuple : p.tuple = rule.keyTuple) {hdr : Header} {k b : Nat} (hb : b < 8) :
    (rule.keyBit hdr k b).getD (p.bit hdr k b) = p.bit hdr k b := by
  have hsame : p.withTuple rule.keyTuple = p := by rw [← htuple, Packet.withTuple_tuple]
  have hbit := p.withTuple_bit rule.keyTuple hdr k b hb
  rw [hsame] at hbit
  cases hdr with
  | eth =>
      by_cases hk : k < 6
      · cases hmac : rule.ethDst with
        | none => simp [keyBit, hk, hmac]
        | some mac =>
            have heth := h.2 mac hmac ⟨k, hk⟩
            simp [keyBit, hk, hmac, Packet.bit, Packet.header, ← heth]
      · simp [keyBit, hk]
  | ip =>
      by_cases hk : k = IPHDR_PROTOCOL
      · subst hk
        simp [keyBit, Packet.bit, Packet.header, h.1.proto 6 hproto]
      · simp only [keyBit, hk, if_false]
        exact hbit.symm
  | l4 => exact hbit.symm

/-- The rows decide every bit that the keys do. -/
theorem sentBit_isSome {hdr : Header} {k b : Nat} {v : Bool} (h : rule.keyBit hdr k b = some v) :
    ∃ u, rule.sentBit hdr k b = some u := by
  refine Option.ne_none_iff_exists'.mp fun hsent => Option.some_ne_none v (h.symm.trans ?_)
  cases hdr with
  | eth =>
      have hk : ¬ k < 6 := fun hk => by simp [sentBit, hk] at hsent
      simp [keyBit, hk]
  | ip =>
      have hk : k ≠ IPHDR_PROTOCOL := fun hk => by simp [sentBit, hk] at hsent
      simp only [sentBit, keyBit, hk, if_false] at hsent ⊢
      exact Tuple.bitAt_none _ hsent
  | l4 =>
      have htuple : rule.sentTuple.bitAt .l4 k b = none := hsent
      exact Tuple.bitAt_none _ htuple

/-! ### Bits that the rows send -/

/-- The rows of an accepted rule, as far as they act on packets. -/
structure Sends (rule : FlowRule) (nf nh : Nat → Word) : Prop where
  proto : rule.ipProto = some 6
  addrs : rule.ipv4Addrs.isSome = true
  ports : rule.ports.isSome = true
  tuple : ∀ p, rule.Hits p → naptRewrite nf p.tuple = rule.sentTuple
  mac : ctfFaGetNhDa nh = rule.keyMac

variable {nf nh : Nat → Word} (hsends : rule.Sends nf nh)

include hsends

theorem Sends.bit {p : Packet} (h : rule.Hits p) (hdr : Header) (k b : Nat) (hb : b < 8) :
    (p.forwarded nf nh).bit hdr k b = (rule.sentBit hdr k b).getD (p.bit hdr k b) := by
  have hbit := p.withTuple_bit rule.sentTuple hdr k b hb
  cases hdr with
  | eth =>
      simp only [Packet.bit, Packet.header, Packet.forwarded, sentBit, hsends.mac]
      split <;> rfl
  | ip =>
      rw [← hsends.tuple p h] at hbit
      have hsent : (p.forwarded nf nh).bit .ip k b =
          (p.withTuple (naptRewrite nf p.tuple)).bit .ip k b := rfl
      rw [hsent, hbit, hsends.tuple p h, sentBit]
      split
      · rename_i hk
        subst hk
        rw [Packet.bit, Packet.header, h.1.proto 6 hsends.proto]
        rfl
      · rfl
  | l4 =>
      rw [← hsends.tuple p h] at hbit
      have hsent : (p.forwarded nf nh).bit .l4 k b =
          (p.withTuple (naptRewrite nf p.tuple)).bit .l4 k b := rfl
      rw [hsent, hbit, hsends.tuple p h]
      rfl

/-- The rows have the actions' effect exactly when each bit ends the same way. -/
theorem Sends.effect_iff :
    (∀ p, rule.Hits p → p.forwarded nf nh = rule.actions.foldl FlowAction.apply p) ↔
      ∀ hdr k b, b < 8 → (lastSet (FlowAction.bitAt hdr k b) rule.actions).or
        (rule.keyBit hdr k b) = rule.sentBit hdr k b := by
  constructor
  · intro h hdr k b hb
    -- the packets filled with zeros and with ones tell an open bit from a set one
    have hfill : ∀ fill : Byte,
        (rule.sentBit hdr k b).getD ((rule.keyBit hdr k b).getD (fill.getLsbD b)) =
          (lastSet (FlowAction.bitAt hdr k b) rule.actions).getD
            ((rule.keyBit hdr k b).getD (fill.getLsbD b)) := by
      intro fill
      have hhits := sample_hits hsends.proto fill
      rw [← sample_bit hb, ← hsends.bit hhits hdr k b hb, h _ hhits,
        FlowAction.foldl_apply_bit _ _ _ _ _ hb]
    have hzero := hfill 0
    have hones := hfill (BitVec.allOnes 8)
    rw [show (0 : Byte).getLsbD b = false from BitVec.getLsbD_zero] at hzero
    rw [BitVec.getLsbD_allOnes, decide_eq_true hb] at hones
    cases hkey : rule.keyBit hdr k b with
    | some u =>
        obtain ⟨v, hsent⟩ := sentBit_isSome hkey
        rw [hkey, hsent] at hzero
        have hv : v = (lastSet (FlowAction.bitAt hdr k b) rule.actions).getD u := hzero
        rw [hsent, hv]
        cases lastSet (FlowAction.bitAt hdr k b) rule.actions <;> rfl
    | none =>
        rw [hkey] at hzero hones
        rw [Option.or_none]
        cases hsent : rule.sentBit hdr k b <;>
          cases hset : lastSet (FlowAction.bitAt hdr k b) rule.actions <;>
          simp_all
  · intro h p hp
    refine Packet.ext_bits fun hdr k b hb => ?_
    have hkey : (rule.keyBit hdr k b).getD (p.bit hdr k b) = p.bit hdr k b :=
      hp.bit hsends.proto (hp.tuple_eq hsends.addrs hsends.ports) hb
    rw [hsends.bit hp hdr k b hb, FlowAction.foldl_apply_bit _ _ _ _ _ hb, ← h hdr k b hb]
    cases lastSet (FlowAction.bitAt hdr k b) rule.actions with
    | none => exact hkey
    | some v => rfl

theorem Sends.sound_iff : rule.Sound nf nh ↔ rule.RowsSuffice := by
  constructor
  · intro h
    obtain ⟨hredirect, hread⟩ := rule.actsOnly_iff.mp h.actions
    exact ⟨rule.faDecodeKeys_haveIp.trans h.addrs, rule.faDecodeKeys_havePorts.trans h.ports,
      hredirect, hread, hsends.effect_iff.mp h.effect⟩
  · intro h
    exact ⟨hsends.proto, hsends.addrs, hsends.ports,
      rule.actsOnly_iff.mpr ⟨h.redirect, h.read⟩, hsends.effect_iff.mpr h.bits⟩

end FlowRule

/-! ### Accepted rules -/

namespace Accel

theorem Admits.sends {w : Accel} {rule : FlowRule} {i : Slot} (h : w.Admits rule i)
    (cookie : Cookie) (haddrs : rule.ipv4Addrs.isSome = true)
    (hports : rule.ports.isSome = true) :
    rule.Sends ((w.callback ⟨.replace, cookie, rule⟩).2.dev.rows (nfRowAt i.idx))
      ((w.callback ⟨.replace, cookie, rule⟩).2.dev.rows (nhRowAt i.idx)) where
  proto := ipProto_of_accepted h.refused
  addrs := haddrs
  ports := hports
  mac := h.nhMac cookie
  tuple := by
    intro p hp
    rw [(h.intact cookie).sends, hp.tuple_eq haddrs hports, FlowRule.natIp_eq_rowAddr,
      FlowRule.sentTuple]
    have hsnat := faDecodeRule_isSnat rule
    by_cases hwan : rule.egress = some ⟨"wan"⟩
    · rw [if_pos (hsnat.mpr hwan), if_pos hwan]
    · rw [if_neg (mt hsnat.mp hwan), if_neg hwan]

/-- A REPLACE is refused with -EOPNOTSUPP or its rule is one the rows stand in
for, exactly when that holds of a rule the driver admits. -/
theorem acceptance_iff (w : Accel) (cookie : Cookie) (rule : FlowRule) :
    ((w.callback ⟨.replace, cookie, rule⟩).1 = -EOPNOTSUPP ∨
        ∃ i, w.flows.firstFree = some i ∧ (w.callback ⟨.replace, cookie, rule⟩).1 = 0 ∧
          rule.Sound ((w.callback ⟨.replace, cookie, rule⟩).2.dev.rows (nfRowAt i.idx))
            ((w.callback ⟨.replace, cookie, rule⟩).2.dev.rows (nhRowAt i.idx))) ↔
      ((∃ i, w.Admits rule i) → rule.RowsSuffice) := by
  have hzero := w.replace_zero_iff cookie rule
  constructor
  · rintro (hret | ⟨i, hfree, -, hsound⟩) ⟨k, hk⟩
    · rw [hzero.mpr ⟨k, hk⟩] at hret
      exact absurd hret (by decide)
    · obtain rfl := hk.unique hfree
      exact (hk.sends cookie hsound.addrs hsound.ports).sound_iff.mp hsound
  · intro h
    rcases w.replace_ret cookie rule with hret | hret
    · obtain ⟨i, hi⟩ := hzero.mp hret
      have hsuffice := h ⟨i, hi⟩
      refine .inr ⟨i, hi.free, hret, ?_⟩
      have haddrs := rule.faDecodeKeys_haveIp.symm.trans hsuffice.haveIp
      have hports := rule.faDecodeKeys_havePorts.symm.trans hsuffice.havePorts
      exact (hi.sends cookie haddrs hports).sound_iff.mpr hsuffice
    · exact .inl hret

/-- No ports, no REDIRECT, an address that only a MANGLE gives and an action the
driver does not know. -/
def looseRule : FlowRule where
  ipProto := some 6
  ipv4Addrs := none
  ports := none
  ethDst := some fun _ => 0
  actions := [.mangle ⟨.ip4, IPHDR_SADDR, 0, htonl 0xCB007105⟩, .other 5]

theorem acceptance_loose :
    ((loaded (.reset .wordByWord fun _ => .clean)).callback ⟨.replace, 7, looseRule⟩).1 = 0 ∧
      ∀ nf nh, ¬ looseRule.Sound nf nh :=
  ⟨by decide +kernel, fun _ _ h => Bool.false_ne_true h.ports⟩

/-- Source NAT towards the WAN port passes. -/
example : (FlowRule.toWan fun _ => 0).RowsSuffice := by
  refine ⟨rfl, rfl, ⟨⟨"wan"⟩, rfl⟩, by decide, fun hdr k b hb => ?_⟩
  have hsent : (FlowRule.toWan fun _ => 0).sentTuple =
      { (FlowRule.toWan fun _ => 0).keyTuple with saddr := htonl 0xCB007105 } := by decide +kernel
  have hmask : (0 : Word).getLsbD (8 * (k - IPHDR_SADDR) + b) = false := BitVec.getLsbD_zero
  cases hdr with
  | eth =>
      simp only [FlowRule.keyBit, FlowRule.sentBit]
      split <;> rfl
  | l4 =>
      simp only [FlowRule.keyBit, FlowRule.sentBit, hsent]
      rfl
  | ip =>
      have hset : lastSet (FlowAction.bitAt .ip k b) (FlowRule.toWan fun _ => 0).actions =
          if IPHDR_SADDR ≤ k ∧ k < IPHDR_SADDR + 4 then
            some ((htonl 0xCB007105).getLsbD (8 * (k - IPHDR_SADDR) + b))
          else none := by
        simp only [FlowRule.toWan, lastSet_cons, lastSet_nil, Option.none_or, FlowAction.bitAt,
          MangleHdr.header, if_true, Mangle.bitAt, hmask, Bool.not_false, Bool.or_true, and_true]
      simp only [hset, FlowRule.keyBit, FlowRule.sentBit, hsent, Tuple.bitAt]
      by_cases hsaddr : IPHDR_SADDR ≤ k ∧ k < IPHDR_SADDR + 4
      · have hproto : k ≠ IPHDR_PROTOCOL := by
          simp only [IPHDR_SADDR, IPHDR_PROTOCOL] at hsaddr ⊢
          omega
        have hdaddr : ¬ (IPHDR_DADDR ≤ k ∧ k < IPHDR_DADDR + 4) := by
          simp only [IPHDR_SADDR, IPHDR_DADDR] at hsaddr ⊢
          omega
        simp only [if_pos hsaddr, if_neg hproto, if_neg hdaddr, Option.some_or]
      · simp only [if_neg hsaddr, Option.none_or]

/-- With a rewrite of half of the address it does not: the driver does not look
at the mask. -/
example : ¬ FlowRule.RowsSuffice
    { FlowRule.toWan (fun _ => 0) with
      actions :=
        [ .mangle ⟨.ip4, IPHDR_SADDR, htonl 0xFFFF0000, htonl 0x00000005⟩,
          .redirect (some ⟨"wan"⟩) ] } := by
  intro h
  exact absurd (h.bits .ip IPHDR_SADDR 7 (by decide)) (by decide +kernel)

end Accel

end R8000Plus.Fa

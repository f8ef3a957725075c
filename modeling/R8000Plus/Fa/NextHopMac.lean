import R8000Plus.Fa.HeaderBits

/-!
The MAC that a next-hop row sends a flow's packets to, beside the MAC the rule's
Ethernet rewrites give them. The driver packs the match key's destination; that
an action sets some of its bits only counts as having a MAC.
-/

namespace R8000Plus.Fa

open Effects

/-- The destination MAC of an NH row, `CTF_FA_GET_NH_DA`. -/
def ctfFaGetNhDa (s : Nat → Word) : Mac :=
  ![((s 1 >>> 27) &&& 0x1F).setWidth 8 ||| ((s 2 &&& 0x7) <<< 5).setWidth 8,
    ((s 1 >>> 19) &&& 0xFF).setWidth 8,
    ((s 1 >>> 11) &&& 0xFF).setWidth 8,
    ((s 1 >>> 3) &&& 0xFF).setWidth 8,
    ((s 0 >>> 27) &&& 0x1F).setWidth 8 ||| ((s 1 &&& 0x7) <<< 5).setWidth 8,
    ((s 0 >>> 19) &&& 0xFF).setWidth 8]

namespace FlowRule

variable (rule : FlowRule)

/-- The packet has the destination MAC the rule matches on. -/
def MatchesEth (p : Packet) : Prop := ∀ mac ∈ rule.ethDst, ∀ k : Fin 6, p.eth k = mac k

/-- The match key's destination, all zero without the key. -/
def keyMac : Mac := rule.ethDst.getD fun _ => 0

/-- What the rule's MANGLEs leave in bit `b` of byte `k` of the Ethernet
header, where any of them sets it. -/
def ethBit (k b : Nat) : Option Bool := lastSet (FlowAction.bitAt .eth k b) rule.actions

/-- Every destination bit that the rule's MANGLEs set ends as it is in the match
key, and without a key they set all of them, to zero. -/
def KeyMacStands : Prop :=
  ∀ k : Fin 6, ∀ b : Fin 8,
    match rule.ethBit k b with
    | some v => v = (rule.keyMac k).getLsbD b
    | none => rule.ethDst.isSome = true

end FlowRule

/-! ### Packing -/

/-- The row gives back the MAC that was packed across its three words. -/
theorem ctfFaGetNhDa_row (s : Mac) (ft o vt : Word) :
    ctfFaGetNhDa (ofWords (faSetNhEntry s ft o vt)) = s := by
  funext k
  apply BitVec.eq_of_getLsbD_eq
  intro b hb
  -- the byte first, so that its bits are taken from one or two words only
  fin_cases k
  all_goals
    simp only [ctfFaGetNhDa, ofWords, faSetNhEntry, List.getD_cons_succ, List.getD_cons_zero,
      Fin.zero_eta, Fin.mk_one, Fin.reduceFinMk, Matrix.cons_val, BitVec.getLsbD_or,
      BitVec.getLsbD_and, BitVec.getLsbD_shiftLeft, BitVec.getLsbD_ushiftRight,
      BitVec.getLsbD_setWidth]
    interval_cases b <;> simp

theorem ctfFaGetNhDa_congr {row row' : Nat → Word}
    (h : ∀ j < NH_ROW_WORDS, row j = row' j) : ctfFaGetNhDa row = ctfFaGetNhDa row' := by
  simp only [ctfFaGetNhDa, h 0 (by decide), h 1 (by decide), h 2 (by decide)]

/-! ### What the driver decodes -/

theorem foldl_dstMac (actions : List FlowAction) (d : Decoded) :
    (actions.foldl faDecodeAction d).dstMac = d.dstMac :=
  foldl_unchanged (fun d act => (faDecodeAction_keys d act).2.2) d actions

/-- The loop over the actions leaves the MAC alone. -/
theorem faDecodeDstMac_fst (rule : FlowRule) (mac : Mac) :
    (faDecodeDstMac rule mac).1 = rule.ethDst.getD mac := by
  rw [faDecodeDstMac]
  refine (@foldl_unchanged _ _ _ _ Prod.fst (fun s act => ?_) _ _).trans ?_
  · cases act with
    | mangle m =>
        dsimp only
        split <;> rfl
    | redirect dev | csum | other id => rfl
  · cases rule.ethDst <;> rfl

theorem faDecodeRule_dstMac (rule : FlowRule) : (faDecodeRule rule).dstMac = rule.keyMac := by
  rw [faDecodeRule]
  simp only [foldl_dstMac, faDecodeDstMac_fst]
  rw [FlowRule.keyMac, faDecodeKeys]
  cases rule.ipProto <;> cases rule.ipv4Addrs <;> cases rule.ports <;> rfl

/-! ### When the two agree -/

namespace FlowRule

variable {rule : FlowRule}

/-- The frame leaves with the destination `mac` whatever packet of the rule it
was. -/
def Delivers (rule : FlowRule) (mac : Mac) : Prop :=
  ∀ p, rule.MatchesEth p → ∀ k : Fin 6, (rule.actions.foldl FlowAction.apply p).eth k = mac k

theorem delivers_bit_iff (mac : Mac) :
    rule.Delivers mac ↔ ∀ k : Fin 6, ∀ b : Fin 8, ∀ p, rule.MatchesEth p →
      (rule.ethBit k b).getD (p.bit .eth k b) = (mac k).getLsbD b := by
  constructor
  · intro h k b p hp
    rw [ethBit, ← FlowAction.foldl_apply_bit p .eth k b rule.actions b.isLt, ← h p hp k]
    rfl
  · intro h p hp k
    refine BitVec.eq_of_getLsbD_eq fun b hb => ?_
    rw [← h k ⟨b, hb⟩ p hp]
    exact FlowAction.foldl_apply_bit p .eth k b rule.actions hb

/-- A packet with the destination the rule matches on, or `fill` all over where
it matches on none. -/
def framed (rule : FlowRule) (fill : Byte) : Packet where
  eth := fun k => if h : k < 6 then (rule.ethDst.getD fun _ => fill) ⟨k, h⟩ else 0
  ip := fun _ => 0
  l4 := fun _ => 0

theorem framed_matchesEth (rule : FlowRule) (fill : Byte) :
    rule.MatchesEth (rule.framed fill) := by
  intro mac hmac k
  have hkey : rule.ethDst = some mac := hmac
  simp [framed, hkey]

/-- A frame goes where the NH row says exactly when the rewrites agree with the
match key. -/
theorem delivers_keyMac_iff : rule.Delivers rule.keyMac ↔ rule.KeyMacStands := by
  rw [delivers_bit_iff]
  refine forall₂_congr fun k b => ?_
  cases hset : rule.ethBit k b with
  | some v =>
      simp only [Option.getD_some]
      exact ⟨fun h => h (rule.framed 0) (rule.framed_matchesEth 0), fun h _ _ => h⟩
  | none =>
      simp only [Option.getD_none]
      constructor
      · intro h
        by_contra hkey
        rw [Option.not_isSome_iff_eq_none] at hkey
        have hones := h (rule.framed (BitVec.allOnes 8)) (rule.framed_matchesEth _)
        simp only [Packet.bit, Packet.header, framed, keyMac, hkey, k.isLt, dif_pos,
          Option.getD_none, BitVec.getLsbD_allOnes, b.isLt, decide_true] at hones
        exact Bool.false_ne_true ((BitVec.getLsbD_zero).symm.trans hones.symm)
      · intro hkey p hp
        obtain ⟨mac, hmac⟩ := Option.isSome_iff_exists.mp hkey
        rw [keyMac, hmac, Option.getD_some, ← hp mac hmac k]
        rfl

end FlowRule

namespace Accel

/-- The NH row of an accepted rule has the match key's destination. -/
theorem Admits.nhMac {w : Accel} {rule : FlowRule} {i : Slot} (h : w.Admits rule i)
    (cookie : Cookie) :
    ctfFaGetNhDa ((w.callback ⟨.replace, cookie, rule⟩).2.dev.rows (nhRowAt i.idx)) =
      rule.keyMac := by
  have hrow := (h.intact cookie).nh
  rw [(h.intact cookie).slot, Slots.taken_nhIdx, Slot.word_toNat] at hrow
  rw [ctfFaGetNhDa_congr hrow, Decoded.nhRow, ctfFaGetNhDa_row, faDecodeRule_dstMac]

/-- Every accepted rule has its frames sent to the station its rewrites name
exactly when no accepted rule has rewrites that disagree with its match key. -/
theorem nextHopMac_iff (w : Accel) (cookie : Cookie) (rule : FlowRule) :
    (∀ i, w.flows.firstFree = some i → (w.callback ⟨.replace, cookie, rule⟩).1 = 0 →
        rule.Delivers (ctfFaGetNhDa
          ((w.callback ⟨.replace, cookie, rule⟩).2.dev.rows (nhRowAt i.idx)))) ↔
      ((∃ i, w.Admits rule i) → rule.KeyMacStands) := by
  simp only [replace_zero_iff]
  constructor
  · rintro h ⟨i, hi⟩
    have hdelivers := h i hi.free ⟨i, hi⟩
    rwa [hi.nhMac cookie, FlowRule.delivers_keyMac_iff] at hdelivers
  · rintro h i hfree ⟨k, hk⟩
    obtain rfl := hk.unique hfree
    rw [hk.nhMac cookie, FlowRule.delivers_keyMac_iff]
    exact h ⟨i, hk⟩

/-- A routed flow: the match key has the router's own MAC, and the rule's MANGLEs
put in that of the next station. -/
def routedRule : FlowRule :=
  { FlowRule.toWan ![2, 0, 0, 0, 0, 1] with
    actions :=
      [ .mangle ⟨.eth, 0, 0, 0x00000002⟩, .mangle ⟨.eth, 4, 0xFFFF0000, 0x0200⟩,
        .mangle ⟨.ip4, IPHDR_SADDR, 0, htonl 0xCB007105⟩, .redirect (some ⟨"wan"⟩) ] }

/-- Its NH row keeps the router's own MAC. -/
theorem nextHopMac_routed :
    ((loaded (.reset .wordByWord fun _ => .clean)).callback ⟨.replace, 7, routedRule⟩).1 = 0 ∧
      ¬ routedRule.Delivers (ctfFaGetNhDa
        (((loaded (.reset .wordByWord fun _ => .clean)).callback
          ⟨.replace, 7, routedRule⟩).2.dev.rows (nhRowAt 1))) := by
  refine ⟨by decide +kernel, fun h => ?_⟩
  have hlast := h (routedRule.framed 0) (routedRule.framed_matchesEth 0) 5
  exact absurd hlast (by decide +kernel)

end Accel

end R8000Plus.Fa

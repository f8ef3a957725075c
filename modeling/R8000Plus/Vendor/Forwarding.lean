import R8000Plus.Fa.Codec
import R8000Plus.Vendor.FlowRuns

/-!
What the cache is for: packets of a carried connection leave the hardware
translated, with the MACs of the connection, and all others go to the CPU. The
lookup and the rewriting are the hardware's, on the rows the driver left.
-/

namespace R8000Plus.Vendor

open Effects Fa

/-! ### The hardware -/

def FlowId.headers (k : FlowId) : Tuple := ⟨k.sip, k.dip, k.sp, k.dp⟩

/-- A valid row with the packet's addresses, ports and TCP flag. -/
def hits (f : NfFields) (k : FlowId) : Bool :=
  f.valid && f.ipv4 && f.tupleSip == ntohl k.sip && f.tupleDip == ntohl k.dip &&
    f.tupleSp == ntohs k.sp && f.tupleDp == ntohs k.dp && f.tcp == (k.proto == 6)

/-- The first row of the packet's bucket that it hits. -/
def lookupRow (v : Tables) (k : FlowId) : Option Nat :=
  (k.rows initCrcccittTab).find? fun i => hits (nfFields (v ⟨0, i⟩)) k

structure Sent where
  dst : Mac
  src : Mac
  headers : Tuple
  deriving DecidableEq

/-- How a packet leaves, `none` for the CPU port. -/
def forward (v : Tables) (k : FlowId) : Option Sent :=
  (lookupRow v k).map fun i =>
    { dst := nhMacs v ((nfFields (v ⟨0, i⟩)).nhIdx.setWidth 8)
      src := (npRows v ((nfFields (v ⟨0, i⟩)).poolIdx.setWidth 8)).mac
      headers := naptRewrite (v ⟨0, i⟩) k.headers }

/-- The translation of a connection. -/
def Ipc.translate (ipc : Ipc) (t : Tuple) : Tuple :=
  if ipc.outbound then { t with saddr := ipc.natIp, sport := ipc.natPort }
  else
    { t with
      daddr := ipc.natIp
      dport := if ipc.has CTF_ACTION_DNAT then ipc.natPort else t.dport }

/-! ### Counters do not matter -/

theorem nfFields_congr {row row' : Nat → Word}
    (h : ∀ j < NF_ROW_WORDS, row j = row' j) : nfFields row = nfFields row' := by
  simp only [nfFields, h 1 (by decide), h 2 (by decide), h 3 (by decide), h 4 (by decide),
    h 5 (by decide), h 6 (by decide), h 7 (by decide)]

theorem not_seven_getLsbD {i : Nat} (hlow : 3 ≤ i) (hi : i < 32) :
    (~~~(7 : Word)).getLsbD i = true := by
  rw [BitVec.getLsbD_not]
  interval_cases i <;> simp

theorem nfFields_owned (row : Nat → Word) (idx : Nat) :
    nfFields (fun j => ownedWord ⟨0, idx⟩ j (row j)) = nfFields row := by
  have hone : ownedWord ⟨0, idx⟩ 1 (row 1) = row 1 &&& ~~~7 := rfl
  have hlow : ∀ start len, 3 ≤ start → start + len ≤ 32 →
      (row 1 &&& ~~~7).extractLsb' start len = (row 1).extractLsb' start len := by
    intro start len hstart hlen
    apply BitVec.eq_of_getLsbD_eq
    intro i hi
    have hbit : (~~~(7 : Word)).getLsbD (start + i) = true :=
      not_seven_getLsbD (by omega) (by omega)
    simp only [BitVec.getLsbD_extractLsb', BitVec.getLsbD_and, hbit, Bool.and_true]
  simp only [nfFields, hone, ownedWord_of_le (show 2 ≤ 2 by decide),
    ownedWord_of_le (show 2 ≤ 3 by decide), ownedWord_of_le (show 2 ≤ 4 by decide),
    ownedWord_of_le (show 2 ≤ 5 by decide), ownedWord_of_le (show 2 ≤ 6 by decide),
    ownedWord_of_le (show 2 ≤ 7 by decide)]
  rw [hlow 3 2 (by decide) (by decide), hlow 5 1 (by decide) (by decide),
    hlow 6 2 (by decide) (by decide), hlow 8 7 (by decide) (by decide),
    hlow 15 17 (by decide) (by decide)]

theorem naptRewrite_owned (row : Nat → Word) (idx : Nat) (t : Tuple) :
    naptRewrite (fun j => ownedWord ⟨0, idx⟩ j (row j)) t = naptRewrite row t := by
  refine naptRewrite_congr ?_ (ownedWord_of_le (by decide) _) (ownedWord_of_le (by decide) _) t
  have hone : ownedWord ⟨0, idx⟩ 1 (row 1) = row 1 &&& ~~~7 := rfl
  rw [hone, BitVec.and_assoc, BitVec.and_self]

theorem npRows_view (hw : Hw) : npRows hw.view = npRows hw.rows := by
  funext i
  exact npRow_congr fun j _ => ownedWord_of_table Nat.one_ne_zero j _

theorem forward_view (hw : Hw) (k : FlowId) : forward hw.view k = forward hw.rows k := by
  have hfields : ∀ i, nfFields (hw.view ⟨0, i⟩) = nfFields (hw.rows ⟨0, i⟩) :=
    fun i => nfFields_owned (hw.rows ⟨0, i⟩) i
  have hrewrite : ∀ i t, naptRewrite (hw.view ⟨0, i⟩) t = naptRewrite (hw.rows ⟨0, i⟩) t :=
    fun i t => naptRewrite_owned (hw.rows ⟨0, i⟩) i t
  simp only [forward, lookupRow, hfields, hrewrite, nhMacs_view, npRows_view]

/-! ### The row of a connection -/

theorem ntohl_injective : Function.Injective ntohl := Function.LeftInverse.injective ntohl_ntohl

theorem ntohs_injective : Function.Injective ntohs := Function.LeftInverse.injective ntohs_ntohs

theorem naptAction_lt (ipc : Ipc) : ipc.naptAction.toNat < 2 ^ 2 := by
  rw [Ipc.naptAction]
  split <;> decide

theorem naptAction_ip (ipc : Ipc) : ipc.naptAction.getLsbD 0 = true := by
  rw [Ipc.naptAction]
  split <;> decide

/-- The port is rewritten where it changes. -/
theorem naptAction_port (ipc : Ipc) :
    ipc.naptAction.getLsbD 1 = true ↔
      (ipc.has CTF_ACTION_SNAT ∧ ipc.tuple.sp ≠ ipc.natPort) ∨
        (ipc.has CTF_ACTION_DNAT ∧ ipc.tuple.dp ≠ ipc.natPort) := by
  rw [Ipc.naptAction]
  split
  · next hport => exact iff_of_true (by decide) hport
  · next hport => exact iff_of_false (by decide) hport

theorem poolIdxOf_lt (e : Bool) : ((poolIdxOf e).setWidth 32).toNat < 2 ^ 2 := by
  cases e <;> decide

theorem nhIdx_lt {nhIdx : Byte} (h : nhIdx.toNat < CTF_MAX_NEXTHOP_TABLE_INDEX) :
    (nhIdx.setWidth 32).toNat < 2 ^ 7 := by
  rw [BitVec.toNat_setWidth]
  exact Nat.lt_of_le_of_lt (Nat.mod_le _ _) h

/-- What `fa_napt_prep_ipv4_word` is called with. -/
def Ipc.nfArgs (ipc : Ipc) (nhIdx : Byte) (h : nhIdx.toNat < CTF_MAX_NEXTHOP_TABLE_INDEX) :
    NfArgs where
  action := ipc.naptAction
  tgtDma := 0
  poolIdx := (poolIdxOf ipc.outbound).setWidth 32
  nhIdx := nhIdx.setWidth 32
  natIp := ipc.natIp
  natPort := ipc.natPort
  tupleDip := ipc.tuple.dip.w0
  tupleSip := ipc.tuple.sip.w0
  tupleDp := ipc.tuple.dp
  tupleSp := ipc.tuple.sp
  proto := ipc.tuple.proto
  isSnat := ipc.outbound
  action_lt := naptAction_lt ipc
  tgtDma_lt := word_zero_lt_two
  poolIdx_lt := poolIdxOf_lt ipc.outbound
  nhIdx_lt := nhIdx_lt h

theorem ownedWord_row (a : NfArgs) (idx j : Nat) :
    ownedWord ⟨0, idx⟩ j (ofWords a.row j) = ofWords a.row j := by
  apply BitVec.eq_of_getLsbD_eq
  intro i hi
  match j with
  | 0 => rfl
  | 1 =>
      have hone : ownedWord ⟨0, idx⟩ 1 (ofWords a.row 1) = ofWords a.row 1 &&& ~~~7 := rfl
      rw [hone, BitVec.getLsbD_and]
      by_cases hlow : i < 3
      · rw [a.row_other_bits 1 i (by simpa [nfFieldBit] using hlow), Bool.false_and]
      · rw [not_seven_getLsbD (by omega) hi, Bool.and_true]
  | j + 2 => rw [ownedWord_of_le (Nat.le_add_left 2 j)]

namespace Programmed

variable {remap : Bool → Mac} {v : Tables} {napt : FaNapt} {ipc : Ipc}

theorem row_eq (h : Programmed remap v napt ipc) :
    ∀ j < NF_ROW_WORDS, v ⟨0, napt.nfi.naptIdx⟩ j = ofWords (ipc.nfArgs napt.nhIdx h.nhIdx).row j := by
  intro j hj
  have hrow : faNaptPrepIpv4Word napt ipc = (ipc.nfArgs napt.nhIdx h.nhIdx).row := by
    rw [faNaptPrepIpv4Word, h.action, h.tgtDma, h.poolIdx]
    rfl
  rw [h.row j hj, hrow, ownedWord_row]

theorem fields (h : Programmed remap v napt ipc) :
    nfFields (v ⟨0, napt.nfi.naptIdx⟩) = (ipc.nfArgs napt.nhIdx h.nhIdx).fields := by
  rw [nfFields_congr h.row_eq, NfArgs.nfFields_row]

/-- The row is hit by the packets of its connection, and of another one only
where the protocols are neither TCP nor the same. -/
theorem hits_iff (h : Programmed remap v napt ipc) (k : FlowId) :
    hits (nfFields (v ⟨0, napt.nfi.naptIdx⟩)) k = true ↔
      ipc.id.headers = k.headers ∧ (ipc.id.proto = 6 ↔ k.proto = 6) := by
  have hprotos : ((ipc.tuple.proto == 6) = (k.proto == 6)) ↔
      (ipc.tuple.proto = 6 ↔ k.proto = 6) := by
    rw [Bool.eq_iff_iff, beq_iff_eq, beq_iff_eq]
  rw [hits, h.fields]
  simp only [NfArgs.fields, Ipc.nfArgs, Bool.true_and, Bool.and_eq_true, beq_iff_eq, hprotos,
    FlowId.headers, ConnTuple.id, Tuple.mk.injEq, ntohl_injective.eq_iff,
    ntohs_injective.eq_iff, and_assoc]

/-- What the hardware makes of the headers. -/
theorem rewrite (h : Programmed remap v napt ipc) :
    naptRewrite (v ⟨0, napt.nfi.naptIdx⟩) ipc.id.headers = ipc.translate ipc.id.headers := by
  let a := ipc.nfArgs napt.nhIdx h.nhIdx
  have hrow := h.row_eq
  have hsame : naptRewrite (v ⟨0, napt.nfi.naptIdx⟩) ipc.id.headers =
      naptRewrite (ofWords a.row) ipc.id.headers :=
    naptRewrite_congr (congrArg (· &&& ~~~7) (hrow 1 (by decide))) (hrow 2 (by decide))
      (hrow 6 (by decide)) _
  have haction : nfAction (ofWords a.row) = ipc.naptAction :=
    nfAction_row _ _ _ _ _ _ _ _ _ _ _ _ a.action_lt a.tgtDma_lt
  have hip : nfNatIp (ofWords a.row) = ntohl ipc.natIp :=
    nfNatIp_row _ _ _ _ _ _ _ _ _ _ _ _ a.action_lt a.tgtDma_lt a.poolIdx_lt a.nhIdx_lt
  have hport : nfNatPort (ofWords a.row) = ntohs ipc.natPort :=
    congrArg NfFields.natPort a.nfFields_row
  have hdir : nfExternal (ofWords a.row) = !ipc.outbound := nfExternal_row ..
  rw [hsame, naptRewrite, haction, hip, hport, hdir, Ipc.translate]
  simp only [ntohl_ntohl, ntohs_ntohs, naptAction_ip, if_true, naptAction_port, Ipc.outbound]
  by_cases hsnat : ipc.has CTF_ACTION_SNAT = true
  · by_cases hsame : ipc.tuple.sp = ipc.natPort
    · simp [hsnat, FlowId.headers, ConnTuple.id, hsame]
    · simp [hsnat, hsame]
  · by_cases hdnat : ipc.has CTF_ACTION_DNAT = true
    · by_cases hsame : ipc.tuple.dp = ipc.natPort
      · simp [hsnat, hdnat, FlowId.headers, ConnTuple.id, hsame]
      · simp [hsnat, hdnat, hsame]
    · simp [hsnat, hdnat]

end Programmed

/-! ### Packets of a carried connection -/

/-- TCP or UDP. A row has only one bit for the protocol, so it takes packets of
any other for UDP. -/
def TcpOrUdp (k : FlowId) : Prop := k.proto = 6 ∨ k.proto = 17

instance (k : FlowId) : Decidable (TcpOrUdp k) := inferInstanceAs (Decidable (_ ∨ _))

theorem eq_of_headers {k k' : FlowId} (hk : TcpOrUdp k) (hk' : TcpOrUdp k')
    (hheaders : k.headers = k'.headers) (hproto : k.proto = 6 ↔ k'.proto = 6) : k = k' := by
  obtain ⟨sip, dip, proto, sp, dp⟩ := k
  obtain ⟨sip', dip', proto', sp', dp'⟩ := k'
  obtain ⟨rfl, rfl, rfl, rfl⟩ := Tuple.mk.injEq .. ▸ hheaders
  have hne : (17 : Byte) ≠ 6 := by decide
  have hsame : proto = proto' := by
    rcases hk with rfl | rfl <;> rcases hk' with rfl | rfl
    · rfl
    · exact absurd (hproto.mp rfl) hne
    · exact absurd (hproto.mpr rfl) hne
    · rfl
  rw [hsame]

namespace Filed

variable {remap : Bool → Mac} {conns : List Ipc} {s : Etc}

/-- A row that a packet hits is the row of its connection. -/
theorem hit (h : Filed remap conns s) (hprotos : ∀ c ∈ conns, TcpOrUdp c.id) {k : FlowId}
    (hk : TcpOrUdp k) {i : Nat} (hi : i < CTF_MAX_FLOW_TABLE)
    (hhit : hits (nfFields (s.hw.view ⟨0, i⟩)) k = true) :
    ∃ napt ∈ s.fai.flows, ∃ c ∈ conns, napt.nfi.naptIdx = i ∧ napt.id = k ∧ c.id = k ∧
      Programmed remap s.hw.view napt c := by
  have hmark : s.fai.ftable i = true := by
    by_contra hunused
    have hinvalid := h.unused i hi (Bool.eq_false_iff.mpr hunused)
    have hvalid : nfValid (s.hw.view ⟨0, i⟩) = true := by
      simp only [hits, Bool.and_eq_true] at hhit
      exact hhit.1.1.1.1.1.1
    rw [hinvalid] at hvalid
    exact Bool.false_ne_true hvalid
  obtain ⟨napt, hmem, rfl⟩ := h.marks i hmark
  obtain ⟨c, hc, hid⟩ := h.conn_of_flow hmem
  have hprog := h.rows napt hmem c hc hid.symm
  obtain ⟨hheaders, hproto⟩ := (hprog.hits_iff k).mp hhit
  have hck : c.id = k := eq_of_headers (hprotos c hc) hk hheaders hproto
  exact ⟨napt, hmem, c, hc, rfl, hid.symm.trans hck, hck, hprog⟩

theorem lookupRow_eq_some (h : Filed remap conns s) (hprotos : ∀ c ∈ conns, TcpOrUdp c.id)
    {k : FlowId} (hk : TcpOrUdp k) {i : Nat} (hrow : lookupRow s.hw.view k = some i) :
    ∃ napt ∈ s.fai.flows, ∃ c ∈ conns, napt.nfi.naptIdx = i ∧ napt.id = k ∧ c.id = k ∧
      Programmed remap s.hw.view napt c := by
  have hbucket := FlowId.mem_rows.mp (List.mem_of_find?_eq_some hrow)
  have hhit : hits (nfFields (s.hw.view ⟨0, i⟩)) k = true :=
    List.find?_some (p := fun i => hits (nfFields (s.hw.view ⟨0, i⟩)) k) hrow
  exact h.hit hprotos hk (row_lt hbucket) hhit

/-- The packets of a connection find its row. -/
theorem lookupRow_of_mem (h : Filed remap conns s) (hprotos : ∀ c ∈ conns, TcpOrUdp c.id)
    {c : Ipc} (hc : c ∈ conns) {napt : FaNapt} (hmem : napt ∈ s.fai.flows) (hid : napt.id = c.id) :
    lookupRow s.hw.view c.id = some napt.nfi.naptIdx := by
  have hprog := h.rows napt hmem c hc hid
  cases hrow : lookupRow s.hw.view c.id with
  | none =>
      have hin : napt.nfi.naptIdx ∈ _ :=
        FlowId.mem_rows.mpr ((h.cached.bucket napt hmem).trans (by rw [hid]))
      have hmiss := List.find?_eq_none.mp hrow _ hin
      exact absurd ((hprog.hits_iff c.id).mpr ⟨rfl, Iff.rfl⟩) hmiss
  | some i =>
      obtain ⟨other, hother, -, -, rfl, hsame, -⟩ :=
        h.lookupRow_eq_some hprotos (hprotos c hc) hrow
      rw [List.inj_on_of_nodup_map h.cached.ids hother hmem (hsame.trans hid.symm)]

/-- They are translated and leave with the connection's source MAC, to the MAC of
the next hop that its flow holds. -/
theorem forward_of_mem (h : Filed remap conns s) (hprotos : ∀ c ∈ conns, TcpOrUdp c.id) {c : Ipc}
    (hc : c ∈ conns) {napt : FaNapt} (hmem : napt ∈ s.fai.flows) (hid : napt.id = c.id) :
    forward s.hw.view c.id = some
      ⟨nhMacs s.hw.view napt.nhIdx, remap c.outbound, c.translate c.id.headers⟩ := by
  have hprog := h.rows napt hmem c hc hid
  have hnh : ((napt.nhIdx.setWidth 32).setWidth 7).setWidth 8 = napt.nhIdx := by
    have hlt : napt.nhIdx.toNat < 128 := hprog.nhIdx
    apply BitVec.eq_of_toNat_eq
    simp only [BitVec.toNat_setWidth]
    omega
  have hpool : (((poolIdxOf c.outbound).setWidth 32).setWidth 2).setWidth 8 =
      poolIdxOf c.outbound := by
    cases c.outbound <;> decide
  rw [forward, h.lookupRow_of_mem hprotos hc hmem hid, Option.map_some, hprog.fields,
    hprog.rewrite]
  simp only [NfArgs.fields, Ipc.nfArgs, hnh, hpool, hprog.pool]

end Filed

theorem FaInfo.holders_link (fai : FaInfo) {napt : FaNapt} (hv4 : napt.v6 = false) :
    (fai.link napt).holders.Perm ((napt.nhIdx, napt.dhost) :: fai.holders) := by
  have hperm := (fai.link_flows hv4).map fun napt => (napt.nhIdx, napt.dhost)
  exact hperm

/-- The next hop of a connection. -/
def Etc.nhIdxOf (s : Etc) (ipc : Ipc) : Option Byte :=
  (faNaptLkupLl s.fai false ipc.tuple).map FaNapt.nhIdx

theorem Filed.nhIdxOf_eq {remap : Bool → Mac} {conns : List Ipc} {s : Etc}
    (h : Filed remap conns s) {napt : FaNapt} (hmem : napt ∈ s.fai.flows) {ipc : Ipc}
    (hid : napt.id = ipc.id) : s.nhIdxOf ipc = some napt.nhIdx := by
  have hfound := h.cached.lookup_eq_some_iff.mpr ⟨hmem, hid⟩
  rw [Etc.nhIdxOf, hfound, Option.map_some]

/-- While the head of the free list is its own successor, two connections to new
MACs share it, and the packets of the first go to the station of the second. -/
theorem Filed.add_twice {remap : Bool → Mac} {conns : List Ipc} {s : Etc}
    (h : Filed remap conns s)
    (hbooked : Booked s.fai.nhi.ref (nhMacs s.hw.view) s.fai.holders)
    (hlt : s.fai.nhi.freeIdx.toNat < CTF_MAX_NEXTHOP_TABLE_INDEX)
    (hloop : s.fai.nhi.flist s.fai.nhi.freeIdx = s.fai.nhi.freeIdx)
    (hunheld : ∀ a ∈ s.fai.holders, a.1 ≠ s.fai.nhi.freeIdx) {ipc₁ ipc₂ : Ipc}
    (hplain₁ : Plain remap (.add ipc₁ false true)) (hfits₁ : Fits conns ipc₁ false true)
    (hnew₁ : ipc₁.dhost ∉ hops conns) (hplain₂ : Plain remap (.add ipc₂ false true))
    (hfits₂ : Fits (ipc₁ :: conns) ipc₂ false true) (hnew₂ : ipc₂.dhost ∉ hops (ipc₁ :: conns))
    (hprotos : ∀ c ∈ ipc₂ :: ipc₁ :: conns, TcpOrUdp c.id) :
    let after := (s.step (.add ipc₁ false true)).step (.add ipc₂ false true)
    after.nhIdxOf ipc₁ = some s.fai.nhi.freeIdx ∧ after.nhIdxOf ipc₂ = some s.fai.nhi.freeIdx ∧
      forward after.hw.rows ipc₁.id =
        some ⟨ipc₂.dhost, remap ipc₁.outbound, ipc₁.translate ipc₁.id.headers⟩ := by
  intro after
  have hnone : ∀ {conns : List Ipc} {mac : Mac}, mac ∉ hops conns → ∀ c ∈ conns, c.dhost ≠ mac :=
    fun hnew c hc heq => hnew (mem_hops.mpr ⟨c, hc, heq⟩)
  have hmacs := h.holders_ne (hnone hnew₁)
  obtain ⟨napt₁, hw₁, hrun₁, hv4₁, hid₁, hmac₁, hidx₁, hview₁, hfiled₁⟩ :=
    h.add_new hbooked hfits₁ hplain₁.1 (hnone hnew₁) hplain₁.2 hlt
  let nhi := s.fai.nhi.getNext.incRef s.fai.nhi.freeIdx
  -- the first addition leaves the same head
  have hhead : nhi.freeIdx = s.fai.nhi.freeIdx := hloop
  have hbooked₁ : Booked nhi.ref (nhMacs hw₁.view) ((s.fai.withNhi nhi).link napt₁).holders := by
    rw [hview₁]
    refine (hbooked.intern hlt hunheld hplain₁.1 hmacs).perm ?_
    have hperm := FaInfo.holders_link (s.fai.withNhi nhi) hv4₁
    rwa [hidx₁, hmac₁] at hperm
  obtain ⟨napt₂, hw₂, hrun₂, hv4₂, hid₂, -, hidx₂, hview₂, hfiled₂⟩ := hfiled₁.add_new hbooked₁
    hfits₂ hplain₂.1 (hnone hnew₂) hplain₂.2 (hhead ▸ hlt)
  have hmem₁ : napt₁ ∈ ((s.fai.withNhi nhi).link napt₁).flows :=
    ((s.fai.withNhi nhi).link_flows hv4₁).mem_iff.mpr List.mem_cons_self
  have hflows := FaInfo.link_flows
    (((s.fai.withNhi nhi).link napt₁).withNhi (nhi.getNext.incRef nhi.freeIdx)) hv4₂
  have hmem₁' := hflows.mem_iff.mpr (List.mem_cons_of_mem _ hmem₁)
  have hmem₂ := hflows.mem_iff.mpr List.mem_cons_self
  have hshared : nhMacs hw₂.view napt₁.nhIdx = ipc₂.dhost := by
    rw [hview₂, hidx₁]
    exact (congrFun (congrArg (Function.update _ · _) hhead) _).trans (Function.update_self ..)
  have hafter : after = ⟨_, hw₂⟩ :=
    (congrArg (Etc.step · (.add ipc₂ false true)) (Etc.step_of_run rfl hrun₁)).trans
      (Etc.step_of_run rfl hrun₂)
  rw [hafter]
  refine ⟨?_, ?_, ?_⟩
  · exact (hfiled₂.nhIdxOf_eq hmem₁' hid₁).trans (congrArg some hidx₁)
  · exact (hfiled₂.nhIdxOf_eq hmem₂ hid₂).trans (congrArg some (hidx₂.trans hhead))
  · rw [← forward_view, hfiled₂.forward_of_mem hprotos
      (List.mem_cons_of_mem _ List.mem_cons_self) hmem₁' hid₁]
    simp only [hshared]

/-- A deletion that frees a next hop while all are taken puts its index on the
free list so that it is its own successor. The next two connections to new
stations both get it, and the packets of the first go to the station of the
second. -/
theorem rough_del_misdelivers {hw : Hw} (h : hw.Fresh) {remap : Bool → Mac} {calls : List Call}
    (hplain : ∀ c ∈ calls, Plain remap c) (horderly : EveryStep specStep Orderly [] calls)
    {gone ipc₁ ipc₂ : Ipc} {conns : List Ipc}
    (hconns : specDel (calls.foldl specStep []) gone = conns)
    (hrough : ¬ Gentle (calls.foldl specStep []) gone)
    (hplain₁ : Plain remap (.add ipc₁ false true)) (hfits₁ : Fits conns ipc₁ false true)
    (hnew₁ : ipc₁.dhost ∉ hops conns) (hplain₂ : Plain remap (.add ipc₂ false true))
    (hfits₂ : Fits (ipc₁ :: conns) ipc₂ false true) (hnew₂ : ipc₂.dhost ∉ hops (ipc₁ :: conns))
    (hprotos : ∀ c ∈ ipc₂ :: ipc₁ :: conns, TcpOrUdp c.id) :
    let before := calls.foldl Etc.step (Etc.start hw)
    let freed := before.step (.del gone false)
    let after := (freed.step (.add ipc₁ false true)).step (.add ipc₂ false true)
    ∃ i : Byte, i.toNat < CTF_MAX_NEXTHOP_TABLE_INDEX ∧ before.nhIdxOf gone = some i ∧
      freed.fai.nhi.freeIdx = i ∧ freed.fai.nhi.flist i = i ∧
      after.nhIdxOf ipc₁ = some i ∧ after.nhIdxOf ipc₂ = some i ∧
      forward after.hw.rows ipc₁.id =
        some ⟨ipc₂.dhost, remap ipc₁.outbound, ipc₁.translate ipc₁.id.headers⟩ := by
  intro before freed after
  have hs := run_carries h hplain horderly
  obtain ⟨napt, hw₁, hfound, hlt, hfull, hdel, hlast, hfiled, hbooked⟩ := hs.del_rough hrough
  rw [hconns] at hfiled
  obtain ⟨hpeek, hnext⟩ := putNext_full_getNext (before.fai.nhi.decRef napt.nhIdx) napt.nhIdx hfull
  have hfreed : freed = ⟨_, hw₁⟩ := Etc.step_of_run rfl hdel
  have hhead : freed.fai.nhi.freeIdx = napt.nhIdx :=
    (congrArg (fun s => s.fai.nhi.freeIdx) hfreed).trans hpeek
  have hloop : freed.fai.nhi.flist freed.fai.nhi.freeIdx = freed.fai.nhi.freeIdx := by
    rw [hfreed]
    exact hnext.trans hpeek.symm
  obtain ⟨hfirst, hsecond, hsent⟩ := hfiled.add_twice hbooked hlt (hnext.trans hpeek.symm) hlast
    hplain₁ hfits₁ hnew₁ hplain₂ hfits₂ hnew₂ hprotos
  rw [← hfreed] at hfirst hsecond hsent
  rw [hhead] at hloop
  exact ⟨napt.nhIdx, hlt, congrArg (Option.map FaNapt.nhIdx) hfound, hhead, hloop,
    hfirst.trans (congrArg some hhead), hsecond.trans (congrArg some hhead), hsent⟩

/-- A connection to the station of its number. -/
def stationConn (k : Nat) : Ipc := Ipc.outOf 6 (BitVec.ofNat 16 (256 * k)) (BitVec.ofNat 8 (k + 1))

def stations (n : Nat) : List Ipc := (List.range n).map stationConn

theorem stationConn_dhost {k l : Nat} (hk : k < 255) (hl : l < 255)
    (h : (stationConn k).dhost = (stationConn l).dhost) : k = l := by
  have hnat : (k + 1) % 2 ^ 8 = (l + 1) % 2 ^ 8 := congrArg BitVec.toNat (congrFun h 0)
  omega

theorem stationConn_plain {k : Nat} (hk : k < 255) :
    Plain (fun _ _ => 0xFF) (.add (stationConn k) false true) := by
  refine ⟨fun hzero => ?_, rfl⟩
  have hnat : (k + 1) % 2 ^ 8 = 0 := congrArg BitVec.toNat (congrFun hzero 0)
  omega

theorem stations_buckets :
    ((stations 130).map fun c => c.id.bucket initCrcccittTab).Nodup := by
  decide +kernel

theorem stationConn_bucket {k l : Nat} (hk : k < 130) (hl : l < 130)
    (h : (stationConn k).id.bucket initCrcccittTab = (stationConn l).id.bucket initCrcccittTab) :
    k = l := by
  have hin : ∀ n < 130, stationConn n ∈ stations 130 := fun n hn =>
    List.mem_map.mpr ⟨n, List.mem_range.mpr hn, rfl⟩
  have heq := List.inj_on_of_nodup_map stations_buckets (hin k hk) (hin l hl) h
  exact stationConn_dhost (by omega) (by omega) (congrArg Ipc.dhost heq)

theorem mem_stations {n : Nat} {c : Ipc} : c ∈ stations n ↔ ∃ k < n, stationConn k = c := by
  simp [stations]

/-- A station that is none of these. -/
theorem stationConn_fits {conns : List Ipc} {l : Nat} (hl : l < 130)
    (hconns : ∀ c ∈ conns, ∃ k < l, stationConn k = c) :
    Fits conns (stationConn l) false true ∧ (stationConn l).dhost ∉ hops conns := by
  constructor
  · refine Fits.of_bucket_new rfl fun c hc heq => ?_
    obtain ⟨k, hk, rfl⟩ := hconns c hc
    exact absurd (stationConn_bucket (by omega) hl heq) (by omega)
  · rw [mem_hops]
    rintro ⟨c, hc, heq⟩
    obtain ⟨k, hk, rfl⟩ := hconns c hc
    exact absurd (stationConn_dhost (by omega) (by omega) heq) (by omega)

theorem stations_full :
    ((stations 128).map fun ipc => Call.add ipc false true).foldl specStep [] =
      (stations 128).reverse := by
  refine foldl_adds (fun c hc => ?_) (stations_buckets.sublist ?_) ?_
  · obtain ⟨k, -, rfl⟩ := mem_stations.mp hc
    rfl
  · exact (List.Sublist.map _ (List.range_sublist.mpr (by decide))).map _
  · simp [stations, CTF_MAX_NEXTHOP_TABLE_INDEX]

/-- A hundred and twenty-eight stations fill the pool; the first connection goes,
and two to new stations come. -/
theorem rough_del_misdelivers_stations :
    let before := ((stations 128).map fun ipc => Call.add ipc false true).foldl Etc.step
      (Etc.start Hw.idle)
    let freed := before.step (.del (stationConn 0) false)
    let after := (freed.step (.add (stationConn 128) false true)).step
      (.add (stationConn 129) false true)
    ∃ i : Byte, i.toNat < CTF_MAX_NEXTHOP_TABLE_INDEX ∧ before.nhIdxOf (stationConn 0) = some i ∧
      freed.fai.nhi.freeIdx = i ∧ freed.fai.nhi.flist i = i ∧
      after.nhIdxOf (stationConn 128) = some i ∧ after.nhIdxOf (stationConn 129) = some i ∧
      forward after.hw.rows (stationConn 128).id =
        some ⟨(stationConn 129).dhost, fun _ => 0xFF,
          (stationConn 128).translate (stationConn 128).id.headers⟩ := by
  have hrest : ∀ c ∈ specDel (stations 128).reverse (stationConn 0),
      ∃ k < 128, stationConn k = c := fun c hc =>
    mem_stations.mp (List.mem_reverse.mp (List.mem_filter.mp hc).1)
  have hnext : ∀ c ∈ stationConn 128 :: specDel (stations 128).reverse (stationConn 0),
      ∃ k < 129, stationConn k = c := by
    refine List.forall_mem_cons.mpr ⟨⟨128, by decide, rfl⟩, fun c hc => ?_⟩
    obtain ⟨k, hk, heq⟩ := hrest c hc
    exact ⟨k, by omega, heq⟩
  have hplain : ∀ c ∈ (stations 128).map fun ipc => Call.add ipc false true,
      Plain (fun _ _ => 0xFF) c := by
    intro c hc
    obtain ⟨ipc, hipc, rfl⟩ := List.mem_map.mp hc
    obtain ⟨k, hk, rfl⟩ := mem_stations.mp hipc
    exact stationConn_plain (by omega)
  have hmacs : ((stations 128).reverse.map Ipc.dhost).Nodup := by
    rw [List.map_reverse, List.nodup_reverse, stations, List.map_map]
    refine List.nodup_range.map_on fun k hk l hl heq => ?_
    have hk' := List.mem_range.mp hk
    have hl' := List.mem_range.mp hl
    exact stationConn_dhost (by omega) (by omega) heq
  obtain ⟨hfits₁, hnew₁⟩ := stationConn_fits (l := 128) (by decide) hrest
  obtain ⟨hfits₂, hnew₂⟩ := stationConn_fits (l := 129) (by decide) hnext
  refine rough_del_misdelivers Hw.idle_fresh hplain (everyStep_orderly_adds _ _)
    (congrArg (specDel · (stationConn 0)) stations_full) ?_ (stationConn_plain (by decide)) hfits₁
    hnew₁ (stationConn_plain (by decide)) hfits₂ hnew₂ ?_
  · rw [stations_full]
    refine not_gentle_of_nodup hmacs (by simp [stations, CTF_MAX_NEXTHOP_TABLE_INDEX]) ?_
    exact List.mem_reverse.mpr (mem_stations.mpr ⟨0, by decide, rfl⟩)
  · refine List.forall_mem_cons.mpr ⟨.inl rfl, fun c hc => ?_⟩
    obtain ⟨k, -, rfl⟩ := hnext c hc
    exact .inl rfl

end R8000Plus.Vendor

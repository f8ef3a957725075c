import R8000Plus.Fa.Codec
import R8000Plus.Vendor.PoolTable

/-!
What the flow cache is for: a bounded set of connections that the accelerator
carries. An addition is refused when the connection is known or its bucket has
four already, and put off when all next hops are taken by other MACs; a deletion
takes the connection out. `Carries` is what the driver's state and the tables
have to do with such a set.
-/

namespace R8000Plus.Vendor

open Effects Fa

/-! ### The abstract machine -/

namespace Ipc

abbrev id (ipc : Ipc) : FlowId := ipc.tuple.id

/-- `true` for LAN to WAN. -/
abbrev outbound (ipc : Ipc) : Bool := ipc.has CTF_ACTION_SNAT

def offloadable (ipc : Ipc) : Bool := ipc.txDevOn && ipc.rxDevOn && !ipc.pppIfp

end Ipc

/-- The connections of a bucket. -/
def inBucket (conns : List Ipc) (k : FlowId) : Nat :=
  conns.countP fun c => c.id.bucket initCrcccittTab = k.bucket initCrcccittTab

/-- The MACs that connections go to. -/
def hops (conns : List Ipc) : Finset Mac := (conns.map Ipc.dhost).toFinset

def Fits (conns : List Ipc) (ipc : Ipc) (v6 mem : Bool) : Prop :=
  ipc.offloadable = true ∧ v6 = false ∧ mem = true ∧ (∀ c ∈ conns, c.id ≠ ipc.id) ∧
    inBucket conns ipc.id < CTF_MAX_BUCKET_INDEX

instance (conns : List Ipc) (ipc : Ipc) (v6 mem : Bool) : Decidable (Fits conns ipc v6 mem) :=
  inferInstanceAs (Decidable (_ ∧ _ ∧ _ ∧ _ ∧ _))

/-- A bucket without connections has room. -/
theorem Fits.of_bucket_new {conns : List Ipc} {ipc : Ipc} (hoff : ipc.offloadable = true)
    (hnew : ∀ c ∈ conns, c.id.bucket initCrcccittTab ≠ ipc.id.bucket initCrcccittTab) :
    Fits conns ipc false true := by
  refine ⟨hoff, rfl, rfl, fun c hc heq => hnew c hc (by rw [heq]), ?_⟩
  have hzero : inBucket conns ipc.id = 0 := by
    simpa [inBucket, List.countP_eq_zero] using hnew
  rw [hzero]
  decide

def specAdd (conns : List Ipc) (ipc : Ipc) (v6 mem : Bool) : Bcme × List Ipc :=
  if Fits conns ipc v6 mem then
    if (hops conns).card < CTF_MAX_NEXTHOP_TABLE_INDEX then (.ok, ipc :: conns)
    else (.busy, conns)
  else (.error, conns)

def specDel (conns : List Ipc) (ipc : Ipc) : List Ipc := conns.filter fun c => c.id ≠ ipc.id

def specStep (conns : List Ipc) : Call → List Ipc
  | .add ipc v6 mem => (specAdd conns ipc v6 mem).2
  | .del ipc _ => specDel conns ipc
  | _ => conns

/-! ### Its connection with the driver -/

/-- The rows of a flow hold the connection. -/
structure Programmed (remap : Bool → Mac) (v : Tables) (napt : FaNapt) (ipc : Ipc) : Prop where
  dhost : napt.dhost = ipc.dhost
  action : napt.nfi.action = ipc.naptAction
  tgtDma : napt.nfi.tgtDma = 0
  nhIdx : napt.nhIdx.toNat < CTF_MAX_NEXTHOP_TABLE_INDEX
  row : ∀ j < NF_ROW_WORDS, v ⟨0, napt.nfi.naptIdx⟩ j =
    ownedWord ⟨0, napt.nfi.naptIdx⟩ j (ofWords (faNaptPrepIpv4Word napt ipc) j)
  poolIdx : napt.poolIdx = poolIdxOf ipc.outbound
  pool : npRows v (poolIdxOf ipc.outbound) = ⟨remap ipc.outbound, poolDir ipc.outbound⟩

/-- Every flow is a connection and has its rows, the next hops aside. -/
structure Filed (remap : Bool → Mac) (conns : List Ipc) (s : Etc) : Prop where
  prompt : s.hw.Prompt
  cached : s.fai.Cached
  marks : ∀ i, s.fai.ftable i = true → ∃ napt ∈ s.fai.flows, napt.nfi.naptIdx = i
  flows : (s.fai.flows.map fun napt => (napt.id, napt.dhost)).Perm
    (conns.map fun c => (c.id, c.dhost))
  pools : Pools remap (npRows s.hw.view)
  rows : ∀ napt ∈ s.fai.flows, ∀ ipc ∈ conns, napt.id = ipc.id →
    Programmed remap s.hw.view napt ipc
  unused : ∀ i < CTF_MAX_FLOW_TABLE, s.fai.ftable i = false →
    nfValid (s.hw.view ⟨0, i⟩) = false

structure Carries (remap : Bool → Mac) (conns : List Ipc) (s : Etc) : Prop where
  filed : Filed remap conns s
  hops : Interned s.fai.nhi (nhMacs s.hw.view) s.fai.holders

theorem Programmed.congr {remap : Bool → Mac} {v v' : Tables} {napt : FaNapt} {ipc : Ipc}
    (h : Programmed remap v napt ipc) (hrow : v' ⟨0, napt.nfi.naptIdx⟩ = v ⟨0, napt.nfi.naptIdx⟩)
    (hpool : npRows v' (poolIdxOf ipc.outbound) = ⟨remap ipc.outbound, poolDir ipc.outbound⟩) :
    Programmed remap v' napt ipc :=
  ⟨h.dhost, h.action, h.tgtDma, h.nhIdx, fun j hj => by rw [hrow]; exact h.row j hj, h.poolIdx,
    hpool⟩

namespace Filed

variable {remap : Bool → Mac} {conns : List Ipc} {s : Etc}

theorem ids (h : Filed remap conns s) : (s.fai.flows.map FaNapt.id).Perm (conns.map Ipc.id) := by
  have hperm := h.flows.map Prod.fst
  rwa [List.map_map, List.map_map] at hperm

theorem dhosts (h : Filed remap conns s) :
    (s.fai.flows.map FaNapt.dhost).Perm (conns.map Ipc.dhost) := by
  have hperm := h.flows.map Prod.snd
  rwa [List.map_map, List.map_map] at hperm

theorem distinct (h : Filed remap conns s) : (conns.map Ipc.id).Nodup :=
  h.ids.nodup_iff.mp h.cached.ids

theorem holder_macs (s : Etc) : s.fai.holders.map Prod.snd = s.fai.flows.map FaNapt.dhost := by
  rw [FaInfo.holders, List.map_map]
  rfl

/-- A MAC that no connection goes to is held by no flow. -/
theorem holders_ne (h : Filed remap conns s) {mac : Mac} (hnew : ∀ c ∈ conns, c.dhost ≠ mac) :
    ∀ a ∈ s.fai.holders, a.2 ≠ mac := by
  intro a ha heq
  have hin : a.2 ∈ s.fai.holders.map Prod.snd := List.mem_map.mpr ⟨a, ha, rfl⟩
  rw [holder_macs, h.dhosts.mem_iff] at hin
  obtain ⟨c, hc, hdhost⟩ := List.mem_map.mp hin
  exact hnew c hc (hdhost.trans heq)

/-- A flow and its connection. -/
theorem conn_of_flow (h : Filed remap conns s) {napt : FaNapt} (hmem : napt ∈ s.fai.flows) :
    ∃ c ∈ conns, c.id = napt.id :=
  List.mem_map.mp (h.ids.mem_iff.mp (List.mem_map.mpr ⟨napt, hmem, rfl⟩))

theorem flow_of_conn (h : Filed remap conns s) {c : Ipc} (hc : c ∈ conns) :
    ∃ napt ∈ s.fai.flows, napt.id = c.id :=
  List.mem_map.mp (h.ids.mem_iff.mpr (List.mem_map.mpr ⟨c, hc, rfl⟩))

theorem id_ne (h : Filed remap conns s) {ipc : Ipc} (hnew : ∀ c ∈ conns, c.id ≠ ipc.id) :
    ∀ napt ∈ s.fai.flows, napt.id ≠ ipc.id := by
  intro napt hmem heq
  obtain ⟨c, hc, hid⟩ := h.conn_of_flow hmem
  exact hnew c hc (hid.trans heq)

/-- A lookup finds exactly the connections carried. -/
theorem lookup_isSome_iff (h : Filed remap conns s) (t : ConnTuple) :
    (faNaptLkupLl s.fai false t).isSome = true ↔ ∃ c ∈ conns, c.id = t.id := by
  rw [Option.isSome_iff_exists]
  constructor
  · rintro ⟨napt, hfound⟩
    obtain ⟨hmem, heq⟩ := h.cached.lookup_eq_some_iff.mp hfound
    obtain ⟨c, hc, hid⟩ := h.conn_of_flow hmem
    exact ⟨c, hc, hid.trans heq⟩
  · rintro ⟨c, hc, hid⟩
    obtain ⟨napt, hmem, heq⟩ := h.flow_of_conn hc
    exact ⟨napt, h.cached.lookup_eq_some_iff.mpr ⟨hmem, heq.trans hid⟩⟩

/-- The four rows of a bucket are used up exactly when four connections of the
bucket are carried. -/
theorem freeBucket_eq_none_iff (h : Filed remap conns s) (t : ConnTuple) :
    freeBucket s.fai t = none ↔ CTF_MAX_BUCKET_INDEX ≤ inBucket conns t.id := by
  let rows := t.id.rows initCrcccittTab
  let mine := s.fai.flows.filter fun napt =>
    napt.id.bucket initCrcccittTab = t.id.bucket initCrcccittTab
  have hcount : inBucket conns t.id = (mine.map (·.nfi.naptIdx)).length := by
    have hperm := (h.ids.map (FlowId.bucket initCrcccittTab)).countP_eq fun b =>
      decide (b = t.id.bucket initCrcccittTab)
    rw [List.countP_map, List.countP_map, List.countP_map, List.countP_map] at hperm
    rw [List.length_map, ← List.countP_eq_length_filter]
    exact hperm.symm
  have hnodup : (mine.map (·.nfi.naptIdx)).Nodup :=
    h.cached.slots.sublist (List.filter_sublist.map _)
  have hrows : rows.Nodup := List.nodup_range.map fun _ _ => Nat.add_left_cancel
  have hlen : rows.length = CTF_MAX_BUCKET_INDEX := by simp [rows, FlowId.rows]
  have hsub : mine.map (·.nfi.naptIdx) ⊆ rows := by
    intro i hi
    obtain ⟨napt, hin, rfl⟩ := List.mem_map.mp hi
    obtain ⟨hflow, hbucket⟩ := List.mem_filter.mp hin
    rw [FlowId.mem_rows, h.cached.bucket napt hflow]
    simpa using hbucket
  have hnone : freeBucket s.fai t = none ↔ ∀ i ∈ rows, s.fai.ftable i = true := by
    rw [freeBucket_eq, List.find?_eq_none, h.cached.tab]
    simp only [Bool.not_eq_true', Bool.not_eq_false]
    rfl
  rw [hnone, hcount]
  constructor
  · intro hall
    have hback : rows ⊆ mine.map (·.nfi.naptIdx) := by
      intro i hi
      obtain ⟨napt, hflow, rfl⟩ := h.marks i (hall i hi)
      refine List.mem_map.mpr ⟨napt, List.mem_filter.mpr ⟨hflow, ?_⟩, rfl⟩
      rw [← h.cached.bucket napt hflow]
      simpa using FlowId.mem_rows.mp hi
    rw [← hlen]
    exact (hrows.subperm hback).length_le
  · intro hle i hi
    have hperm := (hnodup.subperm hsub).perm_of_length_le (by rwa [hlen])
    obtain ⟨napt, hin, rfl⟩ := List.mem_map.mp (hperm.mem_iff.mpr hi)
    exact h.cached.marked napt (List.mem_filter.mp hin).1

end Filed

/-- The free list has run out exactly when the connections go to as many MACs as
there are next hops. -/
theorem Carries.freeIdx_full_iff {remap : Bool → Mac} {conns : List Ipc} {s : Etc}
    (h : Carries remap conns s) :
    s.fai.nhi.freeIdx = NHOP_FULL ↔ CTF_MAX_NEXTHOP_TABLE_INDEX ≤ (Vendor.hops conns).card := by
  rw [h.hops.full_iff_card, Filed.holder_macs, List.toFinset_eq_of_perm _ _ h.filed.dhosts]
  rfl

/-! ### Adding -/

section Program

variable {remap : Bool → Mac} {fai : FaInfo} {hw : Hw} {ipc : Ipc} {naptIdx : Nat}

/-- What the rest of an addition does, once its next hop is there. -/
theorem faNaptProgram_run (hpools : Pools remap (npRows hw.view))
    (hshost : ipc.shost = remap ipc.outbound) (hidx : naptIdx < CTF_MAX_FLOW_TABLE)
    {nhi : NextHop} {nhIdx : Byte} {hw₁ : Hw}
    (hhop : (faAddNhopEntry fai (freshNapt naptIdx ipc) ipc.nhop).run Hw.perform hw =
      ((.ok, fai.withNhi nhi, { freshNapt naptIdx ipc with nhIdx := nhIdx }), hw₁))
    (hnhIdx : nhIdx.toNat < CTF_MAX_NEXTHOP_TABLE_INDEX)
    (hp₁ : hw₁.Prompt) (honly₁ : OnlyHops hw.view hw₁.view) :
    ∃ napt hw', (faNaptProgram fai ipc naptIdx).run Hw.perform hw =
        ((.ok, (fai.withNhi nhi).link napt), hw') ∧
      hw'.Prompt ∧ napt.v6 = false ∧ napt.tuple = ipc.tuple ∧ napt.nfi.naptIdx = naptIdx ∧
      napt.nhIdx = nhIdx ∧ Programmed remap hw'.view napt ipc ∧
      nhMacs hw'.view = nhMacs hw₁.view ∧
      npRows hw'.view = Function.update (npRows hw.view) (poolIdxOf ipc.outbound)
        ⟨remap ipc.outbound, poolDir ipc.outbound⟩ ∧
      ∀ i, i ≠ naptIdx → hw'.view ⟨0, i⟩ = hw.view ⟨0, i⟩ := by
  have hnp₁ : npRows hw₁.view = npRows hw.view := npRows_congr fun addr htable =>
    honly₁ addr (by rw [htable]; decide)
  have hpool : ipc.pool = ⟨poolDir ipc.outbound, remap ipc.outbound⟩ := by
    rw [← hshost]
    rfl
  obtain ⟨ret, hw₂, hrun₂, hret, hp₂, honly₂, hnp₂⟩ := faAddPoolEntry_run hp₁ ipc.outbound
    (hnp₁ ▸ hpools) { freshNapt naptIdx ipc with nhIdx := nhIdx }
  let napt : FaNapt :=
    { freshNapt naptIdx ipc with
      nhIdx := nhIdx
      poolIdx := poolIdxOf ipc.outbound
      nfi := { naptIdx := naptIdx, hits := 0, action := ipc.naptAction, tgtDma := 0 } }
  obtain ⟨hw₃, hrun₃, hp₃, hview₃⟩ := faWriteNaptEntry_run hp₂ (faNaptPrepIpv4Word napt ipc) hidx
  have hother : ∀ addr, addr ≠ ⟨0, naptIdx⟩ → hw₃.view addr = hw₂.view addr := fun addr hne => by
    rw [hview₃, Hw.viewWith_of_ne _ _ hne]
  have hnp₃ : npRows hw₃.view = npRows hw₂.view := npRows_congr fun addr htable =>
    hother addr (by rintro rfl; simp at htable)
  have hnh₃ : nhMacs hw₃.view = nhMacs hw₁.view := nhMacs_congr fun addr htable => by
    rw [hother addr (by rintro rfl; simp at htable), honly₂ addr (by rw [htable]; decide)]
  refine ⟨napt, hw₃, ?_, hp₃, rfl, rfl, rfl, rfl, ⟨rfl, rfl, rfl, hnhIdx, ?_, rfl, ?_⟩, hnh₃,
    ?_, ?_⟩
  · rw [faNaptProgram, Prog.run_bind_of_eq _ hhop]
    dsimp only
    rw [if_neg (by simp), hpool, Prog.run_bind_of_eq _ hrun₂]
    dsimp only
    rw [if_neg hret]
    exact Prog.run_bind_of_eq _ hrun₃
  · intro j hj
    rw [hview₃]
    exact Hw.viewWith_self _ _ _ hj
  · rw [hnp₃, hnp₂, Function.update_self]
  · rw [hnp₃, hnp₂, hnp₁]
  · intro i hi
    rw [hother _ (by simpa using hi), honly₂ _ Nat.zero_ne_one,
      honly₁ _ (Nat.succ_ne_zero 1).symm]

end Program

namespace Filed

variable {remap : Bool → Mac} {conns : List Ipc} {s : Etc}

/-- Linking the programmed connection in. -/
theorem link (h : Filed remap conns s) {ipc : Ipc} (hnew : ∀ c ∈ conns, c.id ≠ ipc.id)
    (nhi : NextHop) {napt : FaNapt} {hw' : Hw} (hp : hw'.Prompt) (hv4 : napt.v6 = false)
    (htuple : napt.tuple = ipc.tuple) (hfree : s.fai.ftable napt.nfi.naptIdx = false)
    (hbucket : napt.nfi.naptIdx / CTF_MAX_BUCKET_INDEX = ipc.id.bucket initCrcccittTab)
    (hprog : Programmed remap hw'.view napt ipc)
    (hpools : npRows hw'.view = Function.update (npRows s.hw.view) (poolIdxOf ipc.outbound)
      ⟨remap ipc.outbound, poolDir ipc.outbound⟩)
    (hrows : ∀ i, i ≠ napt.nfi.naptIdx → hw'.view ⟨0, i⟩ = s.hw.view ⟨0, i⟩) :
    Filed remap (ipc :: conns) ⟨(s.fai.withNhi nhi).link napt, hw'⟩ := by
  have hid : napt.id = ipc.id := by rw [FaNapt.id, htuple]
  have hperm := (s.fai.withNhi nhi).link_flows hv4
  have hmem : ∀ other, other ∈ ((s.fai.withNhi nhi).link napt).flows ↔
      other = napt ∨ other ∈ s.fai.flows := fun other => by
    rw [hperm.mem_iff, List.mem_cons, FaInfo.withNhi_flows]
  have hids := h.id_ne hnew
  have hcached : ((s.fai.withNhi nhi).link napt).Cached :=
    (h.cached.withNhi nhi).link hv4 hfree (fun other ho => hid ▸ hids other ho) (hid ▸ hbucket)
  refine ⟨hp, hcached, ?_, ?_, ?_, ?_, ?_⟩
  · intro i hi
    by_cases heq : i = napt.nfi.naptIdx
    · exact ⟨napt, (hmem napt).mpr (.inl rfl), heq.symm⟩
    · simp only [FaInfo.link, Function.update_of_ne heq] at hi
      obtain ⟨other, hold, hidx⟩ := h.marks i hi
      exact ⟨other, (hmem other).mpr (.inr hold), hidx⟩
  · have hflows := hperm.map fun napt => (napt.id, napt.dhost)
    rw [List.map_cons, hid, hprog.dhost] at hflows
    exact hflows.trans (h.flows.cons (ipc.id, ipc.dhost))
  · rw [hpools]
    exact h.pools.update ipc.outbound
  · intro other hother c hc heq
    rcases (hmem other).mp hother with rfl | hold
    · rcases List.mem_cons.mp hc with rfl | hc
      · exact hprog
      · exact absurd (heq.symm.trans hid) (hnew c hc)
    · rcases List.mem_cons.mp hc with rfl | hc
      · exact absurd heq (hids other hold)
      · have hslot : other.nfi.naptIdx ≠ napt.nfi.naptIdx := by
          intro hidx
          have hmark := h.cached.marked other hold
          rw [hidx, hfree] at hmark
          exact absurd hmark (by decide)
        have hold' := h.rows other hold c hc heq
        refine hold'.congr (hrows _ hslot) ?_
        rw [hpools]
        exact update_poolRow hold'.pool
  · intro i hi hunused
    by_cases heq : i = napt.nfi.naptIdx
    · subst heq
      simp [FaInfo.link] at hunused
    · simp only [FaInfo.link, Function.update_of_ne heq] at hunused
      rw [hrows i heq]
      exact h.unused i hi hunused

theorem faNaptAdd_refused (h : Filed remap conns s) {ipc : Ipc} {v6 mem : Bool}
    (hfits : ¬ Fits conns ipc v6 mem) : faNaptAdd s.fai ipc v6 mem = .ret (.error, s.fai) := by
  by_contra hne
  refine hfits ?_
  rw [faNaptAdd] at hne
  split at hne
  · exact absurd rfl hne
  next hdev =>
  split at hne
  · exact absurd rfl hne
  next hv6 =>
  split at hne
  · exact absurd rfl hne
  next hppp =>
  obtain rfl : v6 = false := Bool.eq_false_iff.mpr hv6
  split at hne
  · exact absurd rfl hne
  next naptIdx hfree =>
  split at hne
  · exact absurd rfl hne
  split at hne
  · exact absurd rfl hne
  next hnone =>
  split at hne
  · exact absurd rfl hne
  next hmem =>
  refine ⟨?_, rfl, by simpa using hmem, fun c hc heq => ?_, ?_⟩
  · simp only [Bool.or_eq_true, Bool.not_eq_true', not_or, Bool.not_eq_false] at hdev
    simp [Ipc.offloadable, hdev.1, hdev.2, Bool.eq_false_iff.mpr hppp]
  · exact hnone ((h.lookup_isSome_iff ipc.tuple).mpr ⟨c, hc, heq⟩)
  · by_contra hle
    rw [(h.freeBucket_eq_none_iff ipc.tuple).mpr (Nat.le_of_not_lt hle)] at hfree
    exact absurd hfree (by simp)

theorem faNaptAdd_fits (h : Filed remap conns s) {ipc : Ipc} {v6 mem : Bool}
    (hfits : Fits conns ipc v6 mem) :
    ∃ naptIdx < CTF_MAX_FLOW_TABLE, s.fai.ftable naptIdx = false ∧
      naptIdx / CTF_MAX_BUCKET_INDEX = ipc.id.bucket initCrcccittTab ∧
      faNaptAdd s.fai ipc v6 mem = faNaptProgram s.fai ipc naptIdx := by
  obtain ⟨hoff, rfl, rfl, hnew, hroom⟩ := hfits
  simp only [Ipc.offloadable, Bool.and_eq_true, Bool.not_eq_true'] at hoff
  obtain ⟨⟨htx, hrx⟩, hppp⟩ := hoff
  cases hfree : freeBucket s.fai ipc.tuple with
  | none =>
      exact absurd ((h.freeBucket_eq_none_iff ipc.tuple).mp hfree) (Nat.not_le.mpr hroom)
  | some naptIdx =>
      obtain ⟨hunused, hbucket⟩ := FaInfo.freeBucket_spec hfree
      rw [h.cached.tab] at hbucket
      have hlookup : (faNaptLkupLl s.fai false ipc.tuple).isSome = false := by
        rw [Bool.eq_false_iff]
        intro hfound
        obtain ⟨c, hc, heq⟩ := (h.lookup_isSome_iff ipc.tuple).mp hfound
        exact hnew c hc heq
      refine ⟨naptIdx, row_lt hbucket, hunused, hbucket, ?_⟩
      rw [faNaptAdd, hfree]
      simp [htx, hrx, hppp, hlookup, hunused]

/-- The addition of a connection to a MAC nobody goes to yet, at the index the
free list gives. -/
theorem add_new (h : Filed remap conns s)
    (hbooked : Booked s.fai.nhi.ref (nhMacs s.hw.view) s.fai.holders) {ipc : Ipc} {v6 mem : Bool}
    (hfits : Fits conns ipc v6 mem) (hmac : ipc.dhost ≠ 0) (hnew : ∀ c ∈ conns, c.dhost ≠ ipc.dhost)
    (hshost : ipc.shost = remap ipc.outbound)
    (hlt : s.fai.nhi.freeIdx.toNat < CTF_MAX_NEXTHOP_TABLE_INDEX) :
    ∃ napt hw', (faNaptAdd s.fai ipc v6 mem).run Hw.perform s.hw =
        ((.ok, (s.fai.withNhi (s.fai.nhi.getNext.incRef s.fai.nhi.freeIdx)).link napt), hw') ∧
      napt.v6 = false ∧ napt.id = ipc.id ∧ napt.dhost = ipc.dhost ∧
      napt.nhIdx = s.fai.nhi.freeIdx ∧
      nhMacs hw'.view = Function.update (nhMacs s.hw.view) s.fai.nhi.freeIdx ipc.dhost ∧
      Filed remap (ipc :: conns)
        ⟨(s.fai.withNhi (s.fai.nhi.getNext.incRef s.fai.nhi.freeIdx)).link napt, hw'⟩ := by
  obtain ⟨naptIdx, hidx, hunused, hbucket, hadd⟩ := h.faNaptAdd_fits hfits
  have hholders : ∀ a ∈ s.fai.holders, a.2 ≠ ipc.nhop.nhMac := h.holders_ne hnew
  obtain ⟨hw₁, hhop, hp₁, honly₁, hmacs₁⟩ :=
    faAddNhopEntry_new h.prompt hbooked (freshNapt naptIdx ipc) hlt hmac hholders
  obtain ⟨napt, hw', hrun, hp, hv4, htuple, rfl, hnhIdx, hprog, hmacs, hpools, hrows⟩ :=
    faNaptProgram_run h.pools hshost hidx hhop hlt hp₁ honly₁
  refine ⟨napt, hw', by rw [hadd, hrun], hv4, by rw [FaNapt.id, htuple], hprog.dhost, hnhIdx,
    by rw [hmacs, hmacs₁]; rfl, ?_⟩
  exact h.link hfits.2.2.2.1 _ hp hv4 htuple hunused hbucket hprog hpools hrows

end Filed

/-- An addition answers and leaves what the abstract machine says. -/
theorem Carries.add {remap : Bool → Mac} {conns : List Ipc} {s : Etc} (h : Carries remap conns s)
    {ipc : Ipc} (v6 mem : Bool) (hmac : ipc.dhost ≠ 0) (hshost : ipc.shost = remap ipc.outbound) :
    ∃ fai hw', (faNaptAdd s.fai ipc v6 mem).run Hw.perform s.hw =
        (((specAdd conns ipc v6 mem).1, fai), hw') ∧
      Carries remap (specAdd conns ipc v6 mem).2 ⟨fai, hw'⟩ := by
  rw [specAdd]
  by_cases hfits : Fits conns ipc v6 mem
  · obtain ⟨naptIdx, hidx, hunused, hbucket, hadd⟩ := h.filed.faNaptAdd_fits hfits
    rw [if_pos hfits, hadd]
    by_cases hroom : (Vendor.hops conns).card < CTF_MAX_NEXTHOP_TABLE_INDEX
    · rw [if_pos hroom]
      obtain ⟨nhi, nhIdx, hw₁, hhop, hp₁, honly₁, hhops₁⟩ :=
        faAddNhopEntry_run h.filed.prompt h.hops (freshNapt naptIdx ipc) ipc.nhop
          (mt h.freeIdx_full_iff.mp (Nat.not_le.mpr hroom)) hmac
      obtain ⟨napt, hw', hrun, hp, hv4, htuple, rfl, hnhIdx, hprog, hmacs, hpools, hrows⟩ :=
        faNaptProgram_run h.filed.pools hshost hidx hhop hhops₁.booked.lt hp₁ honly₁
      refine ⟨_, hw', hrun, h.filed.link hfits.2.2.2.1 nhi hp hv4 htuple hunused hbucket hprog
        hpools hrows, ?_⟩
      rw [hmacs]
      refine hhops₁.perm ?_
      have hholders := ((s.fai.withNhi nhi).link_flows hv4).map fun napt =>
        (napt.nhIdx, napt.dhost)
      rwa [List.map_cons, hprog.dhost, hnhIdx] at hholders
    · rw [if_neg hroom]
      have hfull : s.fai.nhi.peekNext = NHOP_FULL :=
        h.freeIdx_full_iff.mpr (Nat.le_of_not_lt hroom)
      refine ⟨s.fai, s.hw, ?_, h⟩
      rw [faNaptProgram, faAddNhopEntry, if_pos hfull]
      rfl
  · rw [if_neg hfits, h.filed.faNaptAdd_refused hfits]
    exact ⟨s.fai, s.hw, rfl, h⟩

end R8000Plus.Vendor

import R8000Plus.Effects.Runs
import R8000Plus.Fa.OrphanRows
import R8000Plus.Vendor.FlowMap

/-!
Whole runs of the flow cache on hardware that answers in time, from a first
`fa_up` on: additions, deletions, liveness checks and conntrack calls leave the
driver and the tables with the connections of the abstract machine, until a
deletion frees a next hop while all of them are taken.
-/

namespace R8000Plus.Vendor

open Effects Fa

/-! ### Deleting -/

theorem Programmed.valid {remap : Bool → Mac} {v : Tables} {napt : FaNapt} {ipc : Ipc}
    (h : Programmed remap v napt ipc) : nfValid (v ⟨0, napt.nfi.naptIdx⟩) = true := by
  have hword : v ⟨0, napt.nfi.naptIdx⟩ 6 = ofWords (faNaptPrepIpv4Word napt ipc) 6 := by
    rw [h.row 6 (by decide), ownedWord_of_le (by decide)]
  rw [nfValid, hword]
  exact nfValid_row ..

theorem and_valid_ne_zero (row : Nat → Word) (h : nfValid row = true) : row 6 &&& NF_VALID ≠ 0 := by
  intro hzero
  have hbit := congrArg (BitVec.getLsbD · 20) hzero
  rw [BitVec.getLsbD_and, ← nfValid, h] at hbit
  exact absurd hbit (by decide)

/-- The flow's row is cleared; what follows is the deletion of its next hop. -/
theorem faNaptDelLl_run (fai : FaInfo) {hw : Hw} (hp : hw.Prompt) {napt : FaNapt}
    (hv4 : napt.v6 = false) (hidx : napt.nfi.naptIdx < CTF_MAX_FLOW_TABLE)
    (hvalid : nfValid (hw.view ⟨0, napt.nfi.naptIdx⟩) = true) :
    ∃ hw', (∀ fai' hw'', (faDeleteNhopEntry fai napt).run Hw.perform hw' = (fai', hw'') →
        (faNaptDelLl fai napt).run Hw.perform hw = ((.ok, fai'), hw'')) ∧ hw'.Prompt ∧
      nfValid (hw'.view ⟨0, napt.nfi.naptIdx⟩) = false ∧
      ∀ addr, addr ≠ ⟨0, napt.nfi.naptIdx⟩ → hw'.view addr = hw.view addr := by
  obtain ⟨tbl, hw₁, hread, hp₁, hview₁, hlen₁, hwords⟩ := faReadNaptEntry_run hp hidx
  obtain ⟨hw₂, hwrite, hp₂, hview₂⟩ := faWriteNaptEntry_run hp₁ (clearValid tbl) hidx
  have hset : ofWords tbl 6 &&& NF_VALID ≠ 0 := by
    refine and_valid_ne_zero (ofWords tbl) ?_
    have hword := hwords 6 (by decide)
    rw [ownedWord_of_le (by decide)] at hword
    rwa [nfValid, hword]
  refine ⟨hw₂, fun fai' hw'' hdel => ?_, hp₂, ?_, fun addr hne => ?_⟩
  · rw [faNaptDelLl, Prog.run_bind_of_eq _ hread, hv4]
    simp only [Bool.false_eq_true, if_false]
    rw [if_neg hset]
    refine (Prog.run_bind_of_eq _ hwrite).trans ?_
    rw [if_pos rfl, Prog.run_bind_of_eq _ hdel]
    rfl
  · have hset6 : 6 < (clearValid tbl).length := by
      rw [clearValid, List.length_set, hlen₁]
      decide
    have hcleared : hw₂.view ⟨0, napt.nfi.naptIdx⟩ 6 = ofWords (clearValid tbl) 6 := by
      rw [hview₂, Hw.viewWith_self _ _ _ hset6, ownedWord_of_le (by decide)]
    rw [nfValid, hcleared]
    exact clearValid_nfValid tbl hlen₁
  · rw [hview₂, Hw.viewWith_of_ne _ _ hne, hview₁]

theorem specDel_of_not_mem {conns : List Ipc} {ipc : Ipc} (h : ∀ c ∈ conns, c.id ≠ ipc.id) :
    specDel conns ipc = conns :=
  List.filter_eq_self.mpr fun c hc => by simpa using h c hc

/-- The connection beside the others. -/
theorem specDel_perm {conns : List Ipc} {ipc c : Ipc} (hids : (conns.map Ipc.id).Nodup)
    (hc : c ∈ conns) (hid : c.id = ipc.id) : conns.Perm (c :: specDel conns ipc) := by
  induction conns with
  | nil => exact absurd hc List.not_mem_nil
  | cons x conns ih =>
      rw [List.map_cons, List.nodup_cons] at hids
      by_cases hx : x.id = ipc.id
      · have hrest : ∀ y ∈ conns, y.id ≠ ipc.id := fun y hy heq =>
          hids.1 (List.mem_map.mpr ⟨y, hy, heq.trans hx.symm⟩)
        obtain rfl : c = x := (List.mem_cons.mp hc).resolve_right fun hin => hrest c hin hid
        have hkeep : specDel (c :: conns) ipc = conns := by
          rw [specDel, List.filter_cons_of_neg (by simp [hx])]
          exact specDel_of_not_mem hrest
        rw [hkeep]
      · have hin : c ∈ conns := (List.mem_cons.mp hc).resolve_left fun heq => hx (heq ▸ hid)
        rw [specDel, List.filter_cons_of_pos (by simpa using hx)]
        exact ((ih hids.2 hin).cons x).trans (List.Perm.swap c x _)

/-- The deletion frees no next hop while all of them are taken. -/
def Gentle (conns : List Ipc) (ipc : Ipc) : Prop :=
  CTF_MAX_NEXTHOP_TABLE_INDEX ≤ (hops conns).card → hops (specDel conns ipc) = hops conns

instance (conns : List Ipc) (ipc : Ipc) : Decidable (Gentle conns ipc) :=
  inferInstanceAs (Decidable (_ → _))

/-- Among connections to as many MACs none is deleted gently. -/
theorem not_gentle_of_nodup {conns : List Ipc} (hmacs : (conns.map Ipc.dhost).Nodup)
    (hlen : CTF_MAX_NEXTHOP_TABLE_INDEX ≤ conns.length) {c : Ipc} (hc : c ∈ conns) :
    ¬ Gentle conns c := by
  intro hgentle
  have hcard : (hops conns).card = conns.length := by
    rw [hops, List.toFinset_card_of_nodup hmacs, List.length_map]
  have hin : c.dhost ∈ hops (specDel conns c) := by
    rw [hgentle (by rwa [hcard]), hops, List.mem_toFinset]
    exact List.mem_map.mpr ⟨c, hc, rfl⟩
  rw [hops, List.mem_toFinset] at hin
  obtain ⟨other, hother, heq⟩ := List.mem_map.mp hin
  obtain ⟨hmem, hne⟩ := List.mem_filter.mp hother
  rw [List.inj_on_of_nodup_map hmacs hmem hc heq] at hne
  exact absurd rfl (of_decide_eq_true hne)

@[simp] theorem mem_hops {conns : List Ipc} {mac : Mac} :
    mac ∈ hops conns ↔ ∃ c ∈ conns, c.dhost = mac := by
  simp [hops]

namespace Filed

variable {remap : Bool → Mac} {conns : List Ipc} {s : Etc}

theorem lookup_none (h : Filed remap conns s) {ipc : Ipc} (hnew : ∀ c ∈ conns, c.id ≠ ipc.id) :
    faNaptLkupLl s.fai false ipc.tuple = none := by
  rw [← Option.not_isSome_iff_eq_none, h.lookup_isSome_iff]
  rintro ⟨c, hc, heq⟩
  exact hnew c hc heq

theorem lookup_some (h : Filed remap conns s) {ipc c : Ipc} (hc : c ∈ conns)
    (hid : c.id = ipc.id) : ∃ napt, faNaptLkupLl s.fai false ipc.tuple = some napt ∧
      napt ∈ s.fai.flows ∧ Programmed remap s.hw.view napt c := by
  obtain ⟨napt, hmem, heq⟩ := h.flow_of_conn hc
  exact ⟨napt, h.cached.lookup_eq_some_iff.mpr ⟨hmem, heq.trans hid⟩, hmem,
    h.rows napt hmem c hc heq⟩

theorem holders_length (h : Filed remap conns s) {t : ConnTuple} {napt : FaNapt}
    (hfound : faNaptLkupLl s.fai false t = some napt) :
    (s.fai.drop false t napt).holders.length + 1 < 2 ^ 16 := by
  have hle := h.cached.length_le
  rw [(FaInfo.drop_flows hfound).length_eq, List.length_cons] at hle
  rw [FaInfo.holders, List.length_map]
  exact Nat.lt_of_le_of_lt hle (by decide)

/-- What is left of the flows is what is left of the connections. -/
theorem drop_flows (h : Filed remap conns s) {ipc c : Ipc} {napt : FaNapt} (hc : c ∈ conns)
    (hid : c.id = ipc.id) (hfound : faNaptLkupLl s.fai false ipc.tuple = some napt)
    (hdhost : napt.dhost = c.dhost) :
    ((s.fai.drop false ipc.tuple napt).flows.map fun napt => (napt.id, napt.dhost)).Perm
      ((specDel conns ipc).map fun c => (c.id, c.dhost)) := by
  have heq : napt.id = c.id := ((h.cached.lookup_eq_some_iff.mp hfound).2).trans hid.symm
  have hflows := (FaInfo.drop_flows hfound).map fun napt => (napt.id, napt.dhost)
  have hconns := (specDel_perm h.distinct hc hid).map fun c => (c.id, c.dhost)
  rw [List.map_cons, heq, hdhost] at hflows
  exact ((hflows.symm.trans h.flows).trans hconns).cons_inv

/-- Taking a connection out whose row was cleared. -/
theorem drop (h : Filed remap conns s) {ipc c : Ipc} {napt : FaNapt} (hc : c ∈ conns)
    (hid : c.id = ipc.id) (hfound : faNaptLkupLl s.fai false ipc.tuple = some napt)
    (hdhost : napt.dhost = c.dhost) (nhi : NextHop) {hw' : Hw} (hp : hw'.Prompt)
    (hinvalid : nfValid (hw'.view ⟨0, napt.nfi.naptIdx⟩) = false)
    (hother : ∀ addr : RowAddr, addr.table ≠ 2 → addr ≠ ⟨0, napt.nfi.naptIdx⟩ →
      hw'.view addr = s.hw.view addr) :
    Filed remap (specDel conns ipc) ⟨(s.fai.drop false ipc.tuple napt).withNhi nhi, hw'⟩ := by
  have hperm := FaInfo.drop_flows hfound
  have hslots := (hperm.map (·.nfi.naptIdx)).nodup_iff.mp h.cached.slots
  rw [List.map_cons, List.nodup_cons] at hslots
  have hrows : ∀ i, i ≠ napt.nfi.naptIdx → hw'.view ⟨0, i⟩ = s.hw.view ⟨0, i⟩ := fun i hi =>
    hother ⟨0, i⟩ (Nat.succ_ne_zero 1).symm (by simpa using hi)
  have hpools : npRows hw'.view = npRows s.hw.view := npRows_congr fun addr htable =>
    hother addr (by rw [htable]; decide) (by rintro rfl; simp at htable)
  refine ⟨hp, (h.cached.drop hfound).withNhi nhi, ?_, h.drop_flows hc hid hfound hdhost,
    hpools ▸ h.pools, ?_, ?_⟩
  · intro i hi
    have hne : i ≠ napt.nfi.naptIdx := by
      rintro rfl
      simp [FaInfo.withNhi, FaInfo.drop] at hi
    simp only [FaInfo.withNhi, FaInfo.drop, Function.update_of_ne hne] at hi
    obtain ⟨other, hin, hidx⟩ := h.marks i hi
    rcases List.mem_cons.mp (hperm.mem_iff.mp hin) with rfl | hrest
    · exact absurd hidx.symm hne
    · exact ⟨other, hrest, hidx⟩
  · intro other hin c' hc' hsame
    have hold : other ∈ s.fai.flows := hperm.mem_iff.mpr (List.mem_cons_of_mem _ hin)
    have hne : other.nfi.naptIdx ≠ napt.nfi.naptIdx := fun hidx =>
      hslots.1 (List.mem_map.mpr ⟨other, hin, hidx⟩)
    have hold' := h.rows other hold c' (List.mem_filter.mp hc').1 hsame
    refine hold'.congr (hrows _ hne) ?_
    rw [hpools]
    exact hold'.pool
  · intro i hi hunused
    by_cases hidx : i = napt.nfi.naptIdx
    · rw [hidx]
      exact hinvalid
    · simp only [FaInfo.withNhi, FaInfo.drop, Function.update_of_ne hidx] at hunused
      rw [hrows i hidx]
      exact h.unused i hi hunused

theorem faNaptDel_unknown (h : Filed remap conns s) {ipc : Ipc} (hnew : ∀ c ∈ conns, c.id ≠ ipc.id) :
    faNaptDel s.fai ipc false = .ret (.ok, s.fai) := by
  rw [faNaptDel, h.lookup_none hnew]
  rfl

/-- The deletion of a connection up to its next hop. -/
theorem faNaptDel_run (h : Filed remap conns s) {ipc c : Ipc} {napt : FaNapt}
    (hfound : faNaptLkupLl s.fai false ipc.tuple = some napt) (hmem : napt ∈ s.fai.flows)
    (hprog : Programmed remap s.hw.view napt c) :
    ∃ hw', (∀ nhi hw'', (faDeleteNhopEntry (s.fai.unlink false ipc.tuple) napt).run Hw.perform
          hw' = ((s.fai.unlink false ipc.tuple).withNhi nhi, hw'') →
        (faNaptDel s.fai ipc false).run Hw.perform s.hw =
          ((.ok, (s.fai.drop false ipc.tuple napt).withNhi nhi), hw'')) ∧ hw'.Prompt ∧
      nfValid (hw'.view ⟨0, napt.nfi.naptIdx⟩) = false ∧
      (∀ addr, addr ≠ ⟨0, napt.nfi.naptIdx⟩ → hw'.view addr = s.hw.view addr) ∧
      nhMacs hw'.view = nhMacs s.hw.view := by
  obtain ⟨hw', hrun, hp, hinvalid, hother⟩ := faNaptDelLl_run (s.fai.unlink false ipc.tuple)
    h.prompt (h.cached.v4 napt hmem) (h.cached.slot_lt hmem) hprog.valid
  refine ⟨hw', fun nhi hw'' hdel => ?_, hp, hinvalid, hother, ?_⟩
  · rw [faNaptDel, hfound]
    exact Prog.run_bind_of_eq _ (hrun _ hw'' hdel)
  · exact nhMacs_congr fun addr htable => hother addr (by rintro rfl; simp at htable)

end Filed

namespace Carries

variable {remap : Bool → Mac} {conns : List Ipc} {s : Etc}

/-- The holders with the flow to be deleted in front. -/
theorem hops_drop (h : Carries remap conns s) {t : ConnTuple} {napt : FaNapt}
    (hfound : faNaptLkupLl s.fai false t = some napt) :
    Interned s.fai.nhi (nhMacs s.hw.view)
      ((napt.nhIdx, napt.dhost) :: (s.fai.drop false t napt).holders) := by
  have hholders := (FaInfo.drop_flows hfound).map fun napt => (napt.nhIdx, napt.dhost)
  exact h.hops.perm hholders.symm

/-- Another flow has the next hop exactly when another connection has the MAC. -/
theorem held_iff (h : Carries remap conns s) {ipc c : Ipc} {napt : FaNapt} (hc : c ∈ conns)
    (hid : c.id = ipc.id) (hfound : faNaptLkupLl s.fai false ipc.tuple = some napt)
    (hdhost : napt.dhost = c.dhost) :
    (∃ a ∈ (s.fai.drop false ipc.tuple napt).holders, a.1 = napt.nhIdx) ↔
      c.dhost ∈ Vendor.hops (specDel conns ipc) := by
  have hrest := (h.filed.drop_flows hc hid hfound hdhost).map Prod.snd
  rw [List.map_map, List.map_map] at hrest
  have hmacs : c.dhost ∈ Vendor.hops (specDel conns ipc) ↔
      c.dhost ∈ (s.fai.drop false ipc.tuple napt).flows.map FaNapt.dhost := by
    rw [Vendor.hops, List.mem_toFinset]
    exact hrest.mem_iff.symm
  rw [hmacs, List.mem_map]
  have hcoherent := (h.hops_drop hfound).booked.coherent
  constructor
  · rintro ⟨a, ha, hidx⟩
    obtain ⟨other, hin, rfl⟩ := List.mem_map.mp ha
    have hsame := (hcoherent _ (List.mem_cons_of_mem _ ha) _ List.mem_cons_self).mp hidx
    exact ⟨other, hin, hsame.trans hdhost⟩
  · rintro ⟨other, hin, hmac⟩
    have ha : (other.nhIdx, other.dhost) ∈ (s.fai.drop false ipc.tuple napt).holders :=
      List.mem_map.mpr ⟨other, hin, rfl⟩
    exact ⟨_, ha, (hcoherent _ (List.mem_cons_of_mem _ ha) _ List.mem_cons_self).mpr
      (hmac.trans hdhost.symm)⟩

/-- A deletion takes the connection out. -/
theorem del (h : Carries remap conns s) {ipc : Ipc} (hgentle : Gentle conns ipc) :
    ∃ fai hw', (faNaptDel s.fai ipc false).run Hw.perform s.hw = ((.ok, fai), hw') ∧
      Carries remap (specDel conns ipc) ⟨fai, hw'⟩ := by
  by_cases hknown : ∃ c ∈ conns, c.id = ipc.id
  · obtain ⟨c, hc, hid⟩ := hknown
    obtain ⟨napt, hfound, hmem, hprog⟩ := h.filed.lookup_some hc hid
    obtain ⟨hw₁, hrun, hp₁, hinvalid, hother, hmacs⟩ := h.filed.faNaptDel_run hfound hmem hprog
    have hsafe : s.fai.nhi.freeIdx = NHOP_FULL →
        ∃ a ∈ (s.fai.drop false ipc.tuple napt).holders, a.1 = napt.nhIdx := by
      intro hfull
      rw [h.held_iff hc hid hfound hprog.dhost, hgentle (h.freeIdx_full_iff.mp hfull), mem_hops]
      exact ⟨c, hc, rfl⟩
    have hhops := h.hops_drop hfound
    rw [← hmacs] at hhops
    obtain ⟨nhi, hw', hdel, hp, honly, hhops'⟩ := faDeleteNhopEntry_run
      (s.fai.unlink false ipc.tuple) hp₁ hhops (h.filed.holders_length hfound) hsafe
    refine ⟨_, hw', hrun nhi hw' hdel, ?_, hhops'⟩
    refine h.filed.drop hc hid hfound hprog.dhost nhi hp ?_ fun addr htable hne => ?_
    · rw [honly _ (Nat.succ_ne_zero 1).symm]
      exact hinvalid
    · rw [honly addr htable, hother addr hne]
  · have hnew : ∀ c ∈ conns, c.id ≠ ipc.id := fun c hc heq => hknown ⟨c, hc, heq⟩
    refine ⟨s.fai, s.hw, ?_, ?_⟩
    · rw [h.filed.faNaptDel_unknown hnew]
      rfl
    · rw [specDel_of_not_mem hnew]
      exact h

/-- Any other deletion empties a full pool: rows and counts stay in order, and
the index is put back on the empty free list. -/
theorem del_rough (h : Carries remap conns s) {ipc : Ipc} (hrough : ¬ Gentle conns ipc) :
    ∃ napt hw', faNaptLkupLl s.fai false ipc.tuple = some napt ∧
      napt.nhIdx.toNat < CTF_MAX_NEXTHOP_TABLE_INDEX ∧ s.fai.nhi.freeIdx = NHOP_FULL ∧
      (faNaptDel s.fai ipc false).run Hw.perform s.hw =
        ((.ok, (s.fai.drop false ipc.tuple napt).withNhi
          ((s.fai.nhi.decRef napt.nhIdx).putNext napt.nhIdx)), hw') ∧
      (∀ a ∈ (s.fai.drop false ipc.tuple napt).holders, a.1 ≠ napt.nhIdx) ∧
      Filed remap (specDel conns ipc) ⟨(s.fai.drop false ipc.tuple napt).withNhi
        ((s.fai.nhi.decRef napt.nhIdx).putNext napt.nhIdx), hw'⟩ ∧
      Booked ((s.fai.nhi.decRef napt.nhIdx).putNext napt.nhIdx).ref (nhMacs hw'.view)
        (s.fai.drop false ipc.tuple napt).holders := by
  obtain ⟨hfull, hchanged⟩ := Classical.not_imp.mp hrough
  have hknown : ∃ c ∈ conns, c.id = ipc.id := by
    by_contra hnone
    exact hchanged (congrArg Vendor.hops
      (specDel_of_not_mem fun c hc heq => hnone ⟨c, hc, heq⟩))
  obtain ⟨c, hc, hid⟩ := hknown
  obtain ⟨napt, hfound, hmem, hprog⟩ := h.filed.lookup_some hc hid
  have hlast : ∀ a ∈ (s.fai.drop false ipc.tuple napt).holders, a.1 ≠ napt.nhIdx := by
    intro a ha hidx
    have hin := (h.held_iff hc hid hfound hprog.dhost).mp ⟨a, ha, hidx⟩
    refine hchanged ?_
    rw [Vendor.hops, Vendor.hops,
      List.toFinset_eq_of_perm _ _ ((specDel_perm h.filed.distinct hc hid).map Ipc.dhost),
      List.map_cons, List.toFinset_cons]
    exact (Finset.insert_eq_of_mem hin).symm
  obtain ⟨hw₁, hrun, hp₁, hinvalid, hother, hmacs⟩ := h.filed.faNaptDel_run hfound hmem hprog
  have hbooked := (h.hops_drop hfound).booked
  rw [← hmacs] at hbooked
  obtain ⟨hw', hdel, hp, honly, hmacs'⟩ := faDeleteNhopEntry_last
    (s.fai.unlink false ipc.tuple) hp₁ hbooked (h.filed.holders_length hfound) hlast
  refine ⟨napt, hw', hfound, hbooked.lt, h.freeIdx_full_iff.mpr hfull, hrun _ hw' hdel, hlast, ?_, ?_⟩
  · refine h.filed.drop hc hid hfound hprog.dhost _ hp ?_ fun addr htable hne => ?_
    · rw [honly _ (Nat.succ_ne_zero 1).symm]
      exact hinvalid
    · rw [honly addr htable, hother addr hne]
  · rw [hmacs']
    exact hbooked.release hlast

end Carries

/-! ### Liveness -/

theorem Programmed.steady_iff {remap : Bool → Mac} {v : Tables} {napt : FaNapt} {ipc : Ipc} :
    Programmed remap v napt.steady ipc ↔ Programmed remap v napt ipc := by
  constructor
  · exact fun h => ⟨h.dhost, h.action, h.tgtDma, h.nhIdx, h.row, h.poolIdx, h.pool⟩
  · exact fun h => ⟨h.dhost, h.action, h.tgtDma, h.nhIdx, h.row, h.poolIdx, h.pool⟩

namespace Carries

variable {remap : Bool → Mac} {conns : List Ipc} {s : Etc}

/-- The tables were only read. -/
theorem observed (h : Carries remap conns s) {hw' : Hw} (hp : hw'.Prompt)
    (hview : hw'.view = s.hw.view) : Carries remap conns ⟨s.fai, hw'⟩ := by
  refine ⟨⟨hp, h.filed.cached, h.filed.marks, h.filed.flows, ?_, ?_, ?_⟩, ?_⟩
  · exact hview ▸ h.filed.pools
  · exact hview ▸ h.filed.rows
  · exact hview ▸ h.filed.unused
  · exact hview ▸ h.hops

theorem setHits (h : Carries remap conns s) (t : ConnTuple) (hits : Word) :
    Carries remap conns ⟨s.fai.setHits false t hits, s.hw⟩ := by
  have hmap : ∀ {α : Type} (f : FaNapt → α), (∀ napt, f napt.steady = f napt) →
      (s.fai.setHits false t hits).flows.map f = s.fai.flows.map f :=
    fun f hf => FaInfo.setHits_flows_map f hf
  refine ⟨⟨h.filed.prompt, h.filed.cached.setHits, fun i hi => ?_, ?_, h.filed.pools, ?_,
    h.filed.unused⟩, ?_⟩
  · obtain ⟨napt, hmem, hidx⟩ := h.filed.marks i hi
    have hin : i ∈ (s.fai.setHits false t hits).flows.map (·.nfi.naptIdx) := by
      rw [hmap (·.nfi.naptIdx) fun _ => rfl]
      exact List.mem_map.mpr ⟨napt, hmem, hidx⟩
    exact List.mem_map.mp hin
  · rw [hmap (fun napt => (napt.id, napt.dhost)) fun _ => rfl]
    exact h.filed.flows
  · refine (FaInfo.forall_setHits_flows fun napt => ?_).mpr h.filed.rows
    simp only [Programmed.steady_iff]
    rfl
  · rw [FaInfo.holders, hmap (fun napt => (napt.nhIdx, napt.dhost)) fun _ => rfl]
    exact h.hops

/-- A liveness check keeps the connections. -/
theorem live (h : Carries remap conns s) (ipc : Ipc) :
    ∃ live fai hw', (faNaptLive s.fai ipc false).run Hw.perform s.hw = ((live, fai), hw') ∧
      Carries remap conns ⟨fai, hw'⟩ := by
  rw [faNaptLive]
  split
  · exact ⟨_, s.fai, s.hw, rfl, h⟩
  cases hfound : faNaptLkupLl s.fai false ipc.tuple with
  | none => exact ⟨_, s.fai, s.hw, rfl, h⟩
  | some napt =>
      have hmem := (h.filed.cached.lookup_eq_some_iff.mp hfound).1
      obtain ⟨tbl, hw', hread, hp, hview, -, -⟩ :=
        faReadNaptEntry_run h.filed.prompt (h.filed.cached.slot_lt hmem)
      dsimp only
      rw [Prog.run_bind_of_eq _ hread]
      dsimp only
      split
      · exact ⟨_, _, hw', rfl, (h.observed hp hview).setHits ipc.tuple _⟩
      · exact ⟨_, _, hw', rfl, h.observed hp hview⟩

end Carries

/-! ### Runs -/

/-- No access and no init times out, and the pool table, which the init leaves
alone, is clear at the start. -/
structure Hw.Fresh (hw : Hw) : Prop where
  prompt : hw.Prompt
  pools : ∀ i < CTF_MAX_POOL_TABLE_INDEX, ∀ j < 2, hw.rows ⟨1, i⟩ j = 0

theorem Hw.idle_fresh : Hw.idle.Fresh := ⟨fun _ => rfl, fun _ _ _ _ => rfl⟩

theorem Etc.start_eq {hw : Hw} (h : hw.Fresh) :
    Etc.start hw = ⟨FaInfo.started, (Hw.perform (.init .normal) hw).2⟩ := by
  have hdone : hw.now.busy = false := h.prompt _
  simp [Etc.start, Etc.step, Call.prog, faUp, faSetmode, FaInfo.attached, FaInfo.started,
    Hw.perform, hdone]

theorem carries_start {hw : Hw} (h : hw.Fresh) (remap : Bool → Mac) :
    Carries remap [] (Etc.start hw) := by
  have hflows : FaInfo.started.flows = [] := FaInfo.flows_empty rfl
  have hdone : hw.now.busy = false := h.prompt _
  let hw' := (Hw.perform (.init .normal) hw).2
  have hwiped : ∀ addr j, addr.table = 0 ∨ addr.table = 2 → hw'.view addr j = 0 := by
    intro addr j htable
    have hrow : hw'.rows addr j = 0 := if_pos ⟨htable, .inl hdone⟩
    rw [Hw.view, hrow, ownedWord]
    simp
  have hpools : ∀ i : Byte, i.toNat < CTF_MAX_POOL_TABLE_INDEX → npRows hw'.view i = ⟨0, 0⟩ := by
    intro i hi
    have hrow : ∀ j < 2, hw'.view ⟨1, i.toNat⟩ j = 0 := by
      intro j hj
      have hkept : hw'.rows ⟨1, i.toNat⟩ j = hw.rows ⟨1, i.toNat⟩ j := rfl
      rw [Hw.view, ownedWord_of_table Nat.one_ne_zero, hkept]
      exact h.pools _ hi j hj
    have hmac : ctfFaGetNpSa (fun _ => 0) = 0 := by decide
    have hzero : npRows hw'.view i = npRow fun _ => 0 := npRow_congr hrow
    rw [hzero, npRow, hmac]
    rfl
  rw [Etc.start_eq h]
  refine ⟨⟨h.prompt, FaInfo.started_cached, ?_, ?_, ⟨fun e => .inl (hpools _ ?_), hpools 2 ?_,
    hpools 3 ?_⟩, ?_, fun i _ _ => ?_⟩, ?_⟩
  · exact fun i hi => absurd hi Bool.false_ne_true
  · rw [hflows]
    rfl
  · cases e <;> decide
  · decide
  · decide
  · simp [hflows]
  · rw [nfValid, hwiped _ _ (.inl rfl)]
    exact BitVec.getLsbD_zero
  · have hmacs : nhMacs hw'.view = fun _ => 0 := by
      funext i
      have hrow : ∀ j < NH_ROW_WORDS, hw'.view ⟨2, i.toNat⟩ j = 0 := fun j _ =>
        hwiped _ _ (.inr rfl)
      have hzero : ctfFaGetNhDa (fun _ => 0) = 0 := by decide
      exact (ctfFaGetNhDa_congr hrow).trans hzero
    have hholders : FaInfo.started.holders = [] := by rw [FaInfo.holders, hflows, List.map_nil]
    rw [hholders, hmacs]
    exact interned_reset

/-- The calls that the results below are about: an addition is to a MAC that is
not zero, which is what a free next-hop row has, and from the one source MAC of
its direction; deletions and checks are for IPv4 connections; and the cache is
neither brought down nor up again. -/
def Plain (remap : Bool → Mac) : Call → Prop
  | .add ipc _ _ => ipc.dhost ≠ 0 ∧ ipc.shost = remap ipc.outbound
  | .del _ v6 | .live _ v6 => v6 = false
  | .conntrack _ _ => True
  | .up _ | .down => False

instance (remap : Bool → Mac) (c : Call) : Decidable (Plain remap c) := by
  cases c <;> unfold Plain <;> infer_instance

def Orderly (conns : List Ipc) : Call → Prop
  | .del ipc _ => Gentle conns ipc
  | _ => True

instance (conns : List Ipc) (c : Call) : Decidable (Orderly conns c) := by
  cases c <;> unfold Orderly <;> infer_instance

theorem everyStep_orderly_adds (ipcs conns : List Ipc) :
    EveryStep specStep Orderly conns (ipcs.map fun ipc => .add ipc false true) := by
  induction ipcs generalizing conns with
  | nil => trivial
  | cons ipc ipcs ih => exact ⟨trivial, ih _⟩

/-- Additions to different buckets are all accepted. -/
theorem foldl_adds {ipcs : List Ipc} (hoff : ∀ ipc ∈ ipcs, ipc.offloadable = true)
    (hbuckets : (ipcs.map fun c => c.id.bucket initCrcccittTab).Nodup)
    (hlen : ipcs.length ≤ CTF_MAX_NEXTHOP_TABLE_INDEX) :
    (ipcs.map fun ipc => Call.add ipc false true).foldl specStep [] = ipcs.reverse := by
  induction ipcs using List.reverseRecOn with
  | nil => rfl
  | append_singleton ipcs ipc ih =>
      rw [List.map_append, List.nodup_append] at hbuckets
      obtain ⟨hrest, -, hdisjoint⟩ := hbuckets
      rw [List.length_append, List.length_singleton] at hlen
      have hfold := ih (fun c hc => hoff c (List.mem_append_left _ hc)) hrest (by omega)
      have hnew : ∀ c ∈ ipcs.reverse,
          c.id.bucket initCrcccittTab ≠ ipc.id.bucket initCrcccittTab := fun c hc =>
        hdisjoint _ (List.mem_map.mpr ⟨c, List.mem_reverse.mp hc, rfl⟩) _ (by simp)
      have hcard : (hops ipcs.reverse).card < CTF_MAX_NEXTHOP_TABLE_INDEX := by
        have hle := List.toFinset_card_le (ipcs.reverse.map Ipc.dhost)
        rw [List.length_map, List.length_reverse] at hle
        rw [hops]
        omega
      rw [List.map_append, List.foldl_append, hfold, List.reverse_append]
      simp only [List.map_cons, List.map_nil, List.foldl_cons, List.foldl_nil, specStep, specAdd,
        if_pos (Fits.of_bucket_new (hoff ipc (by simp)) hnew), if_pos hcard]
      rfl

theorem Etc.step_of_run {α : Type} {s : Etc} {c : Call} {p : RowProg (α × FaInfo)}
    (hprog : c.prog s.fai = p >>= fun r => pure r.2) {ret : α} {fai : FaInfo} {hw' : Hw}
    (hrun : p.run Hw.perform s.hw = ((ret, fai), hw')) : s.step c = ⟨fai, hw'⟩ := by
  simp only [Etc.step, hprog, Prog.run_bind, hrun]
  rfl

theorem Carries.step {remap : Bool → Mac} {conns : List Ipc} {s : Etc} (h : Carries remap conns s)
    {c : Call} (hplain : Plain remap c) (horderly : Orderly conns c) :
    Carries remap (specStep conns c) (s.step c) := by
  cases c with
  | add ipc v6 mem =>
      obtain ⟨fai, hw', hrun, hc⟩ := h.add v6 mem hplain.1 hplain.2
      rw [Etc.step_of_run rfl hrun]
      exact hc
  | del ipc v6 =>
      obtain rfl : v6 = false := hplain
      obtain ⟨fai, hw', hrun, hc⟩ := h.del horderly
      rw [Etc.step_of_run rfl hrun]
      exact hc
  | live ipc v6 =>
      obtain rfl : v6 = false := hplain
      obtain ⟨live, fai, hw', hrun, hc⟩ := h.live ipc
      rw [Etc.step_of_run rfl hrun]
      exact hc
  | conntrack ipc v6 => exact h
  | up mode => exact hplain.elim
  | down => exact hplain.elim

theorem run_carries {hw : Hw} (h : hw.Fresh) {remap : Bool → Mac} {calls : List Call}
    (hplain : ∀ c ∈ calls, Plain remap c) (horderly : EveryStep specStep Orderly [] calls) :
    Carries remap (calls.foldl specStep []) (calls.foldl Etc.step (Etc.start hw)) := by
  have hstep : ∀ (s : Etc) conns c, Carries remap conns s → Plain remap c → Orderly conns c →
      Carries remap (specStep conns c) (s.step c) := fun _ _ _ hs hp ho => hs.step hp ho
  exact EveryStep.sim hstep hplain (carries_start h remap) horderly

/-! ### What the calls see -/

theorem pairCalls_plain : ∀ c ∈ pairCalls, Plain (fun _ _ => 0xFF) c := by
  simp only [pairCalls, List.forall_mem_cons]
  refine ⟨⟨by decide, rfl⟩, rfl, ⟨by decide, rfl⟩, trivial, rfl, by simp⟩

theorem pairCalls_orderly : EveryStep specStep Orderly [] pairCalls := by
  decide +kernel

/-- And the other goes too. -/
def allGone : List Call := pairCalls ++ [Call.del (Ipc.outOf 6 0xBB01 3) false]

theorem allGone_plain : ∀ c ∈ allGone, Plain (fun _ _ => 0xFF) c := by
  rw [allGone, List.forall_mem_append]
  exact ⟨pairCalls_plain, by simp [Plain]⟩

/-- After any such run an addition is answered as the abstract machine says: an
error for a connection that is known, cannot be offloaded or has a full bucket,
busy while connections go to as many MACs as there are next hops. Lookups find
the connections of the abstract machine, a packet that should have taken the fast
path is freed if it is of none of them, and the flow count is their number. -/
theorem cache_refines {hw : Hw} (h : hw.Fresh) {remap : Bool → Mac} {calls : List Call}
    (hplain : ∀ c ∈ calls, Plain remap c) (horderly : EveryStep specStep Orderly [] calls) :
    let s := calls.foldl Etc.step (Etc.start hw)
    let conns := calls.foldl specStep []
    (∀ ipc v6 mem, ipc.dhost ≠ 0 → ipc.shost = remap ipc.outbound →
      ((faNaptAdd s.fai ipc v6 mem).run Hw.perform s.hw).1.1 = (specAdd conns ipc v6 mem).1) ∧
    (∀ t, (faNaptLkupLl s.fai false t).isSome = true ↔ ∃ c ∈ conns, c.id = t.id) ∧
    (∀ ipc, faConntrack s.fai ipc false = true ↔
      ipc.pktFaAux = true ∧ ∀ c ∈ conns, c.id ≠ ipc.id) ∧
    s.fai.nflows.toNat = conns.length := by
  intro s conns
  have hs : Carries remap conns s := run_carries h hplain horderly
  refine ⟨fun ipc v6 mem hmac hshost => ?_, hs.filed.lookup_isSome_iff, fun ipc => ?_, ?_⟩
  · obtain ⟨fai, hw', hrun, -⟩ := hs.add v6 mem hmac hshost
    rw [hrun]
  · have hnone := not_congr (hs.filed.lookup_isSome_iff ipc.tuple)
    rw [Bool.not_eq_true, Option.isSome_eq_false_iff] at hnone
    rw [faConntrack, Bool.and_eq_true, hnone]
    simp only [not_exists, not_and]
  · have hlen := hs.filed.ids.length_eq
    rw [List.length_map, List.length_map] at hlen
    rw [hs.filed.cached.nflows_toNat, hlen]

/-- A connection that is carried is refused, one that was deleted is taken. -/
theorem cache_refines_pair :
    let s := pairCalls.foldl Etc.step (Etc.start Hw.idle)
    ((faNaptAdd s.fai (Ipc.outOf 6 0xBB01 3) false true).run Hw.perform s.hw).1.1 = .error ∧
      ((faNaptAdd s.fai (Ipc.outOf 6 0x5000 2) false true).run Hw.perform s.hw).1.1 = .ok := by
  have h := cache_refines Hw.idle_fresh pairCalls_plain pairCalls_orderly
  exact ⟨(h.1 _ false true (by decide) rfl).trans (by decide +kernel),
    (h.1 _ false true (by decide) rfl).trans (by decide +kernel)⟩

/-- A run that deletes all it added leaves nothing behind: no slot marked, no row
valid, no next hop in the table and every index on the free list. -/
theorem emptied_clean {hw : Hw} (h : hw.Fresh) {remap : Bool → Mac} {calls : List Call}
    (hplain : ∀ c ∈ calls, Plain remap c) (horderly : EveryStep specStep Orderly [] calls)
    (hempty : calls.foldl specStep [] = []) :
    let s := calls.foldl Etc.step (Etc.start hw)
    (∀ i < CTF_MAX_FLOW_TABLE, s.fai.ftable i = false ∧ nfValid (s.hw.rows ⟨0, i⟩) = false) ∧
    (∀ i : Byte, i.toNat < CTF_MAX_NEXTHOP_TABLE_INDEX →
      nhMacs s.hw.rows i = 0 ∧ s.fai.nhi.ref i = 0) ∧
    ∃ free, Linked s.fai.nhi.flist NHOP_FULL s.fai.nhi.freeIdx free ∧
      ∀ i, i ∈ free ↔ i.toNat < CTF_MAX_NEXTHOP_TABLE_INDEX := by
  intro s
  have hs : Carries remap [] s := by
    have hrun := run_carries h hplain horderly
    rwa [hempty] at hrun
  have hflows : s.fai.flows = [] := List.map_eq_nil_iff.mp (List.perm_nil.mp hs.filed.flows)
  have hholders : s.fai.holders = [] := by rw [FaInfo.holders, hflows, List.map_nil]
  have hhops := hs.hops
  rw [hholders] at hhops
  refine ⟨fun i hi => ?_, fun i hi => ⟨?_, hhops.booked.ref i hi⟩, ?_⟩
  · have hunused : s.fai.ftable i = false := by
      rw [Bool.eq_false_iff]
      intro hmark
      obtain ⟨napt, hmem, -⟩ := hs.filed.marks i hmark
      rw [hflows] at hmem
      exact List.not_mem_nil hmem
    refine ⟨hunused, ?_⟩
    rw [← nfValid_owned]
    exact hs.filed.unused i hi hunused
  · rw [← nhMacs_view]
    exact hhops.booked.clear i hi (by simp)
  · obtain ⟨free, hlinked, hfree⟩ := hhops.free
    exact ⟨free, hlinked, fun i => by simp [hfree]⟩

theorem emptied_clean_pair :
    nfValid ((allGone.foldl Etc.step (Etc.start Hw.idle)).hw.rows ⟨0, 5⟩) = false :=
  ((emptied_clean Hw.idle_fresh allGone_plain (by decide +kernel) (by decide +kernel)).1 5
    (by decide)).2

/-! ### The free list -/

def FaInfo.FreeListEnds (fai : FaInfo) : Prop :=
  ∃ free, Linked fai.nhi.flist NHOP_FULL fai.nhi.freeIdx free

/-- One call leaves the free list in order exactly when it is orderly. -/
theorem Carries.freeListEnds_iff {remap : Bool → Mac} {conns : List Ipc} {s : Etc}
    (h : Carries remap conns s) {c : Call} (hplain : Plain remap c) :
    (s.step c).fai.FreeListEnds ↔ Orderly conns c := by
  constructor
  · rintro ⟨free, hlinked⟩
    by_contra hrough
    cases c with
    | del ipc v6 =>
        obtain rfl : v6 = false := hplain
        obtain ⟨napt, hw', -, hlt, hfull, hrun, -⟩ := h.del_rough hrough
        rw [Etc.step_of_run rfl hrun] at hlinked
        exact putNext_full (s.fai.nhi.decRef napt.nhIdx) hfull (lt_full hlt) free hlinked
    | add ipc v6 mem => exact hrough trivial
    | live ipc v6 => exact hrough trivial
    | conntrack ipc v6 => exact hrough trivial
    | up mode => exact hrough trivial
    | down => exact hrough trivial
  · intro horderly
    obtain ⟨free, hlinked, -⟩ := (h.step hplain horderly).hops.free
    exact ⟨free, hlinked⟩

/-- The list of free next hops stays a list that ends, after every call of a run,
exactly when no call deletes the last connection to a MAC while the connections
go to as many MACs as there are next hops. -/
theorem freeList_ends_iff {hw : Hw} (h : hw.Fresh) (remap : Bool → Mac) {calls : List Call}
    (hplain : ∀ c ∈ calls, Plain remap c) :
    (∀ pre, pre <+: calls → (pre.foldl Etc.step (Etc.start hw)).fai.FreeListEnds) ↔
      EveryStep specStep Orderly [] calls := by
  have hstart := carries_start h remap
  have hends : (Etc.start hw).fai.FreeListEnds := by
    obtain ⟨free, hlinked, -⟩ := hstart.hops.free
    exact ⟨free, hlinked⟩
  have hstep : ∀ (s : Etc) conns c, Carries remap conns s → Plain remap c → Orderly conns c →
      Carries remap (specStep conns c) (s.step c) := fun _ _ _ hs hp ho => hs.step hp ho
  have hiff : ∀ (s : Etc) conns c, Carries remap conns s → Plain remap c →
      ((s.step c).fai.FreeListEnds ↔ Orderly conns c) := fun _ _ _ hs hp => hs.freeListEnds_iff hp
  have hreached : EveryStep Etc.step (fun s c => (s.step c).fai.FreeListEnds) (Etc.start hw) calls ↔
      ∀ pre, pre <+: calls → (pre.foldl Etc.step (Etc.start hw)).fai.FreeListEnds :=
    everyStep_reached_iff (P := fun s : Etc => s.fai.FreeListEnds) hends calls
  exact hreached.symm.trans (everyStep_sim_iff hiff hstep hplain hstart)

/-- With next hops to spare the list stays in order. -/
theorem freeList_ends_pair :
    (pairCalls.foldl Etc.step (Etc.start Hw.idle)).fai.FreeListEnds :=
  (freeList_ends_iff Hw.idle_fresh _ pairCalls_plain).mpr pairCalls_orderly pairCalls
    List.prefix_rfl

end R8000Plus.Vendor

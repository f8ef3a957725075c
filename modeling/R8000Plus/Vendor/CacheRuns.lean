import R8000Plus.Effects.Runs
import R8000Plus.Vendor.FlowCache

/-!
The software side of the flow cache over whole runs, whatever the hardware
answers: chains, slot marks and the flow count stay in step with each other.
-/

namespace R8000Plus.Vendor

open Effects Fa

/-! ### Keys -/

/-- What `FA_NAPT_TPL_CMP` compares of an IPv4 tuple. -/
structure FlowId where
  sip : Be32
  dip : Be32
  proto : Byte
  sp : Be16
  dp : Be16
  deriving DecidableEq, Repr

def ConnTuple.id (t : ConnTuple) : FlowId := ⟨t.sip.w0, t.dip.w0, t.proto, t.sp, t.dp⟩

abbrev FaNapt.id (napt : FaNapt) : FlowId := napt.tuple.id

/-- A tuple with the identity. -/
def FlowId.tuple (k : FlowId) : ConnTuple where
  sip := ⟨k.sip, 0, 0, 0⟩
  dip := ⟨k.dip, 0, 0, 0⟩
  sp := k.sp
  dp := k.dp
  proto := k.proto

/-- The chain of an identity. -/
def FlowId.chain (k : FlowId) : Nat := faNaptHash false k.tuple

/-- The bucket of hardware rows of an identity. -/
def FlowId.bucket (tab : Byte → BitVec 16) (k : FlowId) : Nat :=
  (faCrcCcitt tab k.tuple &&& 0xff).toNat

theorem naptTplCmp_false (napt : FaNapt) (t : ConnTuple) :
    naptTplCmp napt false t = decide (napt.id = t.id) := by
  simp only [naptTplCmp, FaNapt.id, ConnTuple.id, FlowId.mk.injEq, Bool.false_eq_true, if_false,
    and_assoc]

theorem faNaptHash_false (t : ConnTuple) : faNaptHash false t = t.id.chain := by
  have hsum : faNaptSum false t = faNaptSum false t.id.tuple := rfl
  rw [FlowId.chain, faNaptHash, faNaptHash, hsum]

theorem faCrcCcitt_id (tab : Byte → BitVec 16) (t : ConnTuple) :
    faCrcCcitt tab t = faCrcCcitt tab t.id.tuple := by
  simp only [faCrcCcitt, crcString, ConnTuple.id, FlowId.tuple]
  rfl

theorem bucket_lt (tab : Byte → BitVec 16) (k : FlowId) : k.bucket tab < 256 := by
  rw [FlowId.bucket, BitVec.toNat_and]
  exact Nat.lt_of_le_of_lt Nat.and_le_right (by decide)

/-- The rows of the bucket. -/
def FlowId.rows (tab : Byte → BitVec 16) (k : FlowId) : List Nat :=
  (List.range CTF_MAX_BUCKET_INDEX).map fun i => k.bucket tab * CTF_MAX_BUCKET_INDEX + i

theorem FlowId.mem_rows {tab : Byte → BitVec 16} {k : FlowId} {i : Nat} :
    i ∈ k.rows tab ↔ i / CTF_MAX_BUCKET_INDEX = k.bucket tab := by
  simp only [rows, List.mem_map, List.mem_range, CTF_MAX_BUCKET_INDEX]
  constructor
  · rintro ⟨n, hn, rfl⟩
    omega
  · intro hi
    exact ⟨i % 4, Nat.mod_lt _ (by decide), by omega⟩

theorem row_lt {tab : Byte → BitVec 16} {k : FlowId} {i : Nat}
    (h : i / CTF_MAX_BUCKET_INDEX = k.bucket tab) : i < CTF_MAX_FLOW_TABLE := by
  have hlt := bucket_lt tab k
  simp only [CTF_MAX_FLOW_TABLE, CTF_MAX_BUCKET_INDEX] at h ⊢
  omega

theorem freeBucket_eq (fai : FaInfo) (t : ConnTuple) :
    freeBucket fai t = (t.id.rows fai.crcTab).find? fun i => !fai.ftable i := by
  rw [freeBucket, faCrcCcitt_id]
  rfl

theorem chain_lt (k : FlowId) : k.chain < FA_NAPT_SZ := faNaptHash_lt false k.tuple

theorem faNaptLkupLl_false (fai : FaInfo) (t : ConnTuple) :
    faNaptLkupLl fai false t = Chains.lookup FaNapt.id FlowId.chain fai.napt t.id := by
  simp only [faNaptLkupLl, Chains.lookup, naptTplCmp_false, faNaptHash_false]

/-! ### The invariant -/

namespace FaInfo

/-- The chains, the slot marks and the count agree; every slot is one of the four
of its flow's bucket. -/
structure Cached (fai : FaInfo) : Prop where
  tab : fai.crcTab = initCrcccittTab
  v4 : ∀ napt ∈ fai.flows, napt.v6 = false
  placed : Chains.Placed FaNapt.id FlowId.chain fai.napt
  ids : (fai.flows.map FaNapt.id).Nodup
  slots : (fai.flows.map (·.nfi.naptIdx)).Nodup
  bucket : ∀ napt ∈ fai.flows,
    napt.nfi.naptIdx / CTF_MAX_BUCKET_INDEX = napt.id.bucket initCrcccittTab
  marked : ∀ napt ∈ fai.flows, fai.ftable napt.nfi.naptIdx = true
  count : fai.nflows = BitVec.ofNat 16 fai.flows.length

/-- Only the next-hop bookkeeping changes. -/
def withNhi (fai : FaInfo) (nhi : NextHop) : FaInfo := { fai with nhi := nhi }

@[simp] theorem withNhi_flows (fai : FaInfo) (nhi : NextHop) : (fai.withNhi nhi).flows = fai.flows :=
  rfl

@[simp] theorem withNhi_withNhi (fai : FaInfo) (nhi nhi' : NextHop) :
    (fai.withNhi nhi).withNhi nhi' = fai.withNhi nhi' := rfl

variable {fai : FaInfo}

theorem Cached.withNhi (h : fai.Cached) (nhi : NextHop) : (fai.withNhi nhi).Cached :=
  ⟨h.tab, h.v4, h.placed, h.ids, h.slots, h.bucket, h.marked, h.count⟩

theorem Cached.slot_lt (h : fai.Cached) {napt : FaNapt} (hmem : napt ∈ fai.flows) :
    napt.nfi.naptIdx < CTF_MAX_FLOW_TABLE :=
  row_lt (h.bucket napt hmem)

/-- There are no more flows than rows. -/
theorem Cached.length_le (h : fai.Cached) : fai.flows.length ≤ CTF_MAX_FLOW_TABLE := by
  have hsub : (fai.flows.map (·.nfi.naptIdx)) ⊆ List.range CTF_MAX_FLOW_TABLE := by
    intro i hi
    obtain ⟨napt, hmem, rfl⟩ := List.mem_map.mp hi
    exact List.mem_range.mpr (h.slot_lt hmem)
  have hcard := (h.slots.subperm hsub).length_le
  simpa using hcard

theorem Cached.nflows_toNat (h : fai.Cached) : fai.nflows.toNat = fai.flows.length := by
  have hle := h.length_le
  rw [h.count, BitVec.toNat_ofNat]
  exact Nat.mod_eq_of_lt (Nat.lt_of_le_of_lt hle (by decide))

theorem Cached.lookup_eq_some_iff (h : fai.Cached) {t : ConnTuple} {napt : FaNapt} :
    faNaptLkupLl fai false t = some napt ↔ napt ∈ fai.flows ∧ napt.id = t.id := by
  rw [faNaptLkupLl_false]
  exact Chains.lookup_eq_some_iff h.placed chain_lt h.ids

theorem Cached.lookup_eq_none_iff (h : fai.Cached) {t : ConnTuple} :
    faNaptLkupLl fai false t = none ↔ ∀ napt ∈ fai.flows, napt.id ≠ t.id := by
  rw [faNaptLkupLl_false]
  exact Chains.lookup_eq_none_iff h.placed chain_lt

/-! ### Linking and unlinking -/

theorem link_flows (fai : FaInfo) {napt : FaNapt} (hv4 : napt.v6 = false) :
    (fai.link napt).flows.Perm (napt :: fai.flows) := by
  have hperm := Chains.entries_insert_perm fai.napt (chain_lt napt.id) napt
  simpa only [flows, link, hv4, faNaptHash_false] using hperm

theorem Cached.link (h : fai.Cached) {napt : FaNapt} (hv4 : napt.v6 = false)
    (hfree : fai.ftable napt.nfi.naptIdx = false)
    (hfresh : ∀ other ∈ fai.flows, other.id ≠ napt.id)
    (hbucket : napt.nfi.naptIdx / CTF_MAX_BUCKET_INDEX = napt.id.bucket initCrcccittTab) :
    (fai.link napt).Cached := by
  have hperm := fai.link_flows hv4
  have hslot : ∀ other ∈ fai.flows, other.nfi.naptIdx ≠ napt.nfi.naptIdx := by
    intro other hmem heq
    have hmark := h.marked other hmem
    rw [heq, hfree] at hmark
    exact absurd hmark (by decide)
  have hmem : ∀ other, other ∈ (fai.link napt).flows ↔ other = napt ∨ other ∈ fai.flows := by
    intro other
    rw [hperm.mem_iff, List.mem_cons]
  refine ⟨h.tab, ?_, ?_, ?_, ?_, ?_, ?_, ?_⟩
  · rintro other hother
    rcases (hmem other).mp hother with rfl | hold
    · exact hv4
    · exact h.v4 other hold
  · intro b other hother
    by_cases hb : b = napt.id.chain
    · subst hb
      simp only [FaInfo.link, hv4, faNaptHash_false, Function.update_self,
        List.mem_cons] at hother
      rcases hother with rfl | hold
      · rfl
      · exact h.placed _ other hold
    · simp only [FaInfo.link, hv4, faNaptHash_false] at hother
      rw [Function.update_of_ne hb] at hother
      exact h.placed b other hother
  · refine (hperm.map _).nodup_iff.mpr (List.nodup_cons.mpr ⟨fun hin => ?_, h.ids⟩)
    obtain ⟨other, hother, heq⟩ := List.mem_map.mp hin
    exact hfresh other hother heq
  · refine (hperm.map _).nodup_iff.mpr (List.nodup_cons.mpr ⟨fun hin => ?_, h.slots⟩)
    obtain ⟨other, hother, heq⟩ := List.mem_map.mp hin
    exact hslot other hother heq
  · intro other hother
    rcases (hmem other).mp hother with rfl | hold
    · exact hbucket
    · exact h.bucket other hold
  · intro other hother
    rcases (hmem other).mp hother with rfl | hold
    · simp [FaInfo.link]
    · simp only [FaInfo.link, Function.update_of_ne (hslot other hold)]
      exact h.marked other hold
  · rw [hperm.length_eq, List.length_cons, BitVec.ofNat_add, ← h.count]
    rfl

/-- The driver's deletion, the hardware aside. -/
def drop (fai : FaInfo) (v6 : Bool) (t : ConnTuple) (napt : FaNapt) : FaInfo :=
  { fai.unlink v6 t with
    ftable := Function.update fai.ftable napt.nfi.naptIdx false
    nflows := fai.nflows - 1 }

theorem drop_flows {v6 : Bool} {t : ConnTuple} {napt : FaNapt}
    (hfound : faNaptLkupLl fai v6 t = some napt) :
    fai.flows.Perm (napt :: (fai.drop v6 t napt).flows) :=
  Chains.entries_remove_perm (faNaptHash_lt v6 t) hfound

theorem Cached.drop (h : fai.Cached) {v6 : Bool} {t : ConnTuple} {napt : FaNapt}
    (hfound : faNaptLkupLl fai v6 t = some napt) : (fai.drop v6 t napt).Cached := by
  have hperm := drop_flows hfound
  have hmem : ∀ other ∈ (fai.drop v6 t napt).flows, other ∈ fai.flows := fun other hother =>
    hperm.mem_iff.mpr (List.mem_cons_of_mem _ hother)
  have hids := (hperm.map FaNapt.id).nodup_iff.mp h.ids
  have hslots := (hperm.map (·.nfi.naptIdx)).nodup_iff.mp h.slots
  refine ⟨h.tab, fun other ho => h.v4 other (hmem other ho), ?_, (List.nodup_cons.mp hids).2,
    (List.nodup_cons.mp hslots).2, fun other ho => h.bucket other (hmem other ho), ?_, ?_⟩
  · intro b other hother
    simp only [FaInfo.drop, unlink, Function.update_apply] at hother
    split at hother
    · next hb => exact hb ▸ h.placed _ other (List.mem_of_mem_eraseP hother)
    · exact h.placed b other hother
  · intro other hother
    have hne : other.nfi.naptIdx ≠ napt.nfi.naptIdx := fun heq =>
      (List.nodup_cons.mp hslots).1 (List.mem_map.mpr ⟨other, hother, heq⟩)
    simp only [FaInfo.drop, Function.update_of_ne hne]
    exact h.marked other (hmem other hother)
  · have hlen := hperm.length_eq
    rw [List.length_cons] at hlen
    have hcount := h.count
    rw [hlen, BitVec.ofNat_add] at hcount
    change fai.nflows - 1 = BitVec.ofNat 16 (fai.drop v6 t napt).flows.length
    rw [hcount]
    exact BitVec.add_sub_cancel _ _

end FaInfo

/-! ### What the calls leave, whatever the hardware answers -/

section Yields

variable (fai : FaInfo)

theorem faFindNhop_yields (tb : FaNapt) (nh : NhopEntry) :
    (faFindNhop fai tb nh).Yields fun r =>
      ∃ nhi idx, r.2 = (fai.withNhi nhi, { tb with nhIdx := idx }) := by
  refine Prog.yields_bind_of_forall _ fun r => ?_
  obtain ⟨ret, idx⟩ := r
  dsimp only
  split
  · exact ⟨_, _, rfl⟩
  · exact ⟨_, tb.nhIdx, rfl⟩

theorem faAddNhopEntry_yields (tb : FaNapt) (nh : NhopEntry) :
    (faAddNhopEntry fai tb nh).Yields fun r =>
      ∃ nhi idx, r.2 = (fai.withNhi nhi, { tb with nhIdx := idx }) := by
  rw [faAddNhopEntry]
  split
  · exact ⟨_, tb.nhIdx, rfl⟩
  · refine (faFindNhop_yields fai tb nh).bind ?_
    rintro ⟨ret, fai', tb'⟩ ⟨nhi, idx, heq⟩
    obtain ⟨rfl, rfl⟩ := Prod.mk.injEq .. ▸ heq
    dsimp only
    split
    · exact ⟨nhi, idx, rfl⟩
    · intro stored
      cases stored
      · exact ⟨nhi, idx, rfl⟩
      · exact ⟨_, _, rfl⟩

theorem faDeleteNhopEntry_yields (npi : FaNapt) :
    (faDeleteNhopEntry fai npi).Yields fun r => ∃ nhi, r = fai.withNhi nhi := by
  rw [faDeleteNhopEntry]
  generalize (if fai.nhi.ref npi.nhIdx = 0 then fai.nhi else fai.nhi.decRef npi.nhIdx) = nhi
  split
  · intro stored
    cases stored <;> exact ⟨_, rfl⟩
  · exact ⟨_, rfl⟩

theorem findOrAddPool_yields (tb : FaNapt) (pe : PoolEntry) :
    (findOrAddPool tb pe).Yields fun r => ∃ idx, r.2 = { tb with poolIdx := idx } := by
  have hfind : (faFindPool tb pe).Yields fun r => ∃ idx, r.2 = { tb with poolIdx := idx } := by
    refine Prog.yields_bind_of_forall _ fun r => ?_
    obtain ⟨ret, i⟩ := r
    dsimp only
    split
    · exact ⟨_, rfl⟩
    · exact ⟨tb.poolIdx, rfl⟩
  refine hfind.bind ?_
  rintro ⟨ret, tb'⟩ ⟨idx, heq⟩
  obtain rfl : tb' = { tb with poolIdx := idx } := heq
  dsimp only
  split
  · exact ⟨idx, rfl⟩
  · intro stored
    cases stored
    · exact ⟨idx, rfl⟩
    · exact ⟨_, rfl⟩

theorem faAddPoolEntry_yields (tb : FaNapt) (pe : PoolEntry) :
    (faAddPoolEntry tb pe).Yields fun r => ∃ idx, r.2 = { tb with poolIdx := idx } := by
  intro _
  exact (findOrAddPool_yields tb pe).bind fun r hr _ => hr

/-- A flow is programmed as a whole, or only next-hop bookkeeping is left of it. -/
theorem faNaptProgram_yields (ipc : Ipc) (naptIdx : Nat) :
    (faNaptProgram fai ipc naptIdx).Yields fun r =>
      (r.1 = .busy ∧ ∃ nhi, r.2 = fai.withNhi nhi) ∨
      (r.1 = .ok ∧ ∃ nhi napt, napt.v6 = false ∧ napt.tuple = ipc.tuple ∧
        napt.nfi.naptIdx = naptIdx ∧ r.2 = (fai.withNhi nhi).link napt) := by
  refine (faAddNhopEntry_yields fai (freshNapt naptIdx ipc) ipc.nhop).bind ?_
  rintro ⟨ret, fai', napt⟩ ⟨nhi, idx, heq⟩
  obtain ⟨rfl, rfl⟩ := Prod.mk.injEq .. ▸ heq
  dsimp only
  split
  · exact .inl ⟨rfl, nhi, rfl⟩
  · refine (faAddPoolEntry_yields _ ipc.pool).bind ?_
    rintro ⟨ret, napt⟩ ⟨pool, heq⟩
    obtain rfl : napt = _ := heq
    dsimp only
    split
    · exact .inl ⟨rfl, nhi, rfl⟩
    · intro stored
      cases stored
      · exact .inl ⟨rfl, nhi, rfl⟩
      · exact .inr ⟨rfl, nhi, _, rfl, rfl, rfl, rfl⟩

theorem faNaptDelLl_yields (napt : FaNapt) :
    (faNaptDelLl fai napt).Yields fun r => ∃ nhi, r.2 = fai.withNhi nhi := by
  simp only [faNaptDelLl, faReadNaptEntry, Prog.request_bind, Prog.yields_ask]
  generalize (if napt.v6 = true then 7 else 6) = vidx
  intro tbl
  cases tbl with
  | none => exact ⟨fai.nhi, rfl⟩
  | some tbl =>
      dsimp only
      split
      · exact ⟨fai.nhi, rfl⟩
      · intro stored
        cases stored
        · exact ⟨fai.nhi, rfl⟩
        · refine (faDeleteNhopEntry_yields fai napt).bind ?_
          rintro fai' ⟨nhi, rfl⟩
          exact ⟨nhi, rfl⟩

theorem flushFlows_yields (napts : List FaNapt) :
    (flushFlows fai napts).Yields fun r =>
      ∃ nhi, r = { fai with nhi := nhi, nflows := fai.nflows - BitVec.ofNat 16 napts.length } := by
  induction napts generalizing fai with
  | nil => exact ⟨fai.nhi, by simp⟩
  | cons napt rest ih =>
      refine (faNaptDelLl_yields fai napt).bind ?_
      rintro ⟨ret, fai'⟩ ⟨nhi, rfl⟩
      refine (ih _).mono ?_
      rintro r ⟨nhi', rfl⟩
      have hcount : fai.nflows - 1 - BitVec.ofNat 16 rest.length =
          fai.nflows - BitVec.ofNat 16 (rest.length + 1) := by bv_omega
      exact ⟨nhi', by simp only [FaInfo.withNhi, hcount, List.length_cons]⟩

theorem faSetmode_yields (mode : AccMode) :
    (faSetmode fai mode).Yields fun r =>
      (r.1 = .ok ∧ r.2 = { fai with accMode := mode }) ∨ (r.1 = .error ∧ r.2 = fai) := by
  rw [faSetmode]
  split
  · next h => exact .inl ⟨rfl, by rw [← h]⟩
  · intro done
    cases done
    · exact .inr ⟨rfl, rfl⟩
    · exact .inl ⟨rfl, rfl⟩

end Yields

/-! ### What a call can do to the cache -/

namespace FaInfo

/-- What a flush leaves: every flow is taken out, and none of the slot marks. -/
def flushed (fai : FaInfo) (nhi : NextHop) : FaInfo :=
  { fai with napt := fun _ => [], accMode := .bypass, nflows := 0, nhi := nhi }

/-- The states one call can leave, whatever the hardware answers. -/
inductive Touched (fai : FaInfo) : FaInfo → Prop
  | hops (nhi : NextHop) : Touched fai (fai.withNhi nhi)
  | linked (nhi : NextHop) (napt : FaNapt) (hv4 : napt.v6 = false)
      (hunused : fai.ftable napt.nfi.naptIdx = false)
      (hbucket : napt.nfi.naptIdx / CTF_MAX_BUCKET_INDEX = napt.id.bucket fai.crcTab)
      (hnew : faNaptLkupLl fai false napt.tuple = none) : Touched fai ((fai.withNhi nhi).link napt)
  | dropped (nhi : NextHop) (v6 : Bool) (t : ConnTuple) (napt : FaNapt)
      (hfound : faNaptLkupLl fai v6 t = some napt) :
      Touched fai ((fai.drop v6 t napt).withNhi nhi)
  | counted (v6 : Bool) (t : ConnTuple) (hits : Word) : Touched fai (fai.setHits v6 t hits)
  | down (nhi : NextHop) : Touched fai (fai.flushed nhi)
  | up (mode : AccMode) :
      Touched fai { fai with accMode := mode, crcTab := initCrcccittTab, nhi := NextHop.reset }

variable {fai : FaInfo}

theorem Touched.same : fai.Touched fai := .hops fai.nhi

theorem freeBucket_spec {t : ConnTuple} {naptIdx : Nat}
    (h : freeBucket fai t = some naptIdx) :
    fai.ftable naptIdx = false ∧
      naptIdx / CTF_MAX_BUCKET_INDEX = t.id.bucket fai.crcTab := by
  rw [freeBucket_eq] at h
  have hfree := List.find?_some h
  exact ⟨by simpa using hfree, FlowId.mem_rows.mp (List.mem_of_find?_eq_some h)⟩

theorem faNaptAdd_touched (ipc : Ipc) (v6 mem : Bool) :
    (faNaptAdd fai ipc v6 mem).Yields fun r => fai.Touched r.2 := by
  rw [faNaptAdd]
  split
  · exact .same
  split
  · exact .same
  next hv6 =>
  split
  · exact .same
  cases hfree : freeBucket fai ipc.tuple with
  | none => exact Touched.same
  | some naptIdx =>
      dsimp only
      obtain ⟨hunused, hbucket⟩ := freeBucket_spec hfree
      rw [if_neg (by simp [hunused])]
      split
      · exact .same
      next hnew =>
      split
      · exact .same
      refine (faNaptProgram_yields fai ipc naptIdx).mono ?_
      rintro ⟨ret, fai'⟩ (⟨-, nhi, rfl⟩ | ⟨-, nhi, napt, hv4, htuple, rfl, rfl⟩)
      · exact .hops nhi
      · rw [Bool.eq_false_iff.mpr hv6, ← htuple] at hnew
        rw [← htuple] at hbucket
        exact .linked nhi napt hv4 hunused hbucket (by simpa using hnew)

theorem faNaptDel_touched (ipc : Ipc) (v6 : Bool) :
    (faNaptDel fai ipc v6).Yields fun r => fai.Touched r.2 := by
  rw [faNaptDel]
  cases hfound : faNaptLkupLl fai v6 ipc.tuple with
  | none => exact Touched.same
  | some napt =>
      refine (faNaptDelLl_yields _ napt).bind ?_
      rintro ⟨ret, fai'⟩ ⟨nhi, rfl⟩
      exact .dropped nhi v6 ipc.tuple napt hfound

theorem faNaptLive_touched (ipc : Ipc) (v6 : Bool) :
    (faNaptLive fai ipc v6).Yields fun r => fai.Touched r.2 := by
  rw [faNaptLive]
  split
  · exact .same
  cases faNaptLkupLl fai v6 ipc.tuple with
  | none => exact Touched.same
  | some napt =>
      simp only [faReadNaptEntry, Prog.request_bind, Prog.yields_ask]
      intro tbl
      cases tbl with
      | none => exact Touched.same
      | some tbl =>
          dsimp only
          split
          · exact .counted v6 ipc.tuple _
          · exact .same

theorem flows_empty {fai : FaInfo} (h : fai.napt = fun _ => []) : fai.flows = [] := by
  simp [flows, Chains.entries, h]

/-- A cache whose count is zero has no chains to flush. -/
theorem Cached.napt_eq (h : fai.Cached) (hzero : fai.nflows = 0) : fai.napt = fun _ => [] := by
  have hnone : fai.flows.length = 0 := by
    rw [← h.nflows_toNat, hzero]
    rfl
  funext b
  refine List.eq_nil_iff_forall_not_mem.mpr fun napt hmem => ?_
  have hb : b < FA_NAPT_SZ := h.placed b napt hmem ▸ chain_lt napt.id
  have hin : napt ∈ fai.flows := Chains.mem_entries_of_mem hb hmem
  rw [List.length_eq_zero_iff.mp hnone] at hin
  exact List.not_mem_nil hin

theorem Cached.faFlush_yields (h : fai.Cached) :
    (faFlush { fai with accMode := .bypass }).Yields fun r => ∃ nhi, r = fai.flushed nhi := by
  rw [faFlush]
  split
  · next hzero =>
    refine ⟨fai.nhi, ?_⟩
    rw [flushed, ← h.napt_eq hzero, ← hzero]
  · refine (flushFlows_yields _ _).bind ?_
    rintro r ⟨nhi, rfl⟩
    refine ⟨nhi, ?_⟩
    have hall : fai.nflows - BitVec.ofNat 16 fai.flows.length = 0 := by
      rw [h.count]
      exact BitVec.sub_self _
    have hflows : FaInfo.flows { fai with accMode := .bypass } = fai.flows := rfl
    simp only [flushed, hflows, hall]

theorem Cached.faDown_touched (h : fai.Cached) :
    (faDown fai).Yields fun r => fai.Touched r.2 := by
  rw [faDown]
  split
  · exact .same
  refine (faSetmode_yields fai .bypass).bind ?_
  rintro ⟨ret, fai'⟩ (⟨hret, heq⟩ | ⟨hret, heq⟩)
  · obtain rfl : fai' = _ := heq
    obtain rfl : ret = .ok := hret
    refine h.faFlush_yields.bind ?_
    rintro r ⟨nhi, rfl⟩
    exact .down nhi
  · obtain rfl : fai' = fai := heq
    obtain rfl : ret = .error := hret
    exact .same

/-- Leaving normal mode with the init done. -/
theorem Cached.faDown_run (h : fai.Cached) {hw : Hw} (hmode : fai.accMode ≠ .bypass)
    (hdone : hw.now.busy = false) :
    ∃ nhi, ((faDown fai).run Hw.perform hw).1 = (.ok, fai.flushed nhi) := by
  have hset : (faSetmode fai .bypass).run Hw.perform hw =
      ((.ok, { fai with accMode := .bypass }), (Hw.perform (.init .bypass) hw).2) := by
    simp [faSetmode, hmode, Hw.perform, hdone]
  obtain ⟨nhi, hflush⟩ := h.faFlush_yields.run Hw.perform (Hw.perform (.init .bypass) hw).2
  refine ⟨nhi, ?_⟩
  rw [faDown, if_neg hmode, Prog.run_bind_of_eq _ hset]
  dsimp only
  rw [if_neg (by simp), Prog.run_bind, hflush]
  rfl

theorem Cached.faUp_touched (h : fai.Cached) (mode : AccMode) :
    (faUp fai mode).Yields fun r => fai.Touched r.2 := by
  rw [faUp]
  split
  · exact .same
  split
  · exact h.faDown_touched.bind fun _ hr => hr
  split
  · exact .same
  refine (faSetmode_yields fai mode).bind ?_
  rintro ⟨ret, fai'⟩ (⟨hret, heq⟩ | ⟨hret, heq⟩)
  · obtain rfl : fai' = _ := heq
    obtain rfl : ret = .ok := hret
    exact .up mode
  · obtain rfl : fai' = fai := heq
    obtain rfl : ret = .error := hret
    exact .same

theorem Cached.call_touched (h : fai.Cached) (c : Call) : (c.prog fai).Yields fai.Touched := by
  cases c with
  | add ipc v6 mem => exact (faNaptAdd_touched ipc v6 mem).bind fun _ hr => hr
  | del ipc v6 => exact (faNaptDel_touched ipc v6).bind fun _ hr => hr
  | live ipc v6 => exact (faNaptLive_touched ipc v6).bind fun _ hr => hr
  | conntrack ipc v6 => exact Touched.same
  | up mode => exact (h.faUp_touched mode).bind fun _ hr => hr
  | down => exact h.faDown_touched.bind fun _ hr => hr

end FaInfo

/-! Hits are written into an entry in place. -/

/-- An entry without its hit count. -/
def FaNapt.steady (napt : FaNapt) : FaNapt := { napt with nfi := { napt.nfi with hits := 0 } }

theorem map_replaceF {α β : Type} {f : α → β} {g : α → Option α}
    (hg : ∀ a b, g a = some b → f b = f a) (l : List α) : (l.replaceF g).map f = l.map f := by
  induction l with
  | nil => rfl
  | cons a l ih =>
      rw [List.replaceF_cons]
      cases hga : g a with
      | none => simp [ih]
      | some b => simp [hg a b hga]

namespace FaInfo

variable {fai : FaInfo} {v6 : Bool} {t : ConnTuple} {hits : Word}

theorem setHits_chain (b : Nat) :
    ((fai.setHits v6 t hits).napt b).map FaNapt.steady = (fai.napt b).map FaNapt.steady := by
  simp only [setHits, Function.update_apply]
  split
  · next hb =>
    rw [hb]
    refine map_replaceF (fun napt napt' heq => ?_) _
    split at heq
    · rw [← Option.some.inj heq]
      rfl
    · exact absurd heq (by simp)
  · rfl

theorem setHits_flows :
    (fai.setHits v6 t hits).flows.map FaNapt.steady = fai.flows.map FaNapt.steady := by
  rw [flows, flows, ← Chains.entries_map, ← Chains.entries_map]
  exact Chains.entries_congr fun b _ => setHits_chain b

/-- Anything that does not depend on hits is as before. -/
theorem setHits_flows_map {α : Type} (f : FaNapt → α) (hf : ∀ napt, f napt.steady = f napt) :
    (fai.setHits v6 t hits).flows.map f = fai.flows.map f := by
  have hcomp : f = f ∘ FaNapt.steady := funext fun napt => (hf napt).symm
  rw [hcomp, ← List.map_map, ← List.map_map, setHits_flows]

theorem forall_setHits_flows {P : FaNapt → Prop} (hP : ∀ napt, P napt.steady ↔ P napt) :
    (∀ napt ∈ (fai.setHits v6 t hits).flows, P napt) ↔ ∀ napt ∈ fai.flows, P napt := by
  have hmap : (fai.setHits v6 t hits).flows.map P = fai.flows.map P :=
    setHits_flows_map P fun napt => propext (hP napt)
  have hall : ∀ l : List FaNapt, (∀ napt ∈ l, P napt) ↔ ∀ p ∈ l.map P, p := by
    intro l
    rw [List.forall_mem_map]
  rw [hall, hall, hmap]

theorem Cached.setHits (h : fai.Cached) : (fai.setHits v6 t hits).Cached := by
  refine ⟨h.tab, ?_, ?_, ?_, ?_, ?_, ?_, ?_⟩
  · exact (forall_setHits_flows fun _ => Iff.rfl).mpr h.v4
  · intro b napt hmem
    have hsteady := List.mem_map_of_mem (f := FaNapt.steady) hmem
    rw [setHits_chain] at hsteady
    obtain ⟨old, hold, heq⟩ := List.mem_map.mp hsteady
    have hid : napt.steady.id = old.steady.id := by rw [heq]
    change napt.id = old.id at hid
    rw [hid]
    exact h.placed b old hold
  · rw [setHits_flows_map FaNapt.id fun _ => rfl]
    exact h.ids
  · rw [setHits_flows_map (·.nfi.naptIdx) fun _ => rfl]
    exact h.slots
  · exact (forall_setHits_flows fun _ => Iff.rfl).mpr h.bucket
  · exact (forall_setHits_flows fun _ => Iff.rfl).mpr h.marked
  · have hflows : (fai.setHits v6 t hits).flows.map FaNapt.steady = fai.flows.map FaNapt.steady :=
      setHits_flows
    have hlen := congrArg List.length hflows
    rw [List.length_map, List.length_map] at hlen
    rw [hlen]
    exact h.count

/-! ### Runs -/

theorem Cached.of_empty {fai : FaInfo} (htab : fai.crcTab = initCrcccittTab)
    (hnapt : fai.napt = fun _ => []) (hcount : fai.nflows = 0) : fai.Cached := by
  have hflows := flows_empty hnapt
  refine ⟨htab, ?_, ?_, ?_, ?_, ?_, ?_, ?_⟩
  · simp [hflows]
  · intro b napt hmem
    rw [hnapt] at hmem
    exact absurd hmem (by simp)
  · simp [hflows]
  · simp [hflows]
  · simp [hflows]
  · simp [hflows]
  · simpa [hflows] using hcount

theorem Cached.touched (h : fai.Cached) {fai' : FaInfo} (ht : fai.Touched fai') : fai'.Cached := by
  cases ht with
  | hops nhi => exact h.withNhi nhi
  | linked nhi napt hv4 hunused hbucket hnew =>
      rw [h.tab] at hbucket
      exact (h.withNhi nhi).link hv4 hunused (h.lookup_eq_none_iff.mp hnew) hbucket
  | dropped nhi v6 t napt hfound => exact (h.drop hfound).withNhi nhi
  | counted v6 t hits => exact h.setHits
  | down nhi => exact .of_empty h.tab rfl rfl
  | up mode => exact ⟨rfl, h.v4, h.placed, h.ids, h.slots, h.bucket, h.marked, h.count⟩

theorem started_cached : started.Cached := .of_empty rfl rfl rfl

/-- A row marked as used that no flow uses. -/
def Dead (fai : FaInfo) (i : Nat) : Prop :=
  fai.ftable i = true ∧ ∀ napt ∈ fai.flows, napt.nfi.naptIdx ≠ i

/-- Only a deletion clears a mark, and only its own flow's. -/
theorem Dead.touched {i : Nat} (hdead : fai.Dead i) {fai' : FaInfo}
    (ht : fai.Touched fai') : fai'.Dead i := by
  cases ht with
  | hops nhi => exact hdead
  | linked nhi napt hv4 hunused hbucket hnew =>
      have hne : napt.nfi.naptIdx ≠ i := by
        rintro rfl
        rw [hdead.1] at hunused
        exact absurd hunused (by decide)
      refine ⟨?_, fun other hother => ?_⟩
      · simp only [link, Function.update_of_ne hne.symm]
        exact hdead.1
      · rcases List.mem_cons.mp (((fai.withNhi nhi).link_flows hv4).mem_iff.mp hother) with
          rfl | hold
        · exact hne
        · exact hdead.2 other hold
  | dropped nhi v6 t napt hfound =>
      have hperm := drop_flows hfound
      have hne : napt.nfi.naptIdx ≠ i := hdead.2 napt (hperm.mem_iff.mpr (by simp))
      refine ⟨?_, fun other hother => hdead.2 other ?_⟩
      · simp only [withNhi, drop, Function.update_of_ne hne.symm]
        exact hdead.1
      · exact hperm.mem_iff.mpr (List.mem_cons_of_mem _ hother)
  | counted v6 t hits => exact ⟨hdead.1, (forall_setHits_flows fun _ => Iff.rfl).mpr hdead.2⟩
  | down nhi =>
      have hflows : (fai.flushed nhi).flows = [] := flows_empty rfl
      exact ⟨hdead.1, by simp [hflows]⟩
  | up mode => exact hdead

end FaInfo

theorem Etc.step_touched (s : Etc) (c : Call) (h : s.fai.Cached) :
    s.fai.Touched (s.step c).fai :=
  (h.call_touched c).run Hw.perform s.hw

theorem run_cached_of {s : Etc} (h : s.fai.Cached) (calls : List Call) :
    (calls.foldl Etc.step s).fai.Cached := by
  have hstep : ∀ (s : Etc) c, s.fai.Cached → (s.step c).fai.Cached :=
    fun s c hs => hs.touched (s.step_touched c hs)
  exact foldl_invariant hstep h calls

theorem run_cached {s : Etc} (hstart : s.fai = FaInfo.started) (calls : List Call) :
    (calls.foldl Etc.step s).fai.Cached :=
  run_cached_of (hstart ▸ FaInfo.started_cached) calls

theorem run_dead {s : Etc} (h : s.fai.Cached) {i : Nat} (hdead : s.fai.Dead i)
    (calls : List Call) : (calls.foldl Etc.step s).fai.Dead i := by
  have hstep : ∀ (s : Etc) c, s.fai.Cached ∧ s.fai.Dead i →
      (s.step c).fai.Cached ∧ (s.step c).fai.Dead i :=
    fun s c ⟨hs, hd⟩ => ⟨hs.touched (s.step_touched c hs), hd.touched (s.step_touched c hs)⟩
  exact (foldl_invariant hstep ⟨h, hdead⟩ calls).2

/-- Once the init of a first `fa_up` has completed, whatever the hardware answers
and whichever calls are made: no connection is cached twice and a lookup finds
exactly the cached ones; each has a row of its own among the four its CRC names,
marked as used; and the flow count is the number of cached connections. -/
theorem cache_sound {hw : Hw} (hdone : hw.now.busy = false) (calls : List Call) :
    let fai := (calls.foldl Etc.step (Etc.start hw)).fai
    (fai.flows.map FaNapt.id).Nodup ∧
    (∀ t napt, faNaptLkupLl fai false t = some napt ↔ napt ∈ fai.flows ∧ napt.id = t.id) ∧
    (fai.flows.map (·.nfi.naptIdx)).Nodup ∧
    (∀ napt ∈ fai.flows, fai.ftable napt.nfi.naptIdx = true ∧
      napt.nfi.naptIdx / 4 = (faCrcCcitt initCrcccittTab napt.tuple &&& 0xff).toNat) ∧
    fai.nflows.toNat = fai.flows.length := by
  have h := run_cached (Etc.start_fai hdone) calls
  refine ⟨h.ids, fun t napt => h.lookup_eq_some_iff, h.slots, fun napt hmem => ?_,
    h.nflows_toNat⟩
  refine ⟨h.marked napt hmem, ?_⟩
  rw [faCrcCcitt_id]
  exact h.bucket napt hmem

/-- An outbound connection. -/
def Ipc.outOf (proto : Byte) (dp : Be16) (mac : Byte) : Ipc where
  tuple := ⟨⟨0x0A00A8C0, 0, 0, 0⟩, ⟨0x01010101, 0, 0, 0⟩, 0x1000, dp, proto⟩
  vlanTci := 0
  dhost := fun _ => mac
  shost := fun _ => 0xFF
  txDevOn := true
  rxDevOn := true
  pppIfp := false
  action := CTF_ACTION_SNAT
  natIp := 0x057100CB
  natPort := 0x2000
  live := 0
  pktFaAux := false

/-- Two connections come, are looked after, and one goes. -/
def pairCalls : List Call :=
  [ .add (Ipc.outOf 6 0x5000 2) false true, .live (Ipc.outOf 6 0x5000 2) false,
    .add (Ipc.outOf 6 0xBB01 3) false true, .conntrack (Ipc.outOf 6 0xBB01 3) false,
    .del (Ipc.outOf 6 0x5000 2) false ]

/-- Four connections of one bucket, which differ in a protocol that is not TCP. -/
def oneBucket : List Call :=
  [17, 1, 2, 3].map fun proto => .add (Ipc.outOf proto 0x5000 2) false true

theorem cache_sound_oneBucket :
    let fai := (oneBucket.foldl Etc.step (Etc.start Hw.idle)).fai
    fai.flows.length = 4 ∧ (fai.flows.map (·.nfi.naptIdx)).Nodup := by
  obtain ⟨-, -, hslots, -, hcount⟩ := @cache_sound Hw.idle rfl oneBucket
  exact ⟨hcount.symm.trans (by decide +kernel), hslots⟩

/-- `fa_down` forgets the rows of the flows it flushes: a bucket that was full
then refuses every connection for good, whatever is called afterwards. -/
theorem down_loses_rows {start : Etc} (hstart : start.fai = FaInfo.started)
    (before after : List Call) (ipc : Ipc) (v6 mem : Bool) (hw' : Hw) :
    let s := before.foldl Etc.step start
    let s' := after.foldl Etc.step (s.step .down)
    s.fai.accMode ≠ .bypass → s.hw.now.busy = false →
    (∀ i < 4, ∃ napt ∈ s.fai.flows,
      napt.nfi.naptIdx = (faCrcCcitt initCrcccittTab ipc.tuple &&& 0xff).toNat * 4 + i) →
    ((faNaptAdd s'.fai ipc v6 mem).run Hw.perform hw').1 = (.error, s'.fai) := by
  intro s s' hmode hdone hfull
  have hs : s.fai.Cached := run_cached hstart before
  obtain ⟨nhi, hdown⟩ := hs.faDown_run hmode hdone
  have hstep : (s.step .down).fai = s.fai.flushed nhi := by
    simp only [Etc.step, Call.prog, Prog.run_bind, hdown]
    rfl
  have hs' : s'.fai.Cached := run_cached_of (hs.touched (s.step_touched .down hs)) after
  have hused : ∀ i < 4,
      s'.fai.ftable ((faCrcCcitt initCrcccittTab ipc.tuple &&& 0xff).toNat * 4 + i) = true := by
    intro i hi
    obtain ⟨napt, hmem, hidx⟩ := hfull i hi
    have hdead : (s.step .down).fai.Dead napt.nfi.naptIdx := by
      rw [hstep]
      have hflows : (s.fai.flushed nhi).flows = [] := FaInfo.flows_empty rfl
      exact ⟨hs.marked napt hmem, by simp [hflows]⟩
    rw [← hidx]
    exact (run_dead (hs.touched (s.step_touched .down hs)) hdead after).1
  have hbucket : freeBucket s'.fai ipc.tuple = none := by
    refine List.find?_eq_none.mpr fun naptIdx hin => ?_
    obtain ⟨i, hi, rfl⟩ := List.mem_map.mp hin
    rw [hs'.tab, CTF_MAX_BUCKET_INDEX, hused i (List.mem_range.mp hi)]
    decide
  rw [faNaptAdd, hbucket]
  cases ipc.txDevOn <;> cases ipc.rxDevOn <;> cases v6 <;> cases ipc.pppIfp <;> rfl

/-- After four of one bucket, a `fa_down` and another `fa_up` a fifth is refused,
though nothing is cached. -/
theorem down_loses_rows_oneBucket :
    ((faNaptAdd ([Call.up .normal].foldl Etc.step
      ((oneBucket.foldl Etc.step (Etc.start Hw.idle)).step .down)).fai
      (Ipc.outOf 4 0x5000 2) false true).run Hw.perform Hw.idle).1.1 = .error :=
  congrArg Prod.fst (down_loses_rows (Etc.start_fai rfl) oneBucket [Call.up .normal]
    (Ipc.outOf 4 0x5000 2) false true Hw.idle (by decide +kernel) (by decide +kernel)
    (by decide +kernel))

end R8000Plus.Vendor

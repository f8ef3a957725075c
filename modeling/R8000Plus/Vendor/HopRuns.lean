import R8000Plus.Vendor.CacheRuns
import R8000Plus.Vendor.RowView

/-!
The next-hop functions on hardware that answers in time: adding and deleting
keep the pool in order for the flows that hold an index, as long as no index is
put back while the free list is empty.
-/

namespace R8000Plus.Vendor

open Effects Fa

/-- The next hops of the cached flows. -/
def FaInfo.holders (fai : FaInfo) : List (Byte × Mac) :=
  fai.flows.map fun napt => (napt.nhIdx, napt.dhost)

/-- Whatever is not a next-hop row is as before. -/
def OnlyHops (v v' : Tables) : Prop := ∀ addr, addr.table ≠ 2 → v' addr = v addr

theorem OnlyHops.refl (v : Tables) : OnlyHops v v := fun _ _ => rfl

theorem onlyHops_viewWith (v : Tables) (i : Byte) (words : List Word) :
    OnlyHops v (Hw.viewWith v ⟨2, i.toNat⟩ words) := by
  intro addr htable
  have hne : addr ≠ ⟨2, i.toNat⟩ := by
    rintro rfl
    exact htable rfl
  rw [Hw.viewWith, Function.update_of_ne hne]

theorem and_index {i : Byte} (h : i.toNat < CTF_MAX_NEXTHOP_TABLE_INDEX) : i &&& 127 = i := by
  apply BitVec.eq_of_toNat_eq
  rw [BitVec.toNat_and]
  exact (Nat.and_two_pow_sub_one_eq_mod i.toNat 7).trans (Nat.mod_eq_of_lt h)

section Find

variable {fai : FaInfo} {macs : Byte → Mac}

/-- The hint is the index of the MAC's holders. -/
theorem nhopHint_known (h : Booked fai.nhi.ref macs fai.holders) {mac : Mac}
    (hknown : ∃ a ∈ fai.holders, a.2 = mac) : (nhopHint fai mac, mac) ∈ fai.holders := by
  rw [nhopHint]
  cases hfind : fai.flows.find? fun napt => napt.dhost = mac with
  | none =>
      obtain ⟨a, ha, heq⟩ := hknown
      obtain ⟨napt, hmem, rfl⟩ := List.mem_map.mp ha
      have hno := List.find?_eq_none.mp hfind napt hmem
      exact absurd heq (by simpa using hno)
  | some napt =>
      have hmac : napt.dhost = mac := by simpa using List.find?_some hfind
      have hin : (napt.nhIdx, napt.dhost) ∈ fai.holders :=
        List.mem_map.mpr ⟨napt, List.mem_of_find?_eq_some hfind, rfl⟩
      have hlt := (h.stored _ hin).1
      dsimp only
      rw [if_neg (lt_full hlt), ← hmac]
      exact hin

theorem nhopHint_unknown {mac : Mac} (hnew : ∀ a ∈ fai.holders, a.2 ≠ mac) :
    nhopHint fai mac = 0 := by
  rw [nhopHint]
  have hfind : fai.flows.find? (fun napt => napt.dhost = mac) = none := by
    refine List.find?_eq_none.mpr fun napt hmem => ?_
    simpa using hnew _ (List.mem_map.mpr ⟨napt, hmem, rfl⟩)
  rw [hfind]

end Find

variable {fai : FaInfo} {hw : Hw}

theorem faFindNhop_known (hp : hw.Prompt)
    (h : Booked fai.nhi.ref (nhMacs hw.view) fai.holders) (tb : FaNapt) {nh : NhopEntry}
    (hknown : ∃ a ∈ fai.holders, a.2 = nh.nhMac) :
    ∃ idx hw', (faFindNhop fai tb nh).run Hw.perform hw =
        ((.ok, fai.withNhi (fai.nhi.incRef idx), { tb with nhIdx := idx }), hw') ∧
      hw'.Prompt ∧ hw'.view = hw.view ∧ (idx, nh.nhMac) ∈ fai.holders := by
  have hin := nhopHint_known h hknown
  obtain ⟨hlt, hmac, -⟩ := h.stored _ hin
  have hrows : CTF_MAX_NEXTHOP_TABLE_INDEX - (nhopHint fai nh.nhMac).toNat =
      CTF_MAX_NEXTHOP_TABLE_INDEX - (nhopHint fai nh.nhMac).toNat - 1 + 1 := by
    dsimp only at hlt
    omega
  obtain ⟨hw', hrun, hprompt, hview⟩ := scanNhop_hit hp
    (CTF_MAX_NEXTHOP_TABLE_INDEX - (nhopHint fai nh.nhMac).toNat - 1) hmac
  refine ⟨nhopHint fai nh.nhMac, hw', ?_, hprompt, hview, hin⟩
  rw [← hrows] at hrun
  rw [faFindNhop, Prog.run_bind_of_eq _ hrun]
  simp only [if_true, and_index hlt]
  rfl

theorem faFindNhop_unknown (hp : hw.Prompt)
    (h : Booked fai.nhi.ref (nhMacs hw.view) fai.holders) (tb : FaNapt) {nh : NhopEntry}
    (hne : nh.nhMac ≠ 0) (hnew : ∀ a ∈ fai.holders, a.2 ≠ nh.nhMac) :
    ∃ hw', (faFindNhop fai tb nh).run Hw.perform hw = ((.notFound, fai, tb), hw') ∧
      hw'.Prompt ∧ hw'.view = hw.view := by
  obtain ⟨i, hw', hrun, hprompt, hview⟩ := scanNhop_miss hp CTF_MAX_NEXTHOP_TABLE_INDEX 0 rfl
    fun i hi => h.macs_ne hne hnew hi
  refine ⟨hw', ?_, hprompt, hview⟩
  have hzero : CTF_MAX_NEXTHOP_TABLE_INDEX - (0 : Byte).toNat = CTF_MAX_NEXTHOP_TABLE_INDEX := rfl
  rw [faFindNhop, nhopHint_unknown hnew, hzero, Prog.run_bind_of_eq _ hrun]
  rfl

/-- A new MAC is written at the head of the free list, whatever that is. -/
theorem faAddNhopEntry_new (hp : hw.Prompt)
    (h : Booked fai.nhi.ref (nhMacs hw.view) fai.holders) (tb : FaNapt) {nh : NhopEntry}
    (hlt : fai.nhi.freeIdx.toNat < CTF_MAX_NEXTHOP_TABLE_INDEX) (hne : nh.nhMac ≠ 0)
    (hnew : ∀ a ∈ fai.holders, a.2 ≠ nh.nhMac) :
    ∃ hw', (faAddNhopEntry fai tb nh).run Hw.perform hw =
        ((.ok, fai.withNhi (fai.nhi.getNext.incRef fai.nhi.freeIdx),
          { tb with nhIdx := fai.nhi.freeIdx }), hw') ∧ hw'.Prompt ∧
      OnlyHops hw.view hw'.view ∧
      nhMacs hw'.view = Function.update (nhMacs hw.view) fai.nhi.freeIdx nh.nhMac := by
  have hpeek : fai.nhi.peekNext ≠ NHOP_FULL := lt_full hlt
  obtain ⟨hw₁, hfind, hprompt₁, hview₁⟩ := faFindNhop_unknown hp h tb hne hnew
  let d := ctfFaSetNhEntry nh.nhMac nh.l2Ftype nh.tagOp (nh.vlanTci.setWidth 32)
  obtain ⟨hw', hrun, hprompt, hview⟩ := faWriteNhopEntry_run hprompt₁ d fai.nhi.freeIdx
  refine ⟨hw', ?_, hprompt, ?_, ?_⟩
  · rw [faAddNhopEntry, if_neg hpeek, Prog.run_bind_of_eq _ hfind]
    dsimp only
    rw [if_neg (by simp), NextHop.peekNext, Prog.run_bind_of_eq _ hrun]
    simp only [if_true, and_index hlt]
    rfl
  · rw [hview, hview₁]
    exact onlyHops_viewWith _ _ _
  · rw [hview, nhMacs_viewWith _ _ _ (by simp [d, NH_ROW_WORDS]), hview₁]
    exact congrArg _ (ctfFaGetNhDa_row ..)

/-- With an index left, a flow gets one that decodes to its MAC. -/
theorem faAddNhopEntry_run (hp : hw.Prompt)
    (h : Interned fai.nhi (nhMacs hw.view) fai.holders) (tb : FaNapt) (nh : NhopEntry)
    (hfull : fai.nhi.freeIdx ≠ NHOP_FULL) (hne : nh.nhMac ≠ 0) :
    ∃ nhi idx hw', (faAddNhopEntry fai tb nh).run Hw.perform hw =
        ((.ok, fai.withNhi nhi, { tb with nhIdx := idx }), hw') ∧ hw'.Prompt ∧
      OnlyHops hw.view hw'.view ∧
      Interned nhi (nhMacs hw'.view) ((idx, nh.nhMac) :: fai.holders) := by
  by_cases hknown : ∃ a ∈ fai.holders, a.2 = nh.nhMac
  · obtain ⟨idx, hw', hrun, hprompt, hview, hin⟩ := faFindNhop_known hp h.booked tb hknown
    have hpeek : fai.nhi.peekNext ≠ NHOP_FULL := hfull
    refine ⟨fai.nhi.incRef idx, idx, hw', ?_, hprompt, ?_, ?_⟩
    · rw [faAddNhopEntry, if_neg hpeek, Prog.run_bind_of_eq _ hrun]
      rfl
    · rw [hview]
      exact OnlyHops.refl _
    · rw [hview]
      exact h.share hin
  · have hnew : ∀ a ∈ fai.holders, a.2 ≠ nh.nhMac := fun a ha heq => hknown ⟨a, ha, heq⟩
    obtain ⟨hw', hrun, hprompt, honly, hmacs⟩ :=
      faAddNhopEntry_new hp h.booked tb (h.head_free hfull).1 hne hnew
    refine ⟨_, _, hw', hrun, hprompt, honly, ?_⟩
    rw [hmacs]
    exact h.intern hfull hne hnew

section Delete

variable (fai) {npi : FaNapt} {mac : Mac} {holders : List (Byte × Mac)}

/-- The last reference to an index goes: its row is cleared and it is put back. -/
theorem faDeleteNhopEntry_last (hp : hw.Prompt)
    (h : Booked fai.nhi.ref (nhMacs hw.view) ((npi.nhIdx, mac) :: holders))
    (hlen : holders.length + 1 < 2 ^ 16) (hlast : ∀ a ∈ holders, a.1 ≠ npi.nhIdx) :
    ∃ hw', (faDeleteNhopEntry fai npi).run Hw.perform hw =
        (fai.withNhi ((fai.nhi.decRef npi.nhIdx).putNext npi.nhIdx), hw') ∧ hw'.Prompt ∧
      OnlyHops hw.view hw'.view ∧
      nhMacs hw'.view = Function.update (nhMacs hw.view) npi.nhIdx 0 := by
  obtain ⟨hw', hrun, hprompt, hview⟩ := faWriteNhopEntry_run hp [0, 0, 0] npi.nhIdx
  refine ⟨hw', ?_, hprompt, ?_, ?_⟩
  · rw [faDeleteNhopEntry, if_neg (h.ref_ne_zero hlen),
      if_pos ((h.decRef_eq_zero_iff (by omega)).mpr hlast), Prog.run_bind_of_eq _ hrun]
    rfl
  · rw [hview]
    exact onlyHops_viewWith _ _ _
  · have hzero : ctfFaGetNhDa (ofWords [0, 0, 0]) = 0 := by decide
    rw [hview, nhMacs_viewWith _ _ _ rfl, hzero]

/-- A flow's reference goes back, unless it is the last one to its index and the
free list is empty. -/
theorem faDeleteNhopEntry_run (hp : hw.Prompt)
    (h : Interned fai.nhi (nhMacs hw.view) ((npi.nhIdx, mac) :: holders))
    (hlen : holders.length + 1 < 2 ^ 16)
    (hsafe : fai.nhi.freeIdx = NHOP_FULL → ∃ a ∈ holders, a.1 = npi.nhIdx) :
    ∃ nhi hw', (faDeleteNhopEntry fai npi).run Hw.perform hw = (fai.withNhi nhi, hw') ∧
      hw'.Prompt ∧ OnlyHops hw.view hw'.view ∧ Interned nhi (nhMacs hw'.view) holders := by
  by_cases hheld : ∃ a ∈ holders, a.1 = npi.nhIdx
  · refine ⟨_, hw, ?_, hp, OnlyHops.refl _, h.unshare hheld⟩
    have hpos : (fai.nhi.decRef npi.nhIdx).ref npi.nhIdx ≠ 0 := by
      intro hzero
      obtain ⟨a, ha, heq⟩ := hheld
      exact (h.booked.decRef_eq_zero_iff (by omega)).mp hzero a ha heq
    rw [faDeleteNhopEntry, if_neg (h.booked.ref_ne_zero hlen), if_neg hpos]
    rfl
  · have hlast : ∀ a ∈ holders, a.1 ≠ npi.nhIdx := fun a ha heq => hheld ⟨a, ha, heq⟩
    obtain ⟨hw', hrun, hprompt, honly, hmacs⟩ :=
      faDeleteNhopEntry_last fai hp h.booked hlen hlast
    refine ⟨_, hw', hrun, hprompt, honly, ?_⟩
    rw [hmacs]
    exact h.release hlast fun hfull => hheld (hsafe hfull)

end Delete

end R8000Plus.Vendor

import R8000Plus.Fa.Lifecycle
import R8000Plus.Fa.Performs
import R8000Plus.Fa.Traced

/-!
Next hops across unload and reload, at every moment of a run. Unloading gives
all slots back and leaves the tables alone, so a slot taken later may still
have a valid row of an earlier flow.
-/

namespace R8000Plus.Fa

open Effects

/-! ### Accesses that are performed -/

namespace Dev.Performs

variable {d : Dev}

theorem sameNh_wrote (h : d.Performs) (addr : RowAddr) (row : List Word) :
    (d.rows.setRow addr (ofWords row)).SameNh (d.wrote addr row).rows := by
  simp only [Dev.wrote, Fate.landed_of_idle h.idle]
  exact (Tables.sameNh_counted _ _).setRow _ _

theorem sameNh_wasRead (d : Dev) : d.rows.SameNh d.wasRead.rows :=
  (Tables.sameNh_counted _ _).trans (Tables.sameNh_counted _ _)

theorem sameNh_afterVerify (h : d.Performs) (addr : RowAddr) (row : List Word) :
    (d.rows.setRow addr (ofWords row)).SameNh (d.afterVerify addr row).rows := by
  simp only [Dev.afterVerify, h.idle, if_true]
  exact (h.sameNh_wrote addr row).trans (sameNh_wasRead _)

end Dev.Performs

/-! ### Callbacks -/

namespace Traced

/-- A callback program run access by access. -/
def callRun {α : Type} (nh : Option (List Word)) (p : CallProg α) (s : Traced) : α × Traced :=
  (p.expand Call.body).run (perform nh) s

/-- No valid NF row loses its next hop at any moment of a callback program. -/
def KeptIn {α : Type} (nh : Option (List Word)) (p : CallProg α) (s : Traced) : Prop :=
  (p.expand Call.body).Always (perform nh) Kept s

section Calls

variable {α β : Type} (nh : Option (List Word))

theorem callRun_bind (p : CallProg α) (f : α → CallProg β) (s : Traced) :
    callRun nh (p >>= f) s = callRun nh (f (callRun nh p s).1) (callRun nh p s).2 := by
  rw [callRun, Prog.expand_bind, Prog.run_bind]
  rfl

theorem keptIn_bind (p : CallProg α) (f : α → CallProg β) (s : Traced) :
    KeptIn nh (p >>= f) s ↔
      KeptIn nh p s ∧ KeptIn nh (f (callRun nh p s).1) (callRun nh p s).2 := by
  rw [KeptIn, Prog.expand_bind, Prog.always_bind]
  rfl

theorem callRun_accel (p : CallProg α) (s : Traced) :
    ((callRun nh p s).1, (callRun nh p s).2.accel) = p.run Accel.call s.accel := by
  rw [callRun, run_accel, Prog.run_expand]
  rfl

theorem keptIn_quiet {p : CallProg α} (hp : (p.expand Call.body).Uses Access.Quiet) {s : Traced}
    (hkept : s.Kept) : KeptIn nh p s :=
  hp.always (perform nh) Kept (kept_quiet nh) hkept

theorem callRun_nhOf_quiet {p : CallProg α} (hp : (p.expand Call.body).Uses Access.Quiet)
    (s : Traced) : (callRun nh p s).2.nhOf = s.nhOf :=
  (run_quiet nh hp s).2

end Calls

theorem callMaccRead_quiet (table idx : Word) (n : Nat) :
    ((callMaccRead table idx n).expand Call.body).Uses Access.Quiet :=
  (faMaccRead_quiet table idx n).bind fun _ => trivial

theorem verify_quiet (table idx : Word) (row : List Word) (ok : Bool) :
    ((if ok then do
        let (ok, readback) ← callMaccRead table idx row.length
        return ok && readback == row
      else return false : CallProg Bool).expand Call.body).Uses Access.Quiet := by
  split
  · exact (faMaccRead_quiet table idx row.length).bind fun _ => trivial
  · trivial

theorem callMaccWrite_keptIn (nh : Option (List Word)) (table idx : Word) (words : List Word)
    (s : Traced) :
    KeptIn nh (callMaccWrite table idx words) s ↔
      (faMaccWrite table idx words).Always (perform nh) Kept s := by
  rw [KeptIn, callMaccWrite, Prog.request, Prog.expand, Prog.always_bind]
  simp [Prog.expand, Call.body]

theorem callMaccWrite_callRun (nh : Option (List Word)) (table idx : Word) (words : List Word)
    (s : Traced) :
    callRun nh (callMaccWrite table idx words) s =
      (faMaccWrite table idx words).run (perform nh) s := by
  rw [callRun, callMaccWrite, Prog.request, Prog.expand, Prog.run_bind]
  rfl

section Verified

variable (nh : Option (List Word)) (s : Traced) (table idx : Word) (row : List Word)
variable (addr : RowAddr) (ht : table.toNat < 2 ^ 2) (hi : idx.toNat < 2 ^ 10)
variable (haddr : addr = ⟨table.toNat, idx.toNat⟩) (hpos : 0 < row.length)
variable (hlen : row.length = addr.words) (hidle : s.accel.dev.nextFate.idle = true)

include ht hi haddr hpos hlen hidle

theorem writeVerified_nhOf :
    (callRun nh (writeVerified table idx row) s).2.nhOf = s.nhOfAt nh addr 0 := by
  rw [writeVerified, callRun_bind, callRun_nhOf_quiet nh (verify_quiet table idx row _),
    callMaccWrite_callRun]
  exact faMaccWrite_nhOf nh s table idx row addr ht hi haddr hpos hlen hidle

theorem writeVerified_kept_iff (hkept : s.Kept) :
    KeptIn nh (writeVerified table idx row) s ↔
      ∀ m < row.length, (s.accel.dev.countedRows.partly s.accel.dev.store addr row m).NhKept
        (s.nhOfAt nh addr m) := by
  rw [writeVerified, keptIn_bind, callMaccWrite_keptIn,
    ← faMaccWrite_kept_iff nh s table idx row addr ht hi haddr hpos hlen hidle hkept,
    callMaccWrite_callRun]
  refine and_iff_left_of_imp fun halways => keptIn_quiet nh (verify_quiet table idx row _) ?_
  exact Prog.always_run (perform nh) Kept _ s hkept halways

end Verified

/-- The state between callbacks as long as no next hop was lost. -/
structure Steady (s : Traced) : Prop where
  indexed : s.accel.flows.Indexed
  performs : s.accel.dev.Performs
  kept : s.Kept
  own : s.OwnNh

/-- When slot `i` can take a flow with next hop `nh`: a valid row there, if any,
is of a flow with that next hop; and where rows are stored word by word, the
index that is in the NF row already leads to that next hop. -/
structure RowsFit (s : Traced) (nh : List Word) (i : Slot) : Prop where
  stale : nfValid (s.accel.dev.rows (nfRowAt i.idx)) = true → ∀ old, s.nhOf i.idx = some old →
    SameNextHop old nh
  index : s.accel.dev.store = .wordByWord →
    (nfNhIdx (s.accel.dev.rows (nfRowAt i.idx))).toNat = i.idx ∨
      ∀ j < NH_ROW_WORDS, s.accel.dev.rows.nhUnder i.idx j = ofWords nh j

section Replace

variable {s : Traced} (h : s.Steady) (cookie : Cookie) (d : Decoded) (i : Slot)

/-- The state with slot `i` taken. -/
def withSlot (s : Traced) (cookie : Cookie) (i : Slot) : Traced where
  accel := { s.accel with flows := Function.update s.accel.flows i (Slots.taken cookie i) }
  nhOf := s.nhOf

/-- After the next-hop row is written and verified. -/
def withNh (s : Traced) (cookie : Cookie) (d : Decoded) (i : Slot) : Traced :=
  (callRun (some d.nhRow) (writeVerified CTF_MEMACC_TBL_NH i.word d.nhRow)
    (s.withSlot cookie i)).2

include h

theorem withNh_spec :
    (∃ ctl window polled, (s.withNh cookie d i).accel.dev =
        (s.accel.dev.afterVerify (nhRowAt i.idx) d.nhRow).scratch ctl window polled) ∧
      (callRun (some d.nhRow) (writeVerified CTF_MEMACC_TBL_NH i.word d.nhRow)
        (s.withSlot cookie i)).1 = true ∧
      (s.withNh cookie d i).nhOf = s.nhOf := by
  have hrun := callRun_accel (some d.nhRow)
    (writeVerified CTF_MEMACC_TBL_NH i.word d.nhRow) (s.withSlot cookie i)
  obtain ⟨ctl, window, polled, hverify⟩ := writeVerified_nh (s.withSlot cookie i).accel i d
  rw [hverify] at hrun
  obtain ⟨hok, haccel⟩ := Prod.ext_iff.mp hrun
  refine ⟨⟨ctl, window, polled, ?_⟩, ?_, ?_⟩
  · exact congrArg Accel.dev haccel
  · exact hok.trans (h.performs.verifies_nh i.idx d.nhRow rfl)
  · rw [withNh, writeVerified_nhOf (some d.nhRow) (s.withSlot cookie i) CTF_MEMACC_TBL_NH i.word
      d.nhRow (nhRowAt i.idx) CTF_MEMACC_TBL_NH_lt (by simpa using i.idx_lt) (nhRowAt_eq i)
      (by simp [NH_ROW_WORDS]) rfl h.performs.idle]
    rfl

theorem withNh_sameNh :
    (s.accel.dev.rows.setRow (nhRowAt i.idx) (ofWords d.nhRow)).SameNh
      (s.withNh cookie d i).accel.dev.rows := by
  obtain ⟨⟨ctl, window, polled, hdev⟩, -, -⟩ := withNh_spec h cookie d i
  rw [hdev]
  exact h.performs.sameNh_afterVerify _ _

theorem withNh_performs : (s.withNh cookie d i).accel.dev.Performs := by
  obtain ⟨⟨ctl, window, polled, hdev⟩, -, -⟩ := withNh_spec h cookie d i
  rw [hdev]
  exact h.performs.afterVerify _ _

theorem withNh_store : (s.withNh cookie d i).accel.dev.store = s.accel.dev.store := by
  obtain ⟨⟨ctl, window, polled, hdev⟩, -, -⟩ := withNh_spec h cookie d i
  rw [hdev]
  simp only [Dev.afterVerify]
  split <;> rfl

/-- The first half of a REPLACE: the next-hop row. -/
theorem withNh_keptIn_iff :
    KeptIn (some d.nhRow) (writeVerified CTF_MEMACC_TBL_NH i.word d.nhRow) (s.withSlot cookie i) ↔
      (nfValid (s.accel.dev.rows (nfRowAt i.idx)) = true → ∀ old, s.nhOf i.idx = some old →
        SameNextHop old d.nhRow) := by
  have hsame : s.accel.dev.rows.SameNh s.accel.dev.countedRows := Tables.sameNh_counted _ _
  rw [writeVerified_kept_iff (some d.nhRow) (s.withSlot cookie i) CTF_MEMACC_TBL_NH i.word
    d.nhRow (nhRowAt i.idx) CTF_MEMACC_TBL_NH_lt (by simpa using i.idx_lt) (nhRowAt_eq i)
    (by simp [NH_ROW_WORDS]) rfl h.performs.idle h.kept, ← hsame.valid]
  exact Tables.nhWrite_kept_iff ((hsame.nhKept _).mpr h.kept) ((hsame.ownNh _).mpr h.own) _ _ _

/-- The second half: the NF row, with the next hop in place. -/
theorem withNf_keptIn_iff (hkept : (s.withNh cookie d i).Kept) :
    KeptIn (some d.nhRow) (writeVerified CTF_MEMACC_TBL_NF i.word (d.nfRow i.word))
        (s.withNh cookie d i) ↔
      (s.accel.dev.store = .wordByWord →
        (nfNhIdx (s.accel.dev.rows (nfRowAt i.idx))).toNat = i.idx ∨
          ∀ j < NH_ROW_WORDS, s.accel.dev.rows.nhUnder i.idx j = ofWords d.nhRow j) := by
  let placed := s.accel.dev.rows.setRow (nhRowAt i.idx) (ofWords d.nhRow)
  have hsame : placed.SameNh (s.withNh cookie d i).accel.dev.countedRows :=
    (withNh_sameNh h cookie d i).trans (Tables.sameNh_counted _ _)
  have hnh : ∀ j < NH_ROW_WORDS, (s.withNh cookie d i).accel.dev.countedRows (nhRowAt i.idx) j =
      ofWords d.nhRow j := fun j hj => by
    rw [hsame.nh]
    exact Tables.setRow_apply _ _ _ _ hj
  have hidx : (nfNhIdx (ofWords (d.nfRow i.word))).toNat = i.idx := by
    have hle := i.idx_le
    simp only [FA_MAX_LIVE_FLOWS] at hle
    rw [d.nfNhIdx_nfRow i.word (by rw [Slot.word_toNat]; omega), Slot.word_toNat]
  have hkeptC : (s.withNh cookie d i).accel.dev.countedRows.NhKept (s.withNh cookie d i).nhOf :=
    ((Tables.sameNh_counted _ _).nhKept _).mpr hkept
  have hunder : placed.nhUnder i.idx =
      if (nfNhIdx (s.accel.dev.rows (nfRowAt i.idx))).toNat = i.idx then placed (nhRowAt i.idx)
      else s.accel.dev.rows.nhUnder i.idx := by
    have hnf : placed (nfRowAt i.idx) = s.accel.dev.rows (nfRowAt i.idx) :=
      Tables.setRow_of_ne _ _ (nfRowAt_ne_nhRowAt _ _)
    rw [Tables.nhUnder, hnf]
    by_cases hown : (nfNhIdx (s.accel.dev.rows (nfRowAt i.idx))).toNat = i.idx
    · rw [if_pos hown, hown]
    · rw [if_neg hown]
      exact Tables.setRow_of_ne _ _ fun heq => hown (congrArg RowAddr.idx heq)
  rw [writeVerified_kept_iff (some d.nhRow) (s.withNh cookie d i) CTF_MEMACC_TBL_NF i.word
    (d.nfRow i.word) (nfRowAt i.idx) CTF_MEMACC_TBL_NF_lt (by simpa using i.idx_lt)
    (nfRowAt_eq i) (by simp [NF_ROW_WORDS]) rfl (withNh_performs h cookie d i).idle hkept]
  refine (Tables.nfWrite_kept_iff hkeptC _ i.idx d.nhRow (d.nfRow i.word) (d.nfValid_nfRow _)
    hidx hnh).trans ?_
  rw [withNh_store h, hsame.nhUnder, hunder]
  refine imp_congr_right fun _ => ?_
  by_cases hown : (nfNhIdx (s.accel.dev.rows (nfRowAt i.idx))).toNat = i.idx
  · simp only [hown, if_true, true_or, iff_true]
    exact fun j hj => Tables.setRow_apply _ _ _ _ hj
  · simp [hown]

/-- What `fa_flow_replace_live` does once both rows have been tried. -/
def finishReplace (f : Slot) (ok : Bool) : CallProg Int := do
  if !ok then
    faFlowFree f
    return -EOPNOTSUPP
  return 0

omit h in
theorem finishReplace_quiet (ok : Bool) :
    ((finishReplace i ok).expand Call.body).Uses Access.Quiet := by
  cases ok with
  | false => exact ⟨trivial, fun _ => trivial⟩
  | true => trivial

omit h in
theorem faFlowReplaceLive_eq (rule : FlowRule) (hrefused : (faDecodeRule rule).refused = false) :
    faFlowReplaceLive cookie rule = faFlowAlloc cookie >>= fun
      | none => .ret (-EOPNOTSUPP)
      | some f => loadFlow f >>= fun fl =>
          writeVerified CTF_MEMACC_TBL_NH fl.nhIdx (faDecodeRule rule).nhRow >>= fun ok =>
            (if ok then
                writeVerified CTF_MEMACC_TBL_NF fl.nfIdx ((faDecodeRule rule).nfRow fl.nhIdx)
              else .ret false) >>= finishReplace f := by
  rw [faFlowReplaceLive]
  simp only [hrefused, Bool.false_eq_true, if_false]
  refine congrArg (faFlowAlloc cookie >>= ·) (funext fun slot => ?_)
  cases slot with
  | none => rfl
  | some f =>
      refine congrArg (loadFlow f >>= ·) (funext fun fl => ?_)
      refine congrArg (writeVerified CTF_MEMACC_TBL_NH fl.nhIdx (faDecodeRule rule).nhRow >>= ·)
        (funext fun ok => ?_)
      cases ok <;> rfl

omit h in
/-- A REPLACE that finds a slot, up to its first row write. -/
theorem replaceLive_head (rule : FlowRule) (nh : Option (List Word))
    (hrefused : (faDecodeRule rule).refused = false)
    (hfree : s.accel.flows.firstFree = some i) :
    callRun nh (faFlowReplaceLive cookie rule) s =
        callRun nh (writeVerified CTF_MEMACC_TBL_NH i.word (faDecodeRule rule).nhRow >>= fun ok =>
          (if ok then writeVerified CTF_MEMACC_TBL_NF i.word ((faDecodeRule rule).nfRow i.word)
            else .ret false) >>= finishReplace i) (s.withSlot cookie i) ∧
      (s.Kept → (KeptIn nh (faFlowReplaceLive cookie rule) s ↔
        KeptIn nh (writeVerified CTF_MEMACC_TBL_NH i.word (faDecodeRule rule).nhRow >>= fun ok =>
          (if ok then writeVerified CTF_MEMACC_TBL_NF i.word ((faDecodeRule rule).nfRow i.word)
            else .ret false) >>= finishReplace i) (s.withSlot cookie i))) := by
  have halloc : callRun nh (faFlowAlloc cookie) s = (some i, s.withSlot cookie i) := by
    simp [callRun, faFlowAlloc, Prog.request, Prog.expand, Call.body, perform, Accel.perform,
      Slots.alloc_some hfree, Dev.storesNf, withSlot]
  have hload : callRun nh (loadFlow i) (s.withSlot cookie i) =
      (Slots.taken cookie i, s.withSlot cookie i) := by
    simp [callRun, loadFlow, Prog.request, Prog.expand, Call.body, perform, Accel.perform,
      Dev.storesNf, withSlot]
  have hallocQuiet : ((faFlowAlloc cookie).expand Call.body).Uses Access.Quiet :=
    ⟨trivial, fun _ => trivial⟩
  have hloadQuiet : ((loadFlow i).expand Call.body).Uses Access.Quiet := ⟨trivial, fun _ => trivial⟩
  rw [faFlowReplaceLive_eq cookie rule hrefused]
  constructor
  · rw [callRun_bind, halloc]
    simp only
    rw [callRun_bind, hload]
    rfl
  · intro hkept
    rw [keptIn_bind, halloc]
    simp only
    rw [keptIn_bind, hload]
    exact (and_iff_right (keptIn_quiet nh hallocQuiet hkept)).trans
      (and_iff_right (keptIn_quiet nh hloadQuiet hkept))

theorem withNh_tail :
    callRun (some d.nhRow) (writeVerified CTF_MEMACC_TBL_NH i.word d.nhRow >>= fun ok =>
        (if ok then writeVerified CTF_MEMACC_TBL_NF i.word (d.nfRow i.word)
          else .ret false) >>= finishReplace i) (s.withSlot cookie i) =
      callRun (some d.nhRow) (writeVerified CTF_MEMACC_TBL_NF i.word (d.nfRow i.word) >>=
        finishReplace i) (s.withNh cookie d i) := by
  have hok := (withNh_spec h cookie d i).2.1
  rw [callRun_bind, hok, if_pos rfl]
  rfl

/-- A REPLACE into slot `i` loses no next hop at any moment exactly when the
rows fit. -/
theorem replaceLive_keptIn_iff (rule : FlowRule)
    (hrefused : (faDecodeRule rule).refused = false)
    (hfree : s.accel.flows.firstFree = some i) :
    KeptIn (some (faDecodeRule rule).nhRow) (faFlowReplaceLive cookie rule) s ↔
      s.RowsFit (faDecodeRule rule).nhRow i := by
  have hok := (withNh_spec h cookie (faDecodeRule rule) i).2.1
  rw [(replaceLive_head cookie i rule _ hrefused hfree).2 h.kept, keptIn_bind, hok, if_pos rfl,
    keptIn_bind, withNh_keptIn_iff h cookie (faDecodeRule rule) i]
  constructor
  · rintro ⟨hstale, hnf, -⟩
    have hkept : (s.withNh cookie (faDecodeRule rule) i).Kept :=
      Prog.always_run (perform _) Kept _ (s.withSlot cookie i) h.kept
        ((withNh_keptIn_iff h cookie (faDecodeRule rule) i).mpr hstale)
    exact ⟨hstale, (withNf_keptIn_iff h cookie (faDecodeRule rule) i hkept).mp hnf⟩
  · rintro ⟨hstale, hindex⟩
    have hkept : (s.withNh cookie (faDecodeRule rule) i).Kept :=
      Prog.always_run (perform _) Kept _ (s.withSlot cookie i) h.kept
        ((withNh_keptIn_iff h cookie (faDecodeRule rule) i).mpr hstale)
    have hnf := (withNf_keptIn_iff h cookie (faDecodeRule rule) i hkept).mpr hindex
    refine ⟨hstale, hnf, keptIn_quiet _ (finishReplace_quiet i _) ?_⟩
    exact Prog.always_run (perform _) Kept _ _ hkept hnf

theorem replaceLive_nhOf (rule : FlowRule) (hrefused : (faDecodeRule rule).refused = false)
    (hfree : s.accel.flows.firstFree = some i) :
    (callRun (some (faDecodeRule rule).nhRow) (faFlowReplaceLive cookie rule) s).2.nhOf =
      s.nhOf.note (some (faDecodeRule rule).nhRow) i.idx := by
  obtain ⟨-, -, hnhOf⟩ := withNh_spec h cookie (faDecodeRule rule) i
  rw [(replaceLive_head cookie i rule _ hrefused hfree).1, withNh_tail h, callRun_bind,
    callRun_nhOf_quiet _ (finishReplace_quiet i _),
    writeVerified_nhOf _ (s.withNh cookie (faDecodeRule rule) i) CTF_MEMACC_TBL_NF i.word
      ((faDecodeRule rule).nfRow i.word) (nfRowAt i.idx) CTF_MEMACC_TBL_NF_lt
      (by simpa using i.idx_lt) (nfRowAt_eq i) (by simp [NF_ROW_WORDS]) rfl
      (withNh_performs h cookie (faDecodeRule rule) i).idle]
  simp [nhOfAt, nfRowAt, NhOf.partly, hnhOf]

/-- Both rows are in place after a REPLACE, whatever its verdict. -/
theorem replaced_sameNh :
    ((s.accel.dev.rows.setRow (nhRowAt i.idx) (ofWords d.nhRow)).setRow (nfRowAt i.idx)
        (ofWords (d.nfRow i.word))).SameNh (s.accel.replaced cookie d i).2.dev.rows := by
  have hnh := h.performs.sameNh_afterVerify (nhRowAt i.idx) d.nhRow
  have hnf := (h.performs.afterVerify (nhRowAt i.idx) d.nhRow).sameNh_afterVerify (nfRowAt i.idx)
    (d.nfRow i.word)
  simp only [Accel.replaced, h.performs.verifies_nh i.idx d.nhRow rfl, if_true]
  split <;> exact (hnh.setRow _ _).trans hnf

end Replace

section Destroy

variable {s : Traced} (h : s.Steady) (cookie : Cookie)

theorem faFlowDestroyLive_eq :
    faFlowDestroyLive cookie = faFlowFind cookie >>= fun
      | none => .ret ()
      | some f => loadFlow f >>= fun fl =>
          callMaccRead CTF_MEMACC_TBL_NF fl.nfIdx NF_ROW_WORDS >>= fun read =>
            if read.1 then
              callMaccWrite CTF_MEMACC_TBL_NF fl.nfIdx (clearValid read.2) >>= fun _ => faFlowFree f
            else faFlowFree f := rfl

/-- A row that has lost its valid bit goes back without a next hop lost. -/
theorem writeCleared_spec {s : Traced} (hkept : s.Kept) (hidle : s.accel.dev.nextFate.idle = true)
    (i : Slot) (row : List Word) (hlen : row.length = NF_ROW_WORDS) :
    KeptIn none (callMaccWrite CTF_MEMACC_TBL_NF i.word (clearValid row)) s ∧
      (callRun none (callMaccWrite CTF_MEMACC_TBL_NF i.word (clearValid row)) s).2.nhOf =
        s.nhOf := by
  have hcleared : (clearValid row).length = NF_ROW_WORDS := by simp [clearValid, hlen]
  have hflows (m : Nat) : s.nhOfAt none (nfRowAt i.idx) m = s.nhOf := by
    simp [nhOfAt, NhOf.partly, NhOf.note]
  constructor
  · rw [callMaccWrite_keptIn, faMaccWrite_kept_iff none s CTF_MEMACC_TBL_NF i.word _
      (nfRowAt i.idx) CTF_MEMACC_TBL_NF_lt (by simpa using i.idx_lt) (nfRowAt_eq i)
      (by rw [hcleared]; decide) hcleared hidle hkept]
    intro m _
    rw [hflows]
    exact Tables.clear_kept (((Tables.sameNh_counted _ _).nhKept _).mpr hkept) _ _ _
      (clearValid_nfValid row hlen) m
  · rw [callMaccWrite_callRun, faMaccWrite_nhOf none s CTF_MEMACC_TBL_NF i.word _ (nfRowAt i.idx)
      CTF_MEMACC_TBL_NF_lt (by simpa using i.idx_lt) (nfRowAt_eq i) (by rw [hcleared]; decide)
      hcleared hidle, hflows]

include h

/-- The read of a DESTROY goes idle and leaves the next hops alone. -/
theorem readNf_spec (i : Slot) :
    ∃ s1, callRun none (callMaccRead CTF_MEMACC_TBL_NF i.word NF_ROW_WORDS) s =
        ((true, s.accel.dev.readBack (nfRowAt i.idx) NF_ROW_WORDS), s1) ∧
      s1.Kept ∧ s1.accel.dev.nextFate.idle = true ∧ s1.nhOf = s.nhOf := by
  obtain ⟨ctl, window, polled, hread⟩ := faMaccRead_run s.accel CTF_MEMACC_TBL_NF i.word
    NF_ROW_WORDS (nfRowAt i.idx) CTF_MEMACC_TBL_NF_lt (by simpa using i.idx_lt) (nfRowAt_eq i)
  have hrun := callRun_accel none (callMaccRead CTF_MEMACC_TBL_NF i.word NF_ROW_WORDS) s
  rw [show (callMaccRead CTF_MEMACC_TBL_NF i.word NF_ROW_WORDS).run Accel.call s.accel = _
    from hread, h.performs.idle] at hrun
  obtain ⟨hanswer, haccel⟩ := Prod.ext_iff.mp hrun
  obtain ⟨hsame, hnhOf⟩ :=
    run_quiet none (callMaccRead_quiet CTF_MEMACC_TBL_NF i.word NF_ROW_WORDS) s
  refine ⟨_, Prod.ext hanswer rfl, ?_, ?_, hnhOf⟩
  · have hkept := h.kept
    rwa [Kept, ← hsame.nhKept, ← hnhOf] at hkept
  · simp only at haccel
    rw [haccel]
    exact (h.performs _).1

/-- A DESTROY loses no next hop at any moment, and installs none. -/
theorem destroyLive_spec :
    KeptIn none (faFlowDestroyLive cookie) s ∧
      (callRun none (faFlowDestroyLive cookie) s).2.nhOf = s.nhOf := by
  have hfindRun : callRun none (faFlowFind cookie) s = (s.accel.flows.find cookie, s) := rfl
  have hfindQuiet : ((faFlowFind cookie).expand Call.body).Uses Access.Quiet :=
    ⟨trivial, fun _ => trivial⟩
  rw [faFlowDestroyLive_eq, keptIn_bind, callRun_bind, hfindRun,
    and_iff_right (keptIn_quiet none hfindQuiet h.kept)]
  cases hfind : s.accel.flows.find cookie with
  | none => exact ⟨trivial, rfl⟩
  | some i =>
      have hidx : (s.accel.flows i).nfIdx = i.word := (h.indexed i (Slots.find_some hfind).1).2
      have hloadRun : callRun none (loadFlow i) s = (s.accel.flows i, s) := rfl
      have hloadQuiet : ((loadFlow i).expand Call.body).Uses Access.Quiet :=
        ⟨trivial, fun _ => trivial⟩
      have hfreeQuiet : ((faFlowFree i).expand Call.body).Uses Access.Quiet :=
        ⟨trivial, fun _ => trivial⟩
      have hreadQuiet := callMaccRead_quiet CTF_MEMACC_TBL_NF i.word NF_ROW_WORDS
      obtain ⟨s1, hread, hkept, hidle, hnhOf⟩ := readNf_spec h i
      have hwrite := writeCleared_spec hkept hidle i
        (s.accel.dev.readBack (nfRowAt i.idx) NF_ROW_WORDS) (by simp [Dev.readBack])
      simp only
      rw [keptIn_bind, callRun_bind, hloadRun, hidx,
        and_iff_right (keptIn_quiet none hloadQuiet h.kept), keptIn_bind, callRun_bind,
        and_iff_right (keptIn_quiet none hreadQuiet h.kept), hread]
      simp only [if_true]
      -- the read went idle, so the row is written back
      rw [keptIn_bind, callRun_bind, callRun_nhOf_quiet none hfreeQuiet, hwrite.2, hnhOf]
      refine ⟨⟨hwrite.1, keptIn_quiet none hfreeQuiet ?_⟩, rfl⟩
      exact Prog.always_run (perform none) Kept _ s1 hkept hwrite.1

theorem destroyed_sameNh (i : Slot) :
    (s.accel.dev.rows.setRow (nfRowAt i.idx)
        (ofWords (clearValid (s.accel.dev.readBack (nfRowAt i.idx) NF_ROW_WORDS)))).SameNh
      (s.accel.destroyed i).dev.rows := by
  have hread : s.accel.dev.wasRead.Performs := h.performs
  simp only [Accel.destroyed, h.performs.idle, if_true]
  exact ((Dev.Performs.sameNh_wasRead s.accel.dev).setRow _ _).trans (hread.sameNh_wrote _ _)

end Destroy

/-- The next hop a callback may put under an NF row. -/
def installs (cls : FlowClsOffload) : Option (List Word) :=
  if cls.command = .replace then some (faDecodeRule cls.rule).nhRow else none

def callback (s : Traced) (cls : FlowClsOffload) : Traced :=
  (callRun (installs cls) (faSetupBlockCb true .clsflower cls) s).2

/-- No valid NF row loses its next hop at any moment of the callback. -/
def CallbackKept (s : Traced) (cls : FlowClsOffload) : Prop :=
  KeptIn (installs cls) (faSetupBlockCb true .clsflower cls) s

/-- The condition on one callback: the slot it takes, if any, can take its
flow. -/
def CallbackFits (s : Traced) (cls : FlowClsOffload) : Prop :=
  ∀ i, s.accel.target cls = some i → s.RowsFit (faDecodeRule cls.rule).nhRow i

theorem callback_accel (s : Traced) (cls : FlowClsOffload) :
    (s.callback cls).accel = s.accel.next cls :=
  congrArg Prod.snd (callRun_accel (installs cls) (faSetupBlockCb true .clsflower cls) s)

theorem replaceLive_skip {s : Traced} (h : s.Kept) (nh : Option (List Word)) (cookie : Cookie)
    (rule : FlowRule)
    (hskip : (faDecodeRule rule).refused = true ∨ s.accel.flows.firstFree = none) :
    KeptIn nh (faFlowReplaceLive cookie rule) s ∧
      (callRun nh (faFlowReplaceLive cookie rule) s).2.nhOf = s.nhOf := by
  by_cases hrefused : (faDecodeRule rule).refused = true
  · rw [faFlowReplaceLive]
    simp only [hrefused, if_true]
    exact ⟨trivial, rfl⟩
  · have hfull := hskip.resolve_left hrefused
    have halloc : callRun nh (faFlowAlloc cookie) s = (none, s) := by
      simp [callRun, faFlowAlloc, Prog.request, Prog.expand, Call.body, perform, Accel.perform,
        Slots.alloc_none hfull, Dev.storesNf]
    have hquiet : ((faFlowAlloc cookie).expand Call.body).Uses Access.Quiet :=
      ⟨trivial, fun _ => trivial⟩
    rw [faFlowReplaceLive_eq cookie rule (by simpa using hrefused), keptIn_bind, callRun_bind,
      halloc]
    exact ⟨⟨keptIn_quiet nh hquiet h, trivial⟩, rfl⟩

/-- The step: a callback keeps all next hops at every moment exactly when the
slot it takes can take its flow. -/
theorem callbackKept_iff {s : Traced} (h : s.Steady) (cls : FlowClsOffload) :
    s.CallbackKept cls ↔ s.CallbackFits cls := by
  obtain ⟨command, cookie, rule⟩ := cls
  cases command with
  | replace =>
      have hprog : s.CallbackKept ⟨.replace, cookie, rule⟩ ↔
          KeptIn (some (faDecodeRule rule).nhRow) (faFlowReplaceLive cookie rule) s := Iff.rfl
      rw [hprog, CallbackFits]
      by_cases hskip : (faDecodeRule rule).refused = true ∨ s.accel.flows.firstFree = none
      · refine iff_of_true (replaceLive_skip h.kept _ cookie rule hskip).1 fun i htarget => ?_
        rcases hskip with hrefused | hfull
        · simp [Accel.target, hrefused] at htarget
        · simp [Accel.target, hfull] at htarget
      · rw [not_or, Bool.not_eq_true] at hskip
        obtain ⟨i, hfree⟩ := Option.ne_none_iff_exists'.mp hskip.2
        rw [replaceLive_keptIn_iff h cookie i rule hskip.1 hfree]
        simp [Accel.target, hskip.1, hfree]
  | destroy =>
      have hprog : s.CallbackKept ⟨.destroy, cookie, rule⟩ ↔
          KeptIn none (faFlowDestroyLive cookie >>= fun _ => (.ret 0 : CallProg Int)) s := Iff.rfl
      rw [hprog, keptIn_bind]
      exact iff_of_true ⟨(destroyLive_spec h cookie).1, trivial⟩ fun i htarget => by
        simp [Accel.target] at htarget
  | stats => exact iff_of_true trivial fun i htarget => by simp [Accel.target] at htarget
  | other => exact iff_of_true trivial fun i htarget => by simp [Accel.target] at htarget

/-- What a callback leaves of the tables and of the flows' record keeps each
valid row on its own next hop. -/
theorem Steady.callback_ownNh {s : Traced} (h : s.Steady) (cls : FlowClsOffload) :
    (s.callback cls).OwnNh := by
  have hout := callback_outcome s.accel cls h.indexed
  have haccel : (s.callback cls).accel = (s.accel.callback cls).2 := s.callback_accel cls
  rw [OwnNh, haccel]
  generalize (s.accel.callback cls).1 = ret at hout
  generalize (s.accel.callback cls).2 = w' at hout
  obtain ⟨command, cookie, rule⟩ := cls
  cases hout with
  | ignored hcmd =>
      have hnhOf : (s.callback ⟨command, cookie, rule⟩).nhOf = s.nhOf := by
        cases command with
        | replace => exact absurd rfl hcmd.1
        | destroy => exact absurd rfl hcmd.2
        | stats => rfl
        | other => rfl
      rw [hnhOf]
      exact h.own
  | skipped hcmd hskip =>
      obtain rfl : command = .replace := hcmd
      have hnhOf := (replaceLive_skip h.kept (some (faDecodeRule rule).nhRow) cookie rule hskip).2
      change s.accel.dev.rows.OwnNh
        (callRun (some (faDecodeRule rule).nhRow) (faFlowReplaceLive cookie rule) s).2.nhOf
      rw [hnhOf]
      exact h.own
  | replaced i w' hcmd hrefused hfree hend =>
      obtain rfl : command = .replace := hcmd
      obtain ⟨ctl, window, polled, rfl⟩ := hend
      have hle := i.idx_le
      simp only [FA_MAX_LIVE_FLOWS] at hle
      have hidx : (nfNhIdx (ofWords ((faDecodeRule rule).nfRow i.word))).toNat = i.idx := by
        rw [Decoded.nfNhIdx_nfRow _ _ (by rw [Slot.word_toNat]; omega), Slot.word_toNat]
      change (s.accel.replaced cookie (faDecodeRule rule) i).2.dev.rows.OwnNh
        (callRun (some (faDecodeRule rule).nhRow) (faFlowReplaceLive cookie rule) s).2.nhOf
      rw [replaceLive_nhOf h cookie i rule hrefused hfree,
        (replaced_sameNh h cookie (faDecodeRule rule) i).ownNh]
      exact Tables.nfWrite_ownNh (Tables.nhWrite_ownNh h.own _ _) _ _ _ hidx
  | unknown hcmd hfind =>
      obtain rfl : command = .destroy := hcmd
      have hnhOf := (destroyLive_spec h cookie).2
      change s.accel.dev.rows.OwnNh
        (callRun none (faFlowDestroyLive cookie >>= fun _ => (.ret 0 : CallProg Int)) s).2.nhOf
      rw [callRun_bind]
      exact hnhOf ▸ h.own
  | destroyed i w' hcmd hfind hend =>
      obtain rfl : command = .destroy := hcmd
      obtain ⟨ctl, window, polled, rfl⟩ := hend
      have hnhOf := (destroyLive_spec h cookie).2
      have hinvalid := clearValid_nfValid (s.accel.dev.readBack (nfRowAt i.idx) NF_ROW_WORDS)
        (by simp [Dev.readBack])
      change (s.accel.destroyed i).dev.rows.OwnNh
        (callRun none (faFlowDestroyLive cookie >>= fun _ => (.ret 0 : CallProg Int)) s).2.nhOf
      rw [callRun_bind, (destroyed_sameNh h i).ownNh]
      exact hnhOf ▸ Tables.clear_ownNh h.own _ _ hinvalid

theorem Steady.callback {s : Traced} (h : s.Steady) {cls : FlowClsOffload}
    (hfits : s.CallbackFits cls) : (s.callback cls).Steady where
  indexed := by
    rw [callback_accel]
    exact s.accel.callback_indexed cls h.indexed
  performs := by
    intro t
    rw [callback_accel, s.accel.next_fates h.indexed]
    exact h.performs t
  kept := Prog.always_run (perform _) Kept _ s h.kept ((callbackKept_iff h cls).mpr hfits)
  own := h.callback_ownNh cls

end Traced

/-! ### Loads and unloads -/

/-- The machine since power-on, with the module loaded or not. -/
structure Life where
  traced : Traced
  loaded : Bool

inductive LifeEvent where
  | load
  | callback (cls : FlowClsOffload)
  | unload

namespace Life

def powerOn (dev : Dev) : Life := ⟨⟨⟨Slots.loaded, dev⟩, fun _ => none⟩, false⟩

/-- The same machine with another slot table. -/
def withFlows (s : Life) (flows : Slots) (loaded : Bool) : Life :=
  ⟨⟨{ s.traced.accel with flows := flows }, s.traced.nhOf⟩, loaded⟩

def next (s : Life) : LifeEvent → Life
  | .load => if s.loaded then s else s.withFlows Slots.loaded true
  | .callback cls => if s.loaded then { s with traced := s.traced.callback cls } else s
  | .unload => if s.loaded then s.withFlows s.traced.accel.flows.releaseOpen.2 false else s

/-- Every valid NF row has its next hop at every moment of the event. -/
def Harmless (s : Life) : LifeEvent → Prop
  | .callback cls => s.loaded = true → s.traced.CallbackKept cls
  | e => (s.next e).traced.Kept

def Fits (s : Life) : LifeEvent → Prop
  | .callback cls => s.loaded = true → s.traced.CallbackFits cls
  | _ => True

theorem withFlows_steady {s : Life} (h : s.traced.Steady) {flows : Slots}
    (hflows : flows.Indexed) (loaded : Bool) : (s.withFlows flows loaded).traced.Steady :=
  ⟨hflows, h.performs, h.kept, h.own⟩

theorem releaseOpen_indexed (flows : Slots) : flows.releaseOpen.2.Indexed := by
  intro i hi
  simp [Slots.releaseOpen] at hi

theorem steady_next {s : Life} {e : LifeEvent} (h : s.traced.Steady) (hfits : s.Fits e) :
    (s.next e).traced.Steady := by
  cases e with
  | load =>
      simp only [next]
      split
      · exact h
      · exact withFlows_steady h Slots.loaded_indexed true
  | callback cls =>
      by_cases hloaded : s.loaded = true
      · simp only [next, hloaded, if_true]
        exact h.callback (hfits hloaded)
      · simp only [next, hloaded, Bool.false_eq_true, if_false]
        exact h
  | unload =>
      simp only [next]
      split
      · exact withFlows_steady h (releaseOpen_indexed _) false
      · exact h

theorem harmless_iff {s : Life} (h : s.traced.Steady) (e : LifeEvent) :
    s.Harmless e ↔ s.Fits e := by
  cases e with
  | load =>
      have hsteady : (s.next .load).traced.Steady := steady_next h trivial
      exact iff_of_true hsteady.kept trivial
  | callback cls => exact imp_congr_right fun _ => Traced.callbackKept_iff h cls
  | unload =>
      have hsteady : (s.next .unload).traced.Steady := steady_next h trivial
      exact iff_of_true hsteady.kept trivial

theorem powerOn_steady {dev : Dev} (h : dev.Performs) : (powerOn dev).traced.Steady :=
  ⟨Slots.loaded_indexed, h, fun _ _ _ hnone => (Option.some_ne_none _ hnone.symm).elim,
    fun _ _ _ hnone => (Option.some_ne_none _ hnone.symm).elim⟩

/-- Over a run of loads, callbacks and unloads, every valid NF row has its next
hop at every moment exactly when every slot taken can take its flow. -/
theorem harmless_run_iff (dev : Dev) (run : List LifeEvent) (h : dev.Performs) :
    EveryStep next Harmless (powerOn dev) run ↔ EveryStep next Fits (powerOn dev) run := by
  have hiff : ∀ s e, Traced.Steady (Life.traced s) → (s.Harmless e ↔ s.Fits e) :=
    fun _ e h => harmless_iff h e
  exact everyStep_congr hiff (fun _ _ h hfits => steady_next h hfits) (powerOn_steady h)

/-- One flow after a power cycle, rows stored whole. -/
theorem harmless_run_first :
    EveryStep next Harmless (powerOn (.reset .onWordZero fun _ => .clean))
      [.load, .callback ⟨.replace, 7, .toWan fun _ => 0⟩] := by
  refine (harmless_run_iff _ _ fun t => ⟨rfl, rfl⟩).mpr ⟨trivial, fun _ i htarget => ?_, trivial⟩
  have hslot : (next (powerOn (.reset .onWordZero fun _ => .clean)) .load).traced.accel.target
      ⟨.replace, 7, .toWan fun _ => 0⟩ = some ⟨0, by decide⟩ := by decide +kernel
  obtain rfl := Option.some.inj (htarget.symm.trans hslot)
  have hinvalid :
      nfValid ((next (powerOn (.reset .onWordZero fun _ => .clean)) .load).traced.accel.dev.rows
        (nfRowAt 1)) = false := by decide +kernel
  exact ⟨fun hvalid => absurd (hinvalid.symm.trans hvalid) Bool.false_ne_true, nofun⟩

/-- Unload with a flow open, load again, and install a flow with another next
hop: it gets the same slot, and while its next-hop row is being written the NF
row of the first flow is still valid. -/
theorem harmless_run_reload :
    ¬ EveryStep next Harmless (powerOn (.reset .onWordZero fun _ => .clean))
      [.load, .callback ⟨.replace, 7, .toWan fun _ => 0⟩, .unload, .load,
        .callback ⟨.replace, 8, .toWan fun _ => 1⟩] := by
  rintro ⟨hload, hfirst, hunload, hreload, hsecond, -⟩
  have h0 : (powerOn (.reset .onWordZero fun _ => .clean)).traced.Steady :=
    powerOn_steady fun t => ⟨rfl, rfl⟩
  have h1 := steady_next h0 ((harmless_iff h0 _).mp hload)
  have h2 := steady_next h1 ((harmless_iff h1 _).mp hfirst)
  have h3 := steady_next h2 ((harmless_iff h2 _).mp hunload)
  have h4 := steady_next h3 ((harmless_iff h3 _).mp hreload)
  have hfits := (harmless_iff h4 _).mp hsecond rfl ⟨0, by decide⟩ (by decide +kernel)
  have hsame := hfits.stale (by decide +kernel) ((faDecodeRule (.toWan fun _ => 0)).nhRow)
    (by decide +kernel) 0 (by decide)
  exact absurd hsame (by decide +kernel)

end Life

end R8000Plus.Fa

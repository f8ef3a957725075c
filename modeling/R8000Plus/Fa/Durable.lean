import R8000Plus.Fa.OrphanRows

/-!
What a callback leaves alone. An accepted flow keeps its slot and both of its
rows through any callbacks for other cookies, because a callback only ever
touches the rows of its own slot.
-/

namespace R8000Plus.Fa

open Effects

/-! ### Driver-written bits -/

/-- The bits of word `j` of a row that the driver writes. An NF row has a
timestamp and a hit counter of the hardware's own in front. -/
def driverBits (addr : RowAddr) (j : Nat) : Word :=
  if addr.table ≠ 0 then BitVec.allOnes 32
  else if j = 0 then 0
  else if j = 1 then ~~~7
  else BitVec.allOnes 32

/-- Two contents of a row are the same on the driver-written bits. -/
def SameRow (addr : RowAddr) (row row' : Nat → Word) : Prop :=
  ∀ j, row' j &&& driverBits addr j = row j &&& driverBits addr j

namespace SameRow

variable {addr : RowAddr} {a b c : Nat → Word}

theorem refl (addr : RowAddr) (a : Nat → Word) : SameRow addr a a := fun _ => rfl

theorem trans (hab : SameRow addr a b) (hbc : SameRow addr b c) : SameRow addr a c :=
  fun j => (hbc j).trans (hab j)

end SameRow

theorem SameRow.counted (rows : Tables) (counters : Nat → Option (Word × Word)) (addr : RowAddr) :
    SameRow addr (rows addr) (rows.counted counters addr) := by
  have hcount : ∀ word c1 : Word, ((word &&& ~~~7) ||| (c1 &&& 7)) &&& ~~~7 = word &&& ~~~7 := by
    intro word c1
    apply BitVec.eq_of_getLsbD_eq
    intro i hi
    interval_cases i <;> simp
  intro j
  by_cases htable : addr.table = 0
  · cases hc : counters addr.idx with
    | none => simp [Tables.counted, htable, hc]
    | some c =>
        by_cases h0 : j = 0
        · simp [driverBits, htable, h0]
        · by_cases h1 : j = 1
          · subst h1
            have hword := hcount (rows addr 1) c.2
            simpa [Tables.counted, htable, hc, driverBits] using hword
          · simp [Tables.counted, htable, hc, h0, h1]
  · simp [Tables.counted, htable]

/-! ### Accesses and rows -/

namespace Dev

theorem sameRow_countedRows (d : Dev) (addr : RowAddr) :
    SameRow addr (d.rows addr) (d.countedRows addr) := SameRow.counted _ _ _

theorem sameRow_wasRead (d : Dev) (addr : RowAddr) :
    SameRow addr (d.rows addr) (d.wasRead.rows addr) :=
  (SameRow.counted _ _ _).trans (SameRow.counted _ _ _)

theorem sameRow_wrote_of_ne (d : Dev) {addr other : RowAddr} (row : List Word)
    (h : other ≠ addr) : SameRow other (d.rows other) ((d.wrote addr row).rows other) := by
  simp only [wrote]
  rw [Tables.setRow_of_ne _ _ h]
  exact d.sameRow_countedRows other

theorem sameRow_afterVerify_of_ne (d : Dev) {addr other : RowAddr} (row : List Word)
    (h : other ≠ addr) :
    SameRow other (d.rows other) ((d.afterVerify addr row).rows other) := by
  simp only [afterVerify]
  split
  · exact (d.sameRow_wrote_of_ne row h).trans (sameRow_wasRead _ other)
  · exact d.sameRow_wrote_of_ne row h

/-- A write that went idle has put its words into the row. -/
theorem wrote_apply {d : Dev} (hidle : d.nextFate.idle = true) (addr : RowAddr) (row : List Word)
    (j : Nat) (hj : j < addr.words) : (d.wrote addr row).rows addr j = ofWords row j := by
  simp only [wrote, Fate.landed_of_idle hidle]
  exact Tables.setRow_apply _ _ _ _ hj

theorem afterVerify_apply {d : Dev} {addr : RowAddr} {row : List Word}
    (hok : d.verifies addr row = true) (j : Nat) (hj : j < addr.words) :
    (d.afterVerify addr row).rows addr j &&& driverBits addr j =
      ofWords row j &&& driverBits addr j := by
  have hidle : d.nextFate.idle = true := by
    simp only [verifies, Bool.and_eq_true] at hok
    exact hok.1
  simp only [afterVerify, hidle, if_true]
  rw [sameRow_wasRead _ addr j, wrote_apply hidle addr row j hj]

@[simp] theorem wrote_control (d : Dev) (addr : RowAddr) (row : List Word) :
    (d.wrote addr row).control = hwqRestored d.control := rfl

@[simp] theorem wasRead_control (d : Dev) : d.wasRead.control = hwqRestored d.control := rfl

end Dev

/-- Equal outside the HWQ_THRESHLD field. -/
def SameOutsideHwq (control control' : Word) : Prop :=
  control' &&& ~~~CTF_CTL_HWQ_THRESHLD_MASK = control &&& ~~~CTF_CTL_HWQ_THRESHLD_MASK

theorem SameOutsideHwq.trans {a b c : Word} (hab : SameOutsideHwq a b) (hbc : SameOutsideHwq b c) :
    SameOutsideHwq a c :=
  Eq.trans hbc hab

theorem sameOutsideHwq_restored (control : Word) :
    SameOutsideHwq control (hwqRestored control) := by
  apply BitVec.eq_of_getLsbD_eq
  intro i hi
  simp only [hwqRestored, CTF_CTL_HWQ_THRESHLD_MASK, CTF_CTL_HWQ_DEF_THRESHLD_VAL]
  interval_cases i <;> simp

theorem Dev.sameOutsideHwq_afterVerify (d : Dev) (addr : RowAddr) (row : List Word) :
    SameOutsideHwq d.control (d.afterVerify addr row).control := by
  simp only [afterVerify]
  split
  · rw [wasRead_control, wrote_control]
    exact (sameOutsideHwq_restored _).trans (sameOutsideHwq_restored _)
  · exact sameOutsideHwq_restored _

/-- An access that reports idle reads what is in the row; one that times out may
report anything. -/
def Dev.Faithful (d : Dev) : Prop := ∀ t, (d.fates t).idle = true → (d.fates t).seen = id

/-! ### The frame of a callback -/

/-- The bits of word `j` of an NF row that a DESTROY must leave alone. -/
def keptBits (idx j : Nat) : Word :=
  driverBits (nfRowAt idx) j &&& ~~~(if j = 6 then NF_VALID else 0)

namespace Accel

/-- The slot a callback takes, if it takes one. -/
def target (w : Accel) (cls : FlowClsOffload) : Option Slot :=
  if cls.command = .replace ∧ (faDecodeRule cls.rule).refused = false then w.flows.firstFree
  else none

/-- The slot whose rows a callback works on. -/
def ownSlot (w : Accel) (cls : FlowClsOffload) : Option Slot :=
  if cls.command = .destroy then w.flows.find cls.cookie else w.target cls

/-- What changed from `w` to `w'` is within what `cls` may change. -/
structure Frame (w : Accel) (cls : FlowClsOffload) (w' : Accel) : Prop where
  rows : ∀ addr, (∀ i, w.ownSlot cls = some i → addr ≠ nfRowAt i.idx ∧ addr ≠ nhRowAt i.idx) →
    SameRow addr (w.dev.rows addr) (w'.dev.rows addr)
  range : ∀ addr, ¬ (1 ≤ addr.idx ∧ addr.idx ≤ FA_MAX_LIVE_FLOWS) →
    SameRow addr (w.dev.rows addr) (w'.dev.rows addr)
  destroy : cls.command = .destroy → ∀ i, w.ownSlot cls = some i →
    (∀ addr, addr ≠ nfRowAt i.idx → SameRow addr (w.dev.rows addr) (w'.dev.rows addr)) ∧
      ∀ j, w'.dev.rows (nfRowAt i.idx) j &&& keptBits i.idx j =
        w.dev.rows (nfRowAt i.idx) j &&& keptBits i.idx j
  control : SameOutsideHwq w.dev.control w'.dev.control

theorem ownSlot_range {w : Accel} {cls : FlowClsOffload} {addr : RowAddr}
    (h : ¬ (1 ≤ addr.idx ∧ addr.idx ≤ FA_MAX_LIVE_FLOWS)) :
    ∀ i, w.ownSlot cls = some i → addr ≠ nfRowAt i.idx ∧ addr ≠ nhRowAt i.idx := by
  intro i _
  constructor <;>
  · rintro rfl
    exact h ⟨i.idx_pos, i.idx_le⟩

theorem Frame.of_rows {w w' : Accel} {cls : FlowClsOffload}
    (rows : ∀ addr, (∀ i, w.ownSlot cls = some i → addr ≠ nfRowAt i.idx ∧ addr ≠ nhRowAt i.idx) →
      SameRow addr (w.dev.rows addr) (w'.dev.rows addr))
    (destroy : cls.command = .destroy → ∀ i, w.ownSlot cls = some i →
      (∀ addr, addr ≠ nfRowAt i.idx → SameRow addr (w.dev.rows addr) (w'.dev.rows addr)) ∧
        ∀ j, w'.dev.rows (nfRowAt i.idx) j &&& keptBits i.idx j =
          w.dev.rows (nfRowAt i.idx) j &&& keptBits i.idx j)
    (control : SameOutsideHwq w.dev.control w'.dev.control) : w.Frame cls w' :=
  ⟨rows, fun addr hrange => rows addr (ownSlot_range hrange), destroy, control⟩

theorem Frame.refl (w : Accel) (cls : FlowClsOffload) : w.Frame cls w :=
  .of_rows (fun _ _ => .refl _ _) (fun _ _ _ => ⟨fun _ _ => .refl _ _, fun _ => rfl⟩) rfl

theorem sameRow_replaced_of_ne (w : Accel) (cookie : Cookie) (d : Decoded) {i : Slot}
    {addr : RowAddr} (hnf : addr ≠ nfRowAt i.idx) (hnh : addr ≠ nhRowAt i.idx) :
    SameRow addr (w.dev.rows addr) ((w.replaced cookie d i).2.dev.rows addr) := by
  have hfirst := w.dev.sameRow_afterVerify_of_ne d.nhRow hnh
  have hboth := hfirst.trans
    ((w.dev.afterVerify (nhRowAt i.idx) d.nhRow).sameRow_afterVerify_of_ne (d.nfRow i.word) hnf)
  simp only [replaced]
  split
  · split <;> exact hboth
  · exact hfirst

theorem replaced_control (w : Accel) (cookie : Cookie) (d : Decoded) (i : Slot) :
    SameOutsideHwq w.dev.control (w.replaced cookie d i).2.dev.control := by
  have hfirst := w.dev.sameOutsideHwq_afterVerify (nhRowAt i.idx) d.nhRow
  have hboth := hfirst.trans ((w.dev.afterVerify (nhRowAt i.idx)
    d.nhRow).sameOutsideHwq_afterVerify (nfRowAt i.idx) (d.nfRow i.word))
  simp only [replaced]
  split
  · split <;> exact hboth
  · exact hfirst

theorem sameRow_destroyed_of_ne (w : Accel) {i : Slot} {addr : RowAddr}
    (h : addr ≠ nfRowAt i.idx) :
    SameRow addr (w.dev.rows addr) ((w.destroyed i).dev.rows addr) := by
  have hread := w.dev.sameRow_wasRead addr
  simp only [destroyed]
  split
  · exact hread.trans (w.dev.wasRead.sameRow_wrote_of_ne _ h)
  · exact hread

theorem destroyed_control (w : Accel) (i : Slot) :
    SameOutsideHwq w.dev.control (w.destroyed i).dev.control := by
  have hread := sameOutsideHwq_restored w.dev.control
  simp only [destroyed]
  split
  · exact hread.trans (sameOutsideHwq_restored _)
  · exact hread

/-- The row a DESTROY writes back is the row it read, with the valid bit
cleared. -/
theorem clearValid_kept {d : Dev} (hseen : d.nextFate.seen = id) (idx j : Nat)
    (hj : j < NF_ROW_WORDS) :
    ofWords (clearValid (d.readBack (nfRowAt idx) NF_ROW_WORDS)) j &&& keptBits idx j =
      d.rows (nfRowAt idx) j &&& keptBits idx j := by
  have hback : ∀ k < NF_ROW_WORDS, ofWords (d.readBack (nfRowAt idx) NF_ROW_WORDS) k =
      d.countedRows (nfRowAt idx) k := by
    intro k hk
    simp [ofWords, Dev.readBack, hseen, hk]
  have hsame := d.sameRow_countedRows (nfRowAt idx) j
  rw [keptBits, ← BitVec.and_assoc, ← BitVec.and_assoc, ← hsame]
  by_cases h6 : j = 6
  · subst h6
    have hword : ofWords (clearValid (d.readBack (nfRowAt idx) NF_ROW_WORDS)) 6 =
        d.countedRows (nfRowAt idx) 6 &&& ~~~NF_VALID := by
      rw [← hback 6 hj]
      simp [clearValid, ofWords, Dev.readBack, NF_ROW_WORDS]
    rw [hword, if_pos rfl, BitVec.and_assoc _ _ (driverBits (nfRowAt idx) 6),
      BitVec.and_comm (~~~NF_VALID) (driverBits (nfRowAt idx) 6), ← BitVec.and_assoc,
      BitVec.and_assoc _ (~~~NF_VALID) (~~~NF_VALID), BitVec.and_self]
  · have hword : ofWords (clearValid (d.readBack (nfRowAt idx) NF_ROW_WORDS)) j =
        d.countedRows (nfRowAt idx) j := by
      rw [← hback j hj]
      simp [clearValid, ofWords, Ne.symm h6]
    rw [hword]

theorem destroyed_kept {w : Accel} (hfaithful : w.dev.Faithful) (i : Slot) (j : Nat) :
    (w.destroyed i).dev.rows (nfRowAt i.idx) j &&& keptBits i.idx j =
      w.dev.rows (nfRowAt i.idx) j &&& keptBits i.idx j := by
  have hread := w.dev.sameRow_wasRead (nfRowAt i.idx)
  have hcount := hread.trans (w.dev.wasRead.sameRow_countedRows (nfRowAt i.idx))
  have hkeep : ∀ row : Nat → Word, SameRow (nfRowAt i.idx) (w.dev.rows (nfRowAt i.idx)) row →
      row j &&& keptBits i.idx j = w.dev.rows (nfRowAt i.idx) j &&& keptBits i.idx j := by
    intro row hrow
    rw [keptBits, ← BitVec.and_assoc, ← BitVec.and_assoc, hrow j]
  cases hidle : w.dev.nextFate.idle with
  | false =>
      simp only [destroyed, hidle]
      exact hkeep _ hread
  | true =>
      simp only [destroyed, hidle, if_true, Dev.wrote, Tables.setRow, Tables.setFrom,
        Function.update_self, Nat.zero_le, true_and]
      split
      · rename_i hj
        simp only [Fate.landed]
        split
        · exact clearValid_kept (hfaithful _ hidle) i.idx j hj
        · exact hkeep _ hcount
      · exact hkeep _ hcount

end Accel

theorem Outcome.frame {w w' : Accel} {cls : FlowClsOffload} {ret : Int}
    (h : Outcome w cls ret w') (hfaithful : w.dev.Faithful) : w.Frame cls w' := by
  cases h with
  | ignored => exact .refl w cls
  | skipped => exact .refl w cls
  | unknown => exact .refl w cls
  | replaced i w' hcmd hrefused hfree hend =>
      obtain ⟨ctl, window, polled, rfl⟩ := hend
      have hown : w.ownSlot cls = some i := by
        simp [Accel.ownSlot, Accel.target, hcmd, hrefused, hfree]
      refine .of_rows (fun addr hne => ?_) (fun hdestroy => ?_) (w.replaced_control _ _ i)
      · exact w.sameRow_replaced_of_ne _ _ (hne i hown).1 (hne i hown).2
      · simp [hcmd] at hdestroy
  | destroyed i w' hcmd hfind hend =>
      obtain ⟨ctl, window, polled, rfl⟩ := hend
      have hown : w.ownSlot cls = some i := by simp [Accel.ownSlot, hcmd, hfind]
      refine .of_rows (fun addr hne => ?_) (fun _ k hk => ?_) (w.destroyed_control i)
      · exact w.sameRow_destroyed_of_ne (hne i hown).1
      · obtain rfl := Option.some.inj (hown.symm.trans hk)
        exact ⟨fun addr hne => w.sameRow_destroyed_of_ne hne, w.destroyed_kept hfaithful i⟩

/-! ### Accepted flows -/

namespace Accel

/-- Slot `i` and its two rows are as the REPLACE that took it left them. -/
structure Intact (w : Accel) (cookie : Cookie) (d : Decoded) (i : Slot) : Prop where
  slot : w.flows i = Slots.taken cookie i
  nh : ∀ j < NH_ROW_WORDS, w.dev.rows (nhRowAt (w.flows i).nhIdx.toNat) j = ofWords d.nhRow j
  nf : ∀ j < NF_ROW_WORDS,
    w.dev.rows (nfRowAt (w.flows i).nfIdx.toNat) j &&& driverBits (nfRowAt i.idx) j =
      ofWords (d.nfRow (w.flows i).nhIdx) j &&& driverBits (nfRowAt i.idx) j

theorem driverBits_nf (idx : Nat) {j : Nat} (h : 2 ≤ j) :
    driverBits (nfRowAt idx) j = BitVec.allOnes 32 := by
  have h0 : j ≠ 0 := by omega
  have h1 : j ≠ 1 := by omega
  simp [driverBits, nfRowAt, h0, h1]

theorem driverBits_nh (idx j : Nat) : driverBits (nhRowAt idx) j = BitVec.allOnes 32 := rfl

theorem sameRow_nh {idx : Nat} {row row' : Nat → Word} (h : SameRow (nhRowAt idx) row row') :
    row' = row := by
  funext j
  have hj := h j
  rwa [driverBits_nh, BitVec.and_allOnes, BitVec.and_allOnes] at hj

theorem Intact.congr {w w' : Accel} {cookie : Cookie} {d : Decoded} {i : Slot}
    (h : w.Intact cookie d i) (hslot : w'.flows i = w.flows i)
    (hnh : SameRow (nhRowAt i.idx) (w.dev.rows (nhRowAt i.idx)) (w'.dev.rows (nhRowAt i.idx)))
    (hnf : SameRow (nfRowAt i.idx) (w.dev.rows (nfRowAt i.idx)) (w'.dev.rows (nfRowAt i.idx))) :
    w'.Intact cookie d i := by
  have hnhIdx : (w.flows i).nhIdx.toNat = i.idx := by simp [h.slot]
  have hnfIdx : (w.flows i).nfIdx.toNat = i.idx := by simp [h.slot]
  have hrowNh := h.nh
  have hrowNf := h.nf
  rw [hnhIdx] at hrowNh
  rw [hnfIdx] at hrowNf
  refine ⟨hslot.trans h.slot, fun j hj => ?_, fun j hj => ?_⟩
  · rw [hslot, hnhIdx, sameRow_nh hnh]
    exact hrowNh j hj
  · rw [hslot, hnfIdx, hnf j]
    exact hrowNf j hj

/-- An accepted REPLACE leaves its slot taken and both rows as computed. -/
theorem replaced_intact {w : Accel} {cookie : Cookie} {d : Decoded} {i : Slot}
    (haccept : (w.replaced cookie d i).1 = 0) : (w.replaced cookie d i).2.Intact cookie d i := by
  obtain ⟨hnh, hnf⟩ := (replaced_accepted_iff w cookie d i).mp haccept
  have hslot : (w.replaced cookie d i).2.flows i = Slots.taken cookie i := by
    rw [replaced_flows, haccept]
    simp [Slots.taken]
  have hrows : (w.replaced cookie d i).2.dev.rows =
      ((w.dev.afterVerify (nhRowAt i.idx) d.nhRow).afterVerify (nfRowAt i.idx)
        (d.nfRow i.word)).rows := by
    simp only [replaced, hnh, hnf, if_true]
  have hkeep := sameRow_nh ((w.dev.afterVerify (nhRowAt i.idx)
    d.nhRow).sameRow_afterVerify_of_ne (d.nfRow i.word) (nfRowAt_ne_nhRowAt i.idx i.idx).symm)
  refine ⟨hslot, fun j hj => ?_, fun j hj => ?_⟩
  · rw [hslot, Slots.taken_nhIdx, Slot.word_toNat, hrows, hkeep]
    have hword := Dev.afterVerify_apply hnh j (by rwa [nhRowAt_words])
    rwa [driverBits_nh, BitVec.and_allOnes, BitVec.and_allOnes] at hword
  · rw [hslot, Slots.taken_nfIdx, Slots.taken_nhIdx, Slot.word_toNat, hrows]
    exact Dev.afterVerify_apply hnf j (by rwa [nfRowAt_words])

/-- A rule the driver accepts with slot `i`: it is not refused, the slot is the
first free one, and both rows verify. -/
structure Admits (w : Accel) (rule : FlowRule) (i : Slot) : Prop where
  refused : (faDecodeRule rule).refused = false
  free : w.flows.firstFree = some i
  nh : w.dev.verifies (nhRowAt i.idx) (faDecodeRule rule).nhRow = true
  nf : (w.dev.afterVerify (nhRowAt i.idx) (faDecodeRule rule).nhRow).verifies (nfRowAt i.idx)
    ((faDecodeRule rule).nfRow i.word) = true

theorem Admits.unique {w : Accel} {rule : FlowRule} {i k : Slot} (h : w.Admits rule i)
    (hk : w.flows.firstFree = some k) : k = i :=
  Option.some.inj (hk.symm.trans h.free)

/-- A REPLACE answers 0 exactly when the rule is admitted. -/
theorem replace_zero_iff (w : Accel) (cookie : Cookie) (rule : FlowRule) :
    (w.callback ⟨.replace, cookie, rule⟩).1 = 0 ↔ ∃ i, w.Admits rule i := by
  have hcall : w.callback ⟨.replace, cookie, rule⟩ =
      (faFlowReplaceLive cookie rule).run Accel.call w := rfl
  rw [hcall]
  by_cases hskip : (faDecodeRule rule).refused = true ∨ w.flows.firstFree = none
  · rw [faFlowReplaceLive_skip w cookie rule hskip]
    refine iff_of_false (show -EOPNOTSUPP ≠ 0 by decide) ?_
    rintro ⟨i, hrefused, hfree, -, -⟩
    rcases hskip with h | h
    · exact Bool.false_ne_true (hrefused.symm.trans h)
    · exact Option.some_ne_none i (hfree.symm.trans h)
  · rw [not_or, Bool.not_eq_true] at hskip
    obtain ⟨i, hfree⟩ := Option.ne_none_iff_exists'.mp hskip.2
    rw [(faFlowReplaceLive_run w cookie rule i hskip.1 hfree).1, replaced_accepted_iff]
    constructor
    · rintro ⟨hnh, hnf⟩
      exact ⟨i, hskip.1, hfree, hnh, hnf⟩
    · rintro ⟨k, h⟩
      obtain rfl := h.unique hfree
      exact ⟨h.nh, h.nf⟩

/-- Anything else it answers -EOPNOTSUPP. -/
theorem replace_ret (w : Accel) (cookie : Cookie) (rule : FlowRule) :
    (w.callback ⟨.replace, cookie, rule⟩).1 = 0 ∨
      (w.callback ⟨.replace, cookie, rule⟩).1 = -EOPNOTSUPP := by
  have hcall : w.callback ⟨.replace, cookie, rule⟩ =
      (faFlowReplaceLive cookie rule).run Accel.call w := rfl
  rw [hcall]
  by_cases hskip : (faDecodeRule rule).refused = true ∨ w.flows.firstFree = none
  · rw [faFlowReplaceLive_skip w cookie rule hskip]
    exact .inr rfl
  · rw [not_or, Bool.not_eq_true] at hskip
    obtain ⟨i, hfree⟩ := Option.ne_none_iff_exists'.mp hskip.2
    rw [(faFlowReplaceLive_run w cookie rule i hskip.1 hfree).1, replaced]
    split
    · split
      · exact .inl rfl
      · exact .inr rfl
    · exact .inr rfl

/-- What an admitted rule leaves behind. -/
theorem Admits.intact {w : Accel} {rule : FlowRule} {i : Slot} (h : w.Admits rule i)
    (cookie : Cookie) :
    (w.callback ⟨.replace, cookie, rule⟩).2.Intact cookie (faDecodeRule rule) i := by
  have hzero : (w.replaced cookie (faDecodeRule rule) i).1 = 0 :=
    (replaced_accepted_iff w cookie _ i).mpr ⟨h.nh, h.nf⟩
  obtain ⟨-, ctl, window, polled, hend⟩ :=
    faFlowReplaceLive_run w cookie rule i h.refused h.free
  have hcall : w.callback ⟨.replace, cookie, rule⟩ =
      (faFlowReplaceLive cookie rule).run Accel.call w := rfl
  rw [hcall, hend]
  obtain ⟨hslot, hnh, hnf⟩ := replaced_intact hzero
  exact ⟨hslot, hnh, hnf⟩

theorem callback_faithful {w : Accel} (h : w.dev.Faithful) (hindexed : w.flows.Indexed)
    (cls : FlowClsOffload) : (w.next cls).dev.Faithful := by
  intro t
  rw [w.next_fates hindexed]
  exact h t

theorem run_faithful {w : Accel} (h : w.dev.Faithful) (hindexed : w.flows.Indexed)
    (run : List FlowClsOffload) : (w.runCallbacks run).dev.Faithful := by
  have hstep : ∀ (w : Accel) cls, w.dev.Faithful ∧ w.flows.Indexed →
      (w.next cls).dev.Faithful ∧ (w.next cls).flows.Indexed :=
    fun w cls hw => ⟨w.callback_faithful hw.1 hw.2 cls, w.callback_indexed cls hw.2⟩
  exact (foldl_invariant hstep ⟨h, hindexed⟩ run).1

/-- A callback for another cookie works on another slot. -/
theorem ownSlot_ne {w : Accel} {cookie : Cookie} {d : Decoded} {i : Slot}
    (h : w.Intact cookie d i) {cls : FlowClsOffload} (hother : cls.cookie ≠ cookie) {k : Slot}
    (hk : w.ownSlot cls = some k) : k ≠ i := by
  rintro rfl
  rw [ownSlot] at hk
  split at hk
  · have hcookie := (Slots.find_some hk).2
    rw [h.slot, Slots.taken_cookie] at hcookie
    exact hother hcookie.symm
  · rw [target] at hk
    split at hk
    · have hfree := Slots.firstFree_some hk
      rw [h.slot, Slots.taken_inUse] at hfree
      exact Bool.false_ne_true hfree.symm
    · exact Option.some_ne_none _ hk.symm

theorem flows_of_ne {w w' : Accel} {cls : FlowClsOffload} {ret : Int}
    (h : Outcome w cls ret w') {i : Slot} (hne : ∀ k, w.ownSlot cls = some k → k ≠ i) :
    w'.flows i = w.flows i := by
  cases h with
  | ignored => rfl
  | skipped => rfl
  | unknown => rfl
  | replaced k w' hcmd hrefused hfree hend =>
      obtain ⟨ctl, window, polled, rfl⟩ := hend
      have hki : k ≠ i := hne k (by simp [ownSlot, target, hcmd, hrefused, hfree])
      simp only [replaced_flows]
      exact Function.update_of_ne hki.symm _ _
  | destroyed k w' hcmd hfind hend =>
      obtain ⟨ctl, window, polled, rfl⟩ := hend
      have hki : k ≠ i := hne k (by simp [ownSlot, hcmd, hfind])
      exact Slots.free_of_ne _ hki.symm

/-- The step: a callback for another cookie leaves an accepted flow intact. -/
theorem Intact.next {w : Accel} {cookie : Cookie} {d : Decoded} {i : Slot}
    (h : w.Intact cookie d i) (hfaithful : w.dev.Faithful) (hindexed : w.flows.Indexed)
    {cls : FlowClsOffload} (hother : cls.cookie ≠ cookie) : (w.next cls).Intact cookie d i := by
  have hout := callback_outcome w cls hindexed
  have hframe := hout.frame hfaithful
  have hne : ∀ k, w.ownSlot cls = some k → k ≠ i := fun k hk => ownSlot_ne h hother hk
  refine h.congr (flows_of_ne hout hne) (hframe.rows _ fun k hk => ?_)
    (hframe.rows _ fun k hk => ?_)
  · exact ⟨(nfRowAt_ne_nhRowAt _ _).symm, fun heq =>
      hne k hk (Slot.idx_injective (congrArg RowAddr.idx heq)).symm⟩
  · exact ⟨fun heq => hne k hk (Slot.idx_injective (nfRowAt_injective heq)).symm,
      nfRowAt_ne_nhRowAt _ _⟩

theorem Intact.run {w : Accel} {cookie : Cookie} {d : Decoded} {i : Slot}
    (h : w.Intact cookie d i) (hfaithful : w.dev.Faithful) (hindexed : w.flows.Indexed)
    {run : List FlowClsOffload} (hother : ∀ cls ∈ run, cls.cookie ≠ cookie) :
    (w.runCallbacks run).Intact cookie d i := by
  induction run generalizing w with
  | nil => exact h
  | cons cls run ih =>
      have hhead := hother cls List.mem_cons_self
      exact ih (h.next hfaithful hindexed hhead) (w.callback_faithful hfaithful hindexed cls)
        (w.callback_indexed cls hindexed) fun e he => hother e (List.mem_cons_of_mem _ he)

/-- In every state reachable from module load: an accepted REPLACE gets a slot
whose rows hold what was computed, and keeps all of it through any callbacks for
other cookies; and every callback stays within its frame. -/
theorem accepted_intact (dev : Dev) (pre : List FlowClsOffload) (cls : FlowClsOffload)
    (hfaithful : dev.Faithful) :
    (cls.command = .replace → (((loaded dev).runCallbacks pre).callback cls).1 = 0 →
      ∃ i : Slot, ∀ later : List FlowClsOffload, (∀ e ∈ later, e.cookie ≠ cls.cookie) →
        ((loaded dev).runCallbacks (pre ++ cls :: later)).Intact cls.cookie
          (faDecodeRule cls.rule) i) ∧
      ((loaded dev).runCallbacks pre).Frame cls (((loaded dev).runCallbacks pre).next cls) := by
  have hindexed := (loaded dev).runCallbacks_indexed pre Slots.loaded_indexed
  have hfaithful' := run_faithful (w := loaded dev) hfaithful Slots.loaded_indexed pre
  have hout := callback_outcome ((loaded dev).runCallbacks pre) cls hindexed
  refine ⟨fun hcmd hret => ?_, hout.frame hfaithful'⟩
  have hstart : ∃ i, (((loaded dev).runCallbacks pre).callback cls).2.Intact cls.cookie
      (faDecodeRule cls.rule) i := by
    rw [hret] at hout
    generalize (((loaded dev).runCallbacks pre).callback cls).2 = w' at hout ⊢
    generalize hzero : (0 : Int) = ret at hout
    cases hout with
    | ignored hother => exact absurd hcmd hother.1
    | skipped => simp [EOPNOTSUPP] at hzero
    | replaced i w' _ _ _ hend =>
        obtain ⟨ctl, window, polled, rfl⟩ := hend
        exact ⟨i, (replaced_intact hzero.symm).congr rfl (.refl _ _) (.refl _ _)⟩
    | unknown hdestroy => simp [hcmd] at hdestroy
    | destroyed _ _ hdestroy => simp [hcmd] at hdestroy
  obtain ⟨i, hintact⟩ := hstart
  refine ⟨i, fun later hother => ?_⟩
  rw [List.append_cons, runCallbacks_append, runCallbacks_append, runCallbacks_singleton]
  exact hintact.run (callback_faithful hfaithful' hindexed cls)
    (((loaded dev).runCallbacks pre).callback_indexed cls hindexed) hother

theorem accepted_intact_first :
    ∃ i : Slot, ∀ later : List FlowClsOffload, (∀ e ∈ later, e.cookie ≠ 7) →
      ((loaded (.reset .wordByWord fun _ => .clean)).runCallbacks
        (⟨.replace, 7, .toWan fun _ => 0⟩ :: later)).Intact 7
          (faDecodeRule (.toWan fun _ => 0)) i :=
  (accepted_intact (.reset .wordByWord fun _ => .clean) [] ⟨.replace, 7, .toWan fun _ => 0⟩
    fun _ _ => rfl).1 rfl (by decide +kernel)

end Accel

end R8000Plus.Fa

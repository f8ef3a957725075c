import R8000Plus.Effects.Runs
import R8000Plus.Fa.Callbacks

/-!
Valid NF rows without a slot. A callback gives a slot back on its failure
paths without knowing what became of the row, so whether the row stays valid
is decided by the accesses before.
-/

namespace R8000Plus.Fa

open Effects

/-! ### Valid bits -/

theorem Tables.counted_apply (rows : Tables) (counters : Nat → Option (Word × Word))
    (addr : RowAddr) (j : Nat) (hj : 2 ≤ j) : rows.counted counters addr j = rows addr j := by
  have h0 : j ≠ 0 := by omega
  have h1 : j ≠ 1 := by omega
  simp only [Tables.counted, h0, h1, if_false]
  split
  · rfl
  · split <;> rfl

theorem nfValid_congr {row row' : Nat → Word} (h : row 6 = row' 6) :
    nfValid row = nfValid row' := by
  rw [nfValid, nfValid, h]

theorem nfRowAt_injective : Function.Injective nfRowAt := by
  intro a b h
  exact congrArg RowAddr.idx h

theorem nfRowAt_ne_nhRowAt (a b : Nat) : nfRowAt a ≠ nhRowAt b := by
  intro h
  simpa [nfRowAt, nhRowAt] using congrArg RowAddr.table h

namespace Dev

theorem nfValid_countedRows (d : Dev) (addr : RowAddr) :
    nfValid (d.countedRows addr) = nfValid (d.rows addr) :=
  nfValid_congr (Tables.counted_apply _ _ _ 6 (by omega))

theorem nfValid_wrote_of_ne (d : Dev) {addr other : RowAddr} (row : List Word)
    (h : other ≠ addr) :
    nfValid ((d.wrote addr row).rows other) = nfValid (d.rows other) := by
  simp only [wrote]
  rw [Tables.setRow_of_ne _ _ h, nfValid_countedRows]

theorem nfValid_wrote_self (d : Dev) (idx : Nat) (row : List Word) :
    nfValid ((d.wrote (nfRowAt idx) row).rows (nfRowAt idx)) =
      if d.nextFate.reaches 6 then nfValid (ofWords row)
      else nfValid (d.rows (nfRowAt idx)) := by
  have hword := d.countedRows.setRow_apply (nfRowAt idx)
    (d.nextFate.landed (ofWords row) (d.countedRows (nfRowAt idx))) 6
    (by rw [nfRowAt_words]; decide)
  rw [← d.nfValid_countedRows]
  simp only [wrote]
  rw [nfValid_congr hword]
  by_cases hreach : d.nextFate.reaches 6 = true <;> simp [nfValid, Fate.landed, hreach]

theorem nfValid_wasRead (d : Dev) (addr : RowAddr) :
    nfValid (d.wasRead.rows addr) = nfValid (d.rows addr) := by
  simp only [wasRead]
  rw [← nfValid_countedRows]
  exact nfValid_congr (Tables.counted_apply _ _ _ 6 (by omega))

/-- The read-back does not move a valid bit, so a verified write moves it as
the write alone does. -/
theorem nfValid_afterVerify (d : Dev) (addr other : RowAddr) (row : List Word) :
    nfValid ((d.afterVerify addr row).rows other) =
      nfValid ((d.wrote addr row).rows other) := by
  simp only [afterVerify]
  split
  · rw [nfValid_wasRead]
  · rfl

theorem verifies_reaches {d : Dev} {addr : RowAddr} {row : List Word}
    (h : d.verifies addr row = true) (j : Nat) : d.nextFate.reaches j = true := by
  simp only [verifies, Bool.and_eq_true] at h
  simp [Fate.reaches, h.1]

end Dev

theorem clearValid_nfValid (row : List Word) (hlen : row.length = NF_ROW_WORDS) :
    nfValid (ofWords (clearValid row)) = false := by
  have hword : ofWords (clearValid row) 6 = ofWords row 6 &&& ~~~NF_VALID := by
    simp [clearValid, ofWords, hlen, NF_ROW_WORDS]
  rw [nfValid, hword]
  simp [NF_VALID]

/-! ### The property and the condition -/

namespace Accel

/-- Every valid NF row of the driver's index range is the NF row of a slot in
use. -/
def NoOrphanRow (w : Accel) : Prop :=
  ∀ idx, 1 ≤ idx → idx ≤ FA_MAX_LIVE_FLOWS → nfValid (w.dev.rows (nfRowAt idx)) = true →
    ∃ i, (w.flows i).inUse = true ∧ (w.flows i).nfIdx.toNat = idx

/-- When a REPLACE into slot `i` leaves no valid row without a slot: the NH row
does not get verified, so no NF row is written; or the NF write times out
without reaching the word of the valid bit; or the NF row is read back, idle, as
written. -/
def ReplaceClean (w : Accel) (d : Decoded) (i : Slot) : Prop :=
  let dev := w.dev.afterVerify (nhRowAt i.idx) d.nhRow
  w.dev.verifies (nhRowAt i.idx) d.nhRow = true →
    dev.nextFate.reaches 6 = true → dev.verifies (nfRowAt i.idx) (d.nfRow i.word) = true

/-- When a DESTROY leaves no valid row behind: its read goes idle, and its
write reaches the word of the valid bit. -/
def DestroyClean (w : Accel) : Prop :=
  w.dev.nextFate.idle = true ∧ w.dev.wasRead.nextFate.reaches 6 = true

/-- The condition on one callback, by what the hardware does with the accesses
of that callback. A callback that takes or finds no slot is clean. -/
def StepClean (w : Accel) (cls : FlowClsOffload) : Prop :=
  match cls.command with
  | .replace => (faDecodeRule cls.rule).refused = false →
      ∀ i, w.flows.firstFree = some i → w.ReplaceClean (faDecodeRule cls.rule) i
  | .destroy => ∀ i, w.flows.find cls.cookie = some i → w.DestroyClean
  | _ => True

/-- The state between callbacks as long as all of them were clean. -/
structure Tracked (w : Accel) : Prop where
  indexed : w.flows.Indexed
  valid : ∀ i : Slot, nfValid (w.dev.rows (nfRowAt i.idx)) = (w.flows i).inUse

/-- A freshly loaded module over a device. -/
def loaded (dev : Dev) : Accel := ⟨Slots.loaded, dev⟩

theorem noOrphanRow_iff {w : Accel} (hindexed : w.flows.Indexed) :
    w.NoOrphanRow ↔
      ∀ i : Slot, nfValid (w.dev.rows (nfRowAt i.idx)) = true → (w.flows i).inUse = true := by
  constructor
  · intro h i hvalid
    obtain ⟨j, hj, hidx⟩ := h i.idx i.idx_pos i.idx_le hvalid
    rw [(hindexed j hj).2, Slot.word_toNat] at hidx
    rwa [← Slot.idx_injective hidx]
  · intro h idx hpos hle hvalid
    let i : Slot := ⟨idx - 1, by omega⟩
    have hi : i.idx = idx := by
      simp only [Slot.idx, i]
      omega
    have huse := h i (by rwa [hi])
    exact ⟨i, huse, by rw [(hindexed i huse).2, Slot.word_toNat, hi]⟩

/-! ### One callback -/

theorem nfValid_replaced_of_ne (w : Accel) (cookie : Cookie) (d : Decoded) {i : Slot}
    {idx : Nat} (h : idx ≠ i.idx) :
    nfValid ((w.replaced cookie d i).2.dev.rows (nfRowAt idx)) =
      nfValid (w.dev.rows (nfRowAt idx)) := by
  have hnf : nfRowAt idx ≠ nfRowAt i.idx := fun heq => h (nfRowAt_injective heq)
  have hnh := nfRowAt_ne_nhRowAt idx i.idx
  simp only [replaced]
  split
  · split <;>
      simp only [Dev.nfValid_afterVerify, Dev.nfValid_wrote_of_ne _ _ hnf,
        Dev.nfValid_wrote_of_ne _ _ hnh]
  · simp only [Dev.nfValid_afterVerify, Dev.nfValid_wrote_of_ne _ _ hnh]

/-- The NF row of the slot becomes valid exactly when the NF write is made and
reaches word 6. -/
theorem nfValid_replaced_self (w : Accel) (cookie : Cookie) (d : Decoded) (i : Slot) :
    nfValid ((w.replaced cookie d i).2.dev.rows (nfRowAt i.idx)) =
      if w.dev.verifies (nhRowAt i.idx) d.nhRow ∧
          (w.dev.afterVerify (nhRowAt i.idx) d.nhRow).nextFate.reaches 6 then true
      else nfValid (w.dev.rows (nfRowAt i.idx)) := by
  have hnh := nfRowAt_ne_nhRowAt i.idx i.idx
  by_cases hok : w.dev.verifies (nhRowAt i.idx) d.nhRow = true
  · simp only [replaced, hok, if_true]
    split <;>
      simp [Dev.nfValid_afterVerify, Dev.nfValid_wrote_self, Dev.nfValid_wrote_of_ne _ _ hnh]
  · simp only [Bool.not_eq_true] at hok
    simp [replaced, hok, Dev.nfValid_afterVerify, Dev.nfValid_wrote_of_ne _ _ hnh]

theorem nfValid_destroyed_of_ne (w : Accel) {i : Slot} {idx : Nat} (h : idx ≠ i.idx) :
    nfValid ((w.destroyed i).dev.rows (nfRowAt idx)) = nfValid (w.dev.rows (nfRowAt idx)) := by
  have hnf : nfRowAt idx ≠ nfRowAt i.idx := fun heq => h (nfRowAt_injective heq)
  simp only [destroyed]
  split
  · rw [Dev.nfValid_wrote_of_ne _ _ hnf, Dev.nfValid_wasRead]
  · rw [Dev.nfValid_wasRead]

theorem nfValid_destroyed_self (w : Accel) (i : Slot) :
    nfValid ((w.destroyed i).dev.rows (nfRowAt i.idx)) =
      if w.dev.nextFate.idle ∧ w.dev.wasRead.nextFate.reaches 6 then false
      else nfValid (w.dev.rows (nfRowAt i.idx)) := by
  have hclear := clearValid_nfValid (w.dev.readBack (nfRowAt i.idx) NF_ROW_WORDS)
    (by simp [Dev.readBack])
  by_cases hidle : w.dev.nextFate.idle = true
  · simp [destroyed, hidle, Dev.nfValid_wrote_self, hclear, Dev.nfValid_wasRead]
  · simp only [Bool.not_eq_true] at hidle
    simp [destroyed, hidle, Dev.nfValid_wasRead]

theorem replaced_accepted_iff (w : Accel) (cookie : Cookie) (d : Decoded) (i : Slot) :
    (w.replaced cookie d i).1 = 0 ↔
      w.dev.verifies (nhRowAt i.idx) d.nhRow = true ∧
        (w.dev.afterVerify (nhRowAt i.idx) d.nhRow).verifies (nfRowAt i.idx)
          (d.nfRow i.word) = true := by
  simp only [replaced]
  split
  · split <;> simp_all [EOPNOTSUPP]
  · simp_all [EOPNOTSUPP]

/-- After a REPLACE into slot `i`, that slot's row and flag agree exactly when
the callback was clean. -/
theorem replaced_tracked_iff (w : Accel) (cookie : Cookie) (d : Decoded) (i : Slot)
    (hfree : nfValid (w.dev.rows (nfRowAt i.idx)) = false) :
    (nfValid ((w.replaced cookie d i).2.dev.rows (nfRowAt i.idx)) = true →
        (w.replaced cookie d i).1 = 0) ↔ w.ReplaceClean d i := by
  rw [nfValid_replaced_self, replaced_accepted_iff, hfree, ReplaceClean]
  by_cases hnh : w.dev.verifies (nhRowAt i.idx) d.nhRow = true <;> simp [hnh]

theorem destroyed_tracked_iff (w : Accel) (i : Slot)
    (hvalid : nfValid (w.dev.rows (nfRowAt i.idx)) = true) :
    nfValid ((w.destroyed i).dev.rows (nfRowAt i.idx)) = false ↔ w.DestroyClean := by
  rw [nfValid_destroyed_self, DestroyClean, hvalid]
  simp

theorem replaced_inUse (w : Accel) (cookie : Cookie) (d : Decoded) (i j : Slot) :
    ((w.replaced cookie d i).2.flows j).inUse =
      if j = i then decide ((w.replaced cookie d i).1 = 0) else (w.flows j).inUse := by
  rw [replaced_flows]
  by_cases hji : j = i
  · subst hji
    simp
  · simp [hji]

theorem destroyed_inUse (w : Accel) (i j : Slot) :
    ((w.destroyed i).flows j).inUse = if j = i then false else (w.flows j).inUse := by
  by_cases hji : j = i
  · subst hji
    simp [destroyed]
  · simp [destroyed, Slots.free_of_ne _ hji, hji]

/-- A REPLACE from a tracked state leaves no orphan exactly when it is clean,
and is then tracked again. -/
theorem replaced_noOrphanRow_iff {w : Accel} (cookie : Cookie) (d : Decoded) (i : Slot)
    (htracked : w.Tracked) (hfree : (w.flows i).inUse = false) :
    (∀ j : Slot, nfValid ((w.replaced cookie d i).2.dev.rows (nfRowAt j.idx)) = true →
        ((w.replaced cookie d i).2.flows j).inUse = true) ↔ w.ReplaceClean d i := by
  have hrow : nfValid (w.dev.rows (nfRowAt i.idx)) = false := by rw [htracked.valid, hfree]
  rw [← replaced_tracked_iff w cookie d i hrow]
  constructor
  · intro h hvalid
    simpa [replaced_inUse] using h i hvalid
  · intro h j hvalid
    rw [replaced_inUse]
    by_cases hji : j = i
    · subst hji
      simpa using h hvalid
    · rw [nfValid_replaced_of_ne w cookie d (Slot.idx_ne hji), htracked.valid] at hvalid
      simpa [hji] using hvalid

theorem replaced_valid {w : Accel} (cookie : Cookie) (d : Decoded) (i : Slot)
    (htracked : w.Tracked) (hfree : (w.flows i).inUse = false) (hclean : w.ReplaceClean d i)
    (j : Slot) : nfValid ((w.replaced cookie d i).2.dev.rows (nfRowAt j.idx)) =
      ((w.replaced cookie d i).2.flows j).inUse := by
  rw [replaced_inUse]
  by_cases hji : j = i
  · subst hji
    have hrow : nfValid (w.dev.rows (nfRowAt j.idx)) = false := by rw [htracked.valid, hfree]
    have himp := (replaced_tracked_iff w cookie d j hrow).mpr hclean
    rw [if_pos rfl, Bool.eq_iff_iff, decide_eq_true_iff]
    refine ⟨himp, fun haccept => ?_⟩
    obtain ⟨hnh, hnf⟩ := (replaced_accepted_iff w cookie d j).mp haccept
    rw [nfValid_replaced_self, if_pos ⟨hnh, Dev.verifies_reaches hnf 6⟩]
  · rw [nfValid_replaced_of_ne w cookie d (Slot.idx_ne hji), htracked.valid, if_neg hji]

theorem destroyed_noOrphanRow_iff {w : Accel} (i : Slot) (htracked : w.Tracked)
    (huse : (w.flows i).inUse = true) :
    (∀ j : Slot, nfValid ((w.destroyed i).dev.rows (nfRowAt j.idx)) = true →
        ((w.destroyed i).flows j).inUse = true) ↔ w.DestroyClean := by
  have hrow : nfValid (w.dev.rows (nfRowAt i.idx)) = true := by rw [htracked.valid, huse]
  rw [← destroyed_tracked_iff w i hrow]
  constructor
  · intro h
    rw [← Bool.not_eq_true]
    intro hvalid
    simpa [destroyed_inUse] using h i hvalid
  · intro h j hvalid
    rw [destroyed_inUse]
    by_cases hji : j = i
    · subst hji
      rw [h] at hvalid
      exact absurd hvalid Bool.false_ne_true
    · rw [nfValid_destroyed_of_ne w (Slot.idx_ne hji), htracked.valid] at hvalid
      simpa [hji] using hvalid

theorem destroyed_valid {w : Accel} (i : Slot) (htracked : w.Tracked)
    (huse : (w.flows i).inUse = true) (hclean : w.DestroyClean) (j : Slot) :
    nfValid ((w.destroyed i).dev.rows (nfRowAt j.idx)) = ((w.destroyed i).flows j).inUse := by
  rw [destroyed_inUse]
  by_cases hji : j = i
  · subst hji
    have hrow : nfValid (w.dev.rows (nfRowAt j.idx)) = true := by rw [htracked.valid, huse]
    rw [if_pos rfl, (destroyed_tracked_iff w j hrow).mpr hclean]
  · rw [nfValid_destroyed_of_ne w (Slot.idx_ne hji), htracked.valid, if_neg hji]

theorem Tracked.noOrphanRow {w : Accel} (h : w.Tracked) : w.NoOrphanRow :=
  (noOrphanRow_iff h.indexed).mpr fun i hvalid => by rw [← h.valid, hvalid]

/-- The step: from a tracked state a callback leaves no orphan row exactly when
it is clean. -/
theorem noOrphanRow_callback_iff {w : Accel} (htracked : w.Tracked) (cls : FlowClsOffload) :
    (w.callback cls).2.NoOrphanRow ↔ w.StepClean cls := by
  have hindexed := w.callback_indexed cls htracked.indexed
  have hout := callback_outcome w cls htracked.indexed
  generalize (w.callback cls).1 = ret at hout
  generalize (w.callback cls).2 = w' at hout hindexed
  rw [noOrphanRow_iff hindexed, StepClean]
  cases hout with
  | ignored hcmd =>
      have hkeep := (noOrphanRow_iff hindexed).mp htracked.noOrphanRow
      cases hc : cls.command <;> simp_all
  | skipped hcmd hskip =>
      have hkeep := (noOrphanRow_iff hindexed).mp htracked.noOrphanRow
      simp only [hcmd]
      refine iff_of_true hkeep fun hrefused i hfree => ?_
      simp [hrefused, hfree] at hskip
  | replaced i w' hcmd hrefused hfree hend =>
      obtain ⟨ctl, window, polled, rfl⟩ := hend
      simp only [hcmd, hrefused, hfree, Option.some.injEq, forall_eq', true_implies]
      exact replaced_noOrphanRow_iff cls.cookie _ i htracked (Slots.firstFree_some hfree)
  | unknown hcmd hfind =>
      have hkeep := (noOrphanRow_iff hindexed).mp htracked.noOrphanRow
      simp only [hcmd, hfind]
      exact iff_of_true hkeep nofun
  | destroyed i w' hcmd hfind hend =>
      obtain ⟨ctl, window, polled, rfl⟩ := hend
      simp only [hcmd, hfind, Option.some.injEq, forall_eq']
      exact destroyed_noOrphanRow_iff i htracked (Slots.find_some hfind).1

theorem Tracked.callback {w : Accel} (htracked : w.Tracked) {cls : FlowClsOffload}
    (hclean : w.StepClean cls) : (w.callback cls).2.Tracked := by
  refine ⟨w.callback_indexed cls htracked.indexed, ?_⟩
  have hout := callback_outcome w cls htracked.indexed
  generalize (w.callback cls).1 = ret at hout
  generalize (w.callback cls).2 = w' at hout
  rw [StepClean] at hclean
  cases hout with
  | ignored => exact htracked.valid
  | skipped => exact htracked.valid
  | replaced i w' hcmd hrefused hfree hend =>
      obtain ⟨ctl, window, polled, rfl⟩ := hend
      simp only [hcmd] at hclean
      exact replaced_valid cls.cookie _ i htracked (Slots.firstFree_some hfree)
        (hclean hrefused i hfree)
  | unknown => exact htracked.valid
  | destroyed i w' hcmd hfind hend =>
      obtain ⟨ctl, window, polled, rfl⟩ := hend
      simp only [hcmd] at hclean
      exact destroyed_valid i htracked (Slots.find_some hfind).1 (hclean i hfind)

theorem loaded_tracked {dev : Dev}
    (hinvalid : ∀ i : Slot, nfValid (dev.rows (nfRowAt i.idx)) = false) :
    (loaded dev).Tracked :=
  ⟨Slots.loaded_indexed, fun i => by rw [loaded, hinvalid]; rfl⟩

/-! ### Whole runs -/

/-- Over a run from module load, no callback leaves an orphan row exactly when
every callback is clean. -/
theorem noOrphanRow_run_iff (dev : Dev) (run : List FlowClsOffload)
    (hinvalid : ∀ i : Slot, nfValid (dev.rows (nfRowAt i.idx)) = false) :
    EveryStep next (fun w cls => (w.callback cls).2.NoOrphanRow) (loaded dev) run ↔
      EveryStep next StepClean (loaded dev) run := by
  have hiff : ∀ w cls, Tracked w → ((w.callback cls).2.NoOrphanRow ↔ w.StepClean cls) :=
    fun _ cls h => noOrphanRow_callback_iff h cls
  have hstep : ∀ w cls, Tracked w → w.StepClean cls → (w.next cls).Tracked :=
    fun _ _ h hclean => h.callback hclean
  exact everyStep_congr hiff hstep (loaded_tracked hinvalid)

/-- Once, on a device that performs every access. -/
theorem noOrphanRow_run_clean :
    EveryStep next (fun w cls => (w.callback cls).2.NoOrphanRow)
      (loaded (.reset .wordByWord fun _ => .clean)) [⟨.replace, 7, .toWan fun _ => 0⟩] := by
  refine (noOrphanRow_run_iff _ _ fun i => by simp [Dev.reset, nfValid]).mpr ⟨?_, trivial⟩
  intro hrefused i hfree hnh hreach
  have hslot : (loaded (.reset .wordByWord fun _ => .clean)).flows.firstFree =
      some ⟨0, by decide⟩ := by decide +kernel
  obtain rfl := Option.some.inj (hfree.symm.trans hslot)
  decide +kernel

/-- The read-back of the NF row times out: the REPLACE is refused and its slot
given back, with the row valid in the table. -/
theorem noOrphanRow_run_lost_readBack :
    ¬ EveryStep next (fun w cls => (w.callback cls).2.NoOrphanRow)
      (loaded (.reset .wordByWord fun t =>
        if t = 5 then { Fate.clean with busy := MEM_ACC_POLL_STEPS } else .clean))
      [⟨.replace, 7, .toWan fun _ => 0⟩] := by
  intro hrun
  obtain ⟨i, huse, -⟩ := hrun.1 1 le_rfl (by decide) (by decide +kernel)
  have hfreed : ∀ i, ((next (loaded (.reset .wordByWord fun t =>
      if t = 5 then { Fate.clean with busy := MEM_ACC_POLL_STEPS } else .clean))
      ⟨.replace, 7, .toWan fun _ => 0⟩).flows i).inUse = false := by decide +kernel
  exact Bool.false_ne_true ((hfreed i).symm.trans huse)

end Accel

end R8000Plus.Fa

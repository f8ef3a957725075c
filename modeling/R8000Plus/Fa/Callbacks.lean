import R8000Plus.Effects.Runs
import R8000Plus.Fa.FlowRule
import R8000Plus.Fa.MemAccess

/-!
The flow block callback of `fa_accel.c` with `live=1`. The callbacks are
programs over the driver's own helper calls; each call is in turn a program
over single accesses, so the same text is run in one piece, access by access,
or interleaved with other callbacks.
-/

namespace R8000Plus.Fa

open Effects

inductive Call where
  | alloc (cookie : Cookie)
  | find (cookie : Cookie)
  | free (slot : Slot)
  | load (slot : Slot)
  | maccWrite (table idx : Word) (words : List Word)
  | maccRead (table idx : Word) (n : Nat)
  deriving DecidableEq, Repr

abbrev Call.Ans : Call → Type
  | .alloc _ => Option Slot
  | .find _ => Option Slot
  | .free _ => Unit
  | .load _ => FaLiveFlow
  | .maccWrite _ _ _ => Bool
  | .maccRead _ _ _ => Bool × List Word

def Call.body : (o : Call) → FaProg o.Ans
  | .alloc cookie => .request (Access.alloc cookie)
  | .find cookie => .request (Access.find cookie)
  | .free slot => .request (Access.free slot)
  | .load slot => .request (Access.load slot)
  | .maccWrite table idx words => faMaccWrite table idx words
  | .maccRead table idx n => faMaccRead table idx n

abbrev CallProg := Prog Call Call.Ans

def faFlowAlloc (cookie : Cookie) : CallProg (Option Slot) := .request (Call.alloc cookie)
def faFlowFind (cookie : Cookie) : CallProg (Option Slot) := .request (Call.find cookie)
def faFlowFree (slot : Slot) : CallProg Unit := .request (Call.free slot)
def loadFlow (slot : Slot) : CallProg FaLiveFlow := .request (Call.load slot)

def callMaccWrite (table idx : Word) (words : List Word) : CallProg Bool :=
  .request (Call.maccWrite table idx words)

def callMaccRead (table idx : Word) (n : Nat) : CallProg (Bool × List Word) :=
  .request (Call.maccRead table idx n)

def EOPNOTSUPP : Int := 95

/-- The chain of `ok = ok && …` lines around one row: write, read back,
`memcmp`. A later call is not made once `ok` is false. -/
def writeVerified (table idx : Word) (row : List Word) : CallProg Bool := do
  let ok ← callMaccWrite table idx row
  if ok then
    let (ok, readback) ← callMaccRead table idx row.length
    return ok && readback == row
  else return false

def faFlowReplaceLive (cookie : Cookie) (rule : FlowRule) : CallProg Int := do
  let d := faDecodeRule rule
  if d.refused then return -EOPNOTSUPP
  match ← faFlowAlloc cookie with
  | none => return -EOPNOTSUPP
  | some f =>
      -- only the slot's owner writes its index fields, so one read stands for all
      let fl ← loadFlow f
      let ok ← writeVerified CTF_MEMACC_TBL_NH fl.nhIdx d.nhRow
      let ok ← if ok then writeVerified CTF_MEMACC_TBL_NF fl.nfIdx (d.nfRow fl.nhIdx)
        else pure false
      if !ok then
        faFlowFree f
        return -EOPNOTSUPP
      return 0

/-- `nf_row[6] &= ~(1U << 20)`. -/
def clearValid (row : List Word) : List Word :=
  row.set 6 (ofWords row 6 &&& ~~~NF_VALID)

def faFlowDestroyLive (cookie : Cookie) : CallProg Unit := do
  match ← faFlowFind cookie with
  | none => return ()
  | some f =>
      let fl ← loadFlow f
      let (idle, nfRow) ← callMaccRead CTF_MEMACC_TBL_NF fl.nfIdx NF_ROW_WORDS
      if idle then
        let _ ← callMaccWrite CTF_MEMACC_TBL_NF fl.nfIdx (clearValid nfRow)
      faFlowFree f

inductive TcSetupType where
  | clsflower
  | ft
  | other
  deriving DecidableEq, Repr

inductive FlowClsCommand where
  | replace
  | destroy
  | stats
  | other
  deriving DecidableEq, Repr

structure FlowClsOffload where
  command : FlowClsCommand
  cookie : Cookie
  rule : FlowRule

def faSetupBlockCb (live : Bool) (type : TcSetupType) (cls : FlowClsOffload) : CallProg Int := do
  if type ≠ .clsflower then return -EOPNOTSUPP
  match cls.command with
  | .replace =>
      if !live then return -EOPNOTSUPP
      faFlowReplaceLive cls.cookie cls.rule
  | .destroy =>
      if live then faFlowDestroyLive cls.cookie
      return 0
  | .stats => return -EOPNOTSUPP
  | .other => return -EOPNOTSUPP

namespace Accel

/-- A helper call made by a callback that runs alone. -/
def call (o : Call) (w : Accel) : o.Ans × Accel := o.body.run perform w

/-- One callback of the loaded `live=1` module, from start to return. -/
def callback (cls : FlowClsOffload) (w : Accel) : Int × Accel :=
  (faSetupBlockCb true .clsflower cls).run call w

abbrev next (w : Accel) (cls : FlowClsOffload) : Accel := (w.callback cls).2

def runCallbacks (w : Accel) (run : List FlowClsOffload) : Accel := run.foldl next w

@[simp] theorem runCallbacks_append (w : Accel) (pre suf : List FlowClsOffload) :
    w.runCallbacks (pre ++ suf) = (w.runCallbacks pre).runCallbacks suf :=
  List.foldl_append

@[simp] theorem runCallbacks_singleton (w : Accel) (cls : FlowClsOffload) :
    w.runCallbacks [cls] = (w.callback cls).2 := rfl

end Accel

/-! ### What the calls do -/

theorem Slot.idx_lt (i : Slot) : i.idx < 2 ^ 10 := by
  have := i.idx_le
  simp only [FA_MAX_LIVE_FLOWS] at this
  omega

theorem nhRowAt_words (idx : Nat) : (nhRowAt idx).words = NH_ROW_WORDS := rfl

theorem nfRowAt_words (idx : Nat) : (nfRowAt idx).words = NF_ROW_WORDS := rfl

namespace Dev

/-- Whether a row written now would pass write, read-back and comparison. -/
def verifies (d : Dev) (addr : RowAddr) (row : List Word) : Bool :=
  d.nextFate.idle && ((d.wrote addr row).nextFate.idle &&
    (d.wrote addr row).readBack addr row.length == row)

def afterVerify (d : Dev) (addr : RowAddr) (row : List Word) : Dev :=
  if d.nextFate.idle then (d.wrote addr row).wasRead else d.wrote addr row

@[simp] theorem scratch_scratch (d : Dev) (ctl ctl' : Word) (window window' : Nat → Word)
    (polled polled' : Nat) :
    (d.scratch ctl window polled).scratch ctl' window' polled' =
      d.scratch ctl' window' polled' := rfl

@[simp] theorem wrote_scratch (d : Dev) (ctl : Word) (window : Nat → Word) (polled : Nat)
    (addr : RowAddr) (row : List Word) :
    (d.scratch ctl window polled).wrote addr row =
      (d.wrote addr row).scratch ctl window polled := rfl

@[simp] theorem wasRead_scratch (d : Dev) (ctl : Word) (window : Nat → Word) (polled : Nat) :
    (d.scratch ctl window polled).wasRead = d.wasRead.scratch ctl window polled := rfl

@[simp] theorem readBack_scratch (d : Dev) (ctl : Word) (window : Nat → Word) (polled : Nat)
    (addr : RowAddr) (n : Nat) :
    (d.scratch ctl window polled).readBack addr n = d.readBack addr n := rfl

@[simp] theorem nextFate_scratch (d : Dev) (ctl : Word) (window : Nat → Word) (polled : Nat) :
    (d.scratch ctl window polled).nextFate = d.nextFate := rfl

@[simp] theorem verifies_scratch (d : Dev) (ctl : Word) (window : Nat → Word) (polled : Nat)
    (addr : RowAddr) (row : List Word) :
    (d.scratch ctl window polled).verifies addr row = d.verifies addr row := rfl

@[simp] theorem afterVerify_scratch (d : Dev) (ctl : Word) (window : Nat → Word)
    (polled : Nat) (addr : RowAddr) (row : List Word) :
    (d.scratch ctl window polled).afterVerify addr row =
      (d.afterVerify addr row).scratch ctl window polled := by
  by_cases hidle : d.nextFate.idle = true <;> simp [afterVerify, hidle]

end Dev

/-- One verified row write, as a whole. -/
theorem writeVerified_run (w : Accel) (table idx : Word) (row : List Word) (addr : RowAddr)
    (ht : table.toNat < 2 ^ 2) (hi : idx.toNat < 2 ^ 10)
    (haddr : addr = ⟨table.toNat, idx.toNat⟩) (hpos : 0 < row.length)
    (hlen : row.length = addr.words) :
    ∃ ctl window polled, (writeVerified table idx row).run Accel.call w =
      (w.dev.verifies addr row,
        { w with dev := (w.dev.afterVerify addr row).scratch ctl window polled }) := by
  obtain ⟨ctl, window, polled, hwrite⟩ :=
    faMaccWrite_run w table idx row addr ht hi haddr hpos hlen
  have hcall : (callMaccWrite table idx row).run Accel.call w =
      (w.dev.nextFate.idle,
        { w with dev := (w.dev.wrote addr row).scratch ctl window polled }) := hwrite
  rw [writeVerified, Prog.run_bind_of_eq _ hcall]
  cases hidle : w.dev.nextFate.idle with
  | false =>
      refine ⟨ctl, window, polled, ?_⟩
      simp [Dev.verifies, Dev.afterVerify, hidle]
  | true =>
      obtain ⟨ctl', window', polled', hread⟩ := faMaccRead_run
        { w with dev := (w.dev.wrote addr row).scratch ctl window polled } table idx row.length
        addr ht hi haddr
      have hback : (callMaccRead table idx row.length).run Accel.call
          { w with dev := (w.dev.wrote addr row).scratch ctl window polled } = _ := hread
      refine ⟨ctl', window', polled', ?_⟩
      rw [if_pos rfl, Prog.run_bind_of_eq _ hback]
      simp [Dev.verifies, Dev.afterVerify, hidle]

/-! ### What the callbacks do -/

namespace Accel

/-- A REPLACE that finds a slot: both rows are written and verified in turn,
and the slot is given back when either fails. -/
def replaced (w : Accel) (cookie : Cookie) (d : Decoded) (i : Slot) : Int × Accel :=
  let flows := Function.update w.flows i (Slots.taken cookie i)
  let dev := w.dev.afterVerify (nhRowAt i.idx) d.nhRow
  if w.dev.verifies (nhRowAt i.idx) d.nhRow then
    let dev' := dev.afterVerify (nfRowAt i.idx) (d.nfRow i.word)
    if dev.verifies (nfRowAt i.idx) (d.nfRow i.word) then (0, ⟨flows, dev'⟩)
    else (-EOPNOTSUPP, ⟨Slots.free i flows, dev'⟩)
  else (-EOPNOTSUPP, ⟨Slots.free i flows, dev⟩)

/-- A DESTROY of the flow in slot `i`: a read that went idle is written back
with the valid bit cleared, and the slot is given back in any case. -/
def destroyed (w : Accel) (i : Slot) : Accel :=
  let row := w.dev.readBack (nfRowAt i.idx) NF_ROW_WORDS
  ⟨w.flows.free i,
    if w.dev.nextFate.idle then w.dev.wasRead.wrote (nfRowAt i.idx) (clearValid row)
    else w.dev.wasRead⟩

/-- Equal but for the registers of the access protocol. -/
def SameUpToScratch (w w' : Accel) : Prop :=
  ∃ ctl window polled, w' = { w with dev := w.dev.scratch ctl window polled }

end Accel

theorem CTF_MEMACC_TBL_NH_lt : CTF_MEMACC_TBL_NH.toNat < 2 ^ 2 := by decide

theorem CTF_MEMACC_TBL_NF_lt : CTF_MEMACC_TBL_NF.toNat < 2 ^ 2 := by decide

theorem nhRowAt_eq (i : Slot) :
    nhRowAt i.idx = ⟨CTF_MEMACC_TBL_NH.toNat, i.word.toNat⟩ := by
  rw [Slot.word_toNat]
  rfl

theorem nfRowAt_eq (i : Slot) :
    nfRowAt i.idx = ⟨CTF_MEMACC_TBL_NF.toNat, i.word.toNat⟩ := by
  rw [Slot.word_toNat]
  rfl

theorem writeVerified_nh (w : Accel) (i : Slot) (d : Decoded) :
    ∃ ctl window polled,
      (writeVerified CTF_MEMACC_TBL_NH i.word d.nhRow).run Accel.call w =
        (w.dev.verifies (nhRowAt i.idx) d.nhRow,
          { w with
            dev := (w.dev.afterVerify (nhRowAt i.idx) d.nhRow).scratch ctl window polled }) :=
  writeVerified_run w _ _ _ (nhRowAt i.idx) CTF_MEMACC_TBL_NH_lt
    (by simpa using i.idx_lt) (nhRowAt_eq i) (by simp [NH_ROW_WORDS]) rfl

theorem writeVerified_nf (w : Accel) (i : Slot) (d : Decoded) :
    ∃ ctl window polled,
      (writeVerified CTF_MEMACC_TBL_NF i.word (d.nfRow i.word)).run Accel.call w =
        (w.dev.verifies (nfRowAt i.idx) (d.nfRow i.word),
          { w with
            dev := (w.dev.afterVerify (nfRowAt i.idx) (d.nfRow i.word)).scratch
              ctl window polled }) :=
  writeVerified_run w _ _ _ (nfRowAt i.idx) CTF_MEMACC_TBL_NF_lt
    (by simpa using i.idx_lt) (nfRowAt_eq i) (by simp [NF_ROW_WORDS]) rfl

theorem faFlowReplaceLive_skip (w : Accel) (cookie : Cookie) (rule : FlowRule)
    (h : (faDecodeRule rule).refused = true ∨ w.flows.firstFree = none) :
    (faFlowReplaceLive cookie rule).run Accel.call w = (-EOPNOTSUPP, w) := by
  rw [faFlowReplaceLive]
  by_cases hrefused : (faDecodeRule rule).refused = true
  · simp [hrefused]
  · have hfree := h.resolve_left hrefused
    simp [hrefused, faFlowAlloc, Accel.call, Call.body, Accel.perform, Slots.alloc, hfree]

theorem faFlowAlloc_run (w : Accel) (cookie : Cookie) (i : Slot)
    (hfree : w.flows.firstFree = some i) :
    (faFlowAlloc cookie).run Accel.call w =
      (some i, { w with flows := Function.update w.flows i (Slots.taken cookie i) }) := by
  simp [faFlowAlloc, Accel.call, Call.body, Accel.perform, Slots.alloc_some hfree]

theorem loadFlow_run (w : Accel) (i : Slot) :
    (loadFlow i).run Accel.call w = (w.flows i, w) := rfl

theorem faFlowReplaceLive_run (w : Accel) (cookie : Cookie) (rule : FlowRule) (i : Slot)
    (hrefused : (faDecodeRule rule).refused = false) (hfree : w.flows.firstFree = some i) :
    ((faFlowReplaceLive cookie rule).run Accel.call w).1 =
        (w.replaced cookie (faDecodeRule rule) i).1 ∧
      (w.replaced cookie (faDecodeRule rule) i).2.SameUpToScratch
        ((faFlowReplaceLive cookie rule).run Accel.call w).2 := by
  let w1 : Accel := { w with flows := Function.update w.flows i (Slots.taken cookie i) }
  obtain ⟨ctl, window, polled, hnh⟩ := writeVerified_nh w1 i (faDecodeRule rule)
  have hload : (loadFlow i).run Accel.call w1 = (Slots.taken cookie i, w1) := by
    rw [loadFlow_run]
    simp [w1]
  rw [faFlowReplaceLive]
  simp only [hrefused, Bool.false_eq_true, if_false]
  rw [Prog.run_bind_of_eq _ (faFlowAlloc_run w cookie i hfree)]
  simp only
  rw [Prog.run_bind_of_eq _ hload]
  simp only [Slots.taken_nhIdx, Slots.taken_nfIdx]
  rw [Prog.run_bind_of_eq _ hnh]
  cases hokNh : w1.dev.verifies (nhRowAt i.idx) (faDecodeRule rule).nhRow with
  | false =>
      simp only [Accel.replaced, w1] at hokNh ⊢
      simp only [hokNh]
      exact ⟨rfl, ctl, window, polled, rfl⟩
  | true =>
      obtain ⟨ctl', window', polled', hnf⟩ := writeVerified_nf
        { w1 with
          dev := (w1.dev.afterVerify (nhRowAt i.idx) (faDecodeRule rule).nhRow).scratch
            ctl window polled } i (faDecodeRule rule)
      rw [if_pos rfl, Prog.run_bind_of_eq _ hnf]
      simp only [Dev.verifies_scratch, Dev.afterVerify_scratch, Dev.scratch_scratch]
      simp only [Accel.replaced, w1] at hokNh ⊢
      simp only [hokNh, if_true]
      by_cases hokNf : (w.dev.afterVerify (nhRowAt i.idx) (faDecodeRule rule).nhRow).verifies
          (nfRowAt i.idx) ((faDecodeRule rule).nfRow i.word) = true
      · simp only [hokNf]
        exact ⟨rfl, ctl', window', polled', rfl⟩
      · simp only [Bool.not_eq_true] at hokNf
        simp only [hokNf]
        exact ⟨rfl, ctl', window', polled', rfl⟩

theorem faFlowDestroyLive_skip (w : Accel) (cookie : Cookie)
    (h : w.flows.find cookie = none) :
    (faFlowDestroyLive cookie).run Accel.call w = ((), w) := by
  simp [faFlowDestroyLive, faFlowFind, Accel.call, Call.body, Accel.perform, h]

theorem faFlowDestroyLive_run (w : Accel) (cookie : Cookie) (i : Slot)
    (hfind : w.flows.find cookie = some i) (hindexed : w.flows.Indexed) :
    (w.destroyed i).SameUpToScratch ((faFlowDestroyLive cookie).run Accel.call w).2 := by
  have hidx : (w.flows i).nfIdx = i.word := (hindexed i (Slots.find_some hfind).1).2
  have hfound : (faFlowFind cookie).run Accel.call w = (some i, w) := by
    simp [faFlowFind, Accel.call, Call.body, Accel.perform, hfind]
  obtain ⟨ctl, window, polled, hread⟩ := faMaccRead_run w CTF_MEMACC_TBL_NF i.word
    NF_ROW_WORDS (nfRowAt i.idx) CTF_MEMACC_TBL_NF_lt (by simpa using i.idx_lt) (nfRowAt_eq i)
  have hback : (callMaccRead CTF_MEMACC_TBL_NF i.word NF_ROW_WORDS).run Accel.call w = _ :=
    hread
  rw [faFlowDestroyLive, Prog.run_bind_of_eq _ hfound]
  simp only
  rw [Prog.run_bind_of_eq _ (loadFlow_run w i), hidx, Prog.run_bind_of_eq _ hback]
  cases hidle : w.dev.nextFate.idle with
  | false =>
      simp only [Accel.destroyed, hidle]
      exact ⟨ctl, window, polled, rfl⟩
  | true =>
      obtain ⟨ctl', window', polled', hwrite⟩ := faMaccWrite_run
        { w with dev := w.dev.wasRead.scratch ctl window polled } CTF_MEMACC_TBL_NF i.word
        (clearValid (w.dev.readBack (nfRowAt i.idx) NF_ROW_WORDS)) (nfRowAt i.idx)
        CTF_MEMACC_TBL_NF_lt (by simpa using i.idx_lt) (nfRowAt_eq i)
        (by simp [clearValid, Dev.readBack, NF_ROW_WORDS])
        (by simp [clearValid, Dev.readBack, nfRowAt_words])
      have hput : (callMaccWrite CTF_MEMACC_TBL_NF i.word
          (clearValid (w.dev.readBack (nfRowAt i.idx) NF_ROW_WORDS))).run Accel.call
          { w with dev := w.dev.wasRead.scratch ctl window polled } = _ := hwrite
      simp only [if_true]
      rw [Prog.run_bind_of_eq _ hput]
      simp only [Accel.destroyed, hidle, if_true]
      exact ⟨ctl', window', polled', rfl⟩

/-- Everything a callback can do, with the state it found as `w`. -/
inductive Outcome (w : Accel) (cls : FlowClsOffload) : Int → Accel → Prop
  | ignored (hcmd : cls.command ≠ .replace ∧ cls.command ≠ .destroy) :
      Outcome w cls (-EOPNOTSUPP) w
  | skipped (hcmd : cls.command = .replace)
      (hskip : (faDecodeRule cls.rule).refused = true ∨ w.flows.firstFree = none) :
      Outcome w cls (-EOPNOTSUPP) w
  | replaced (i : Slot) (w' : Accel) (hcmd : cls.command = .replace)
      (hrefused : (faDecodeRule cls.rule).refused = false)
      (hfree : w.flows.firstFree = some i)
      (hend : (w.replaced cls.cookie (faDecodeRule cls.rule) i).2.SameUpToScratch w') :
      Outcome w cls (w.replaced cls.cookie (faDecodeRule cls.rule) i).1 w'
  | unknown (hcmd : cls.command = .destroy) (hfind : w.flows.find cls.cookie = none) :
      Outcome w cls 0 w
  | destroyed (i : Slot) (w' : Accel) (hcmd : cls.command = .destroy)
      (hfind : w.flows.find cls.cookie = some i)
      (hend : (w.destroyed i).SameUpToScratch w') : Outcome w cls 0 w'

theorem callback_outcome (w : Accel) (cls : FlowClsOffload) (hindexed : w.flows.Indexed) :
    Outcome w cls (w.callback cls).1 (w.callback cls).2 := by
  obtain ⟨command, cookie, rule⟩ := cls
  cases command with
  | replace =>
      have hrun : w.callback ⟨.replace, cookie, rule⟩ =
          (faFlowReplaceLive cookie rule).run Accel.call w := rfl
      rw [hrun]
      by_cases hskip : (faDecodeRule rule).refused = true ∨ w.flows.firstFree = none
      · rw [faFlowReplaceLive_skip w cookie rule hskip]
        exact .skipped rfl hskip
      · rw [not_or, Bool.not_eq_true] at hskip
        obtain ⟨i, hfree⟩ := Option.ne_none_iff_exists'.mp hskip.2
        obtain ⟨hret, hend⟩ := faFlowReplaceLive_run w cookie rule i hskip.1 hfree
        rw [hret]
        exact .replaced i _ rfl hskip.1 hfree hend
  | destroy =>
      have hrun : w.callback ⟨.destroy, cookie, rule⟩ =
          (0, ((faFlowDestroyLive cookie).run Accel.call w).2) :=
        Prog.run_bind _ _ _ _
      rw [hrun]
      cases hfind : w.flows.find cookie with
      | none =>
          rw [faFlowDestroyLive_skip w cookie hfind]
          exact .unknown rfl hfind
      | some i => exact .destroyed i _ rfl hfind (faFlowDestroyLive_run w cookie i hfind hindexed)
  | stats => exact .ignored ⟨nofun, nofun⟩
  | other => exact .ignored ⟨nofun, nofun⟩

@[simp] theorem Dev.afterVerify_fates (d : Dev) (addr : RowAddr) (row : List Word) :
    (d.afterVerify addr row).fates = d.fates := by
  simp only [afterVerify]
  split <;> rfl

@[simp] theorem Accel.replaced_fates (w : Accel) (cookie : Cookie) (d : Decoded) (i : Slot) :
    (w.replaced cookie d i).2.dev.fates = w.dev.fates := by
  simp only [replaced]
  split
  · split <;> simp
  · simp

@[simp] theorem Accel.destroyed_fates (w : Accel) (i : Slot) :
    (w.destroyed i).dev.fates = w.dev.fates := by
  simp only [destroyed]
  split <;> rfl

theorem Outcome.fates {w w' : Accel} {cls : FlowClsOffload} {ret : Int}
    (h : Outcome w cls ret w') : w'.dev.fates = w.dev.fates := by
  cases h with
  | ignored => rfl
  | skipped => rfl
  | unknown => rfl
  | replaced i w' _ _ _ hend =>
      obtain ⟨ctl, window, polled, rfl⟩ := hend
      exact w.replaced_fates cls.cookie _ i
  | destroyed i w' _ _ hend =>
      obtain ⟨ctl, window, polled, rfl⟩ := hend
      exact w.destroyed_fates i

/-- What the hardware will do is not for the driver to change. -/
theorem Accel.next_fates (w : Accel) (hindexed : w.flows.Indexed) (cls : FlowClsOffload) :
    (w.next cls).dev.fates = w.dev.fates :=
  (callback_outcome w cls hindexed).fates

/-- The slot table after a REPLACE is the one with slot `i` taken, or that one
with the slot given back. -/
theorem Accel.replaced_flows (w : Accel) (cookie : Cookie) (d : Decoded) (i : Slot) :
    (w.replaced cookie d i).2.flows = Function.update w.flows i
      { Slots.taken cookie i with inUse := decide ((w.replaced cookie d i).1 = 0) } := by
  have hfreed : Slots.free i (Function.update w.flows i (Slots.taken cookie i)) =
      Function.update w.flows i { Slots.taken cookie i with inUse := false } := by
    simp [Slots.free]
  simp only [Accel.replaced]
  split
  · split
    · rfl
    · exact hfreed
  · exact hfreed

theorem Outcome.indexed {w w' : Accel} {cls : FlowClsOffload} {ret : Int}
    (h : Outcome w cls ret w') (hindexed : w.flows.Indexed) : w'.flows.Indexed := by
  cases h with
  | ignored => exact hindexed
  | skipped => exact hindexed
  | unknown => exact hindexed
  | destroyed i w' _ _ hend =>
      obtain ⟨ctl, window, polled, rfl⟩ := hend
      exact hindexed.free i
  | replaced i w' _ _ _ hend =>
      obtain ⟨ctl, window, polled, rfl⟩ := hend
      intro j hj
      simp only [Accel.replaced_flows] at hj ⊢
      by_cases hji : j = i
      · subst hji
        simp
      · simp only [Function.update_of_ne hji] at hj ⊢
        exact hindexed j hj

theorem Accel.callback_indexed (w : Accel) (cls : FlowClsOffload)
    (hindexed : w.flows.Indexed) : (w.callback cls).2.flows.Indexed :=
  (callback_outcome w cls hindexed).indexed hindexed

theorem Accel.runCallbacks_indexed (w : Accel) (run : List FlowClsOffload)
    (hindexed : w.flows.Indexed) : (w.runCallbacks run).flows.Indexed := by
  have hstep : ∀ (w : Accel) cls, w.flows.Indexed → (w.next cls).flows.Indexed :=
    fun w cls => w.callback_indexed cls
  exact foldl_invariant hstep hindexed run

end R8000Plus.Fa

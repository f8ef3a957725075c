import R8000Plus.Effects.Cells
import R8000Plus.Fa.Performs

/-!
The slot table as a map from cookies to slots, on hardware that performs every
access. What the flowtable believes is installed is kept next to the driver as
a set of cookies; the table refines it as long as no second slot is kept for a
cookie, and rows of flows that are gone stay valid only where a packet was
counted before the read-back.
-/

namespace R8000Plus.Fa

open Effects

/-! ### The table as cells -/

/-- The cookies of the slots in use. -/
def Slots.cells (flows : Slots) : Cells Slot Cookie :=
  fun i => if (flows i).inUse then some (flows i).cookie else none

theorem Slots.cells_eq_some {flows : Slots} {i : Slot} {cookie : Cookie} :
    flows.cells i = some cookie ↔ (flows i).inUse = true ∧ (flows i).cookie = cookie := by
  simp [Slots.cells]

theorem Slots.cells_eq_none {flows : Slots} {i : Slot} :
    flows.cells i = none ↔ (flows i).inUse = false := by
  simp [Slots.cells]

theorem Slots.cells_update (flows : Slots) (i : Slot) (fl : FaLiveFlow) :
    Slots.cells (Function.update flows i fl) =
      Function.update flows.cells i (if fl.inUse then some fl.cookie else none) := by
  funext j
  by_cases hji : j = i
  · subst hji
    simp [Slots.cells]
  · simp [Slots.cells, hji]

theorem Slots.cells_free (flows : Slots) (i : Slot) :
    (flows.free i).cells = Function.update flows.cells i none := by
  rw [Slots.free, Slots.cells_update]
  rfl

/-! ### The ledger -/

/-- The driver next to what its callers saw of it. -/
structure Ledger where
  accel : Accel
  /-- Cookies accepted and not destroyed since. -/
  installed : Finset Cookie
  /-- The cookie for which the NF row at an index was last written. -/
  writtenFor : Nat → Option Cookie
  /-- That cookie, where a packet was counted in the row before its read-back. -/
  miscounted : Nat → Option Cookie

namespace Ledger

def loaded (dev : Dev) : Ledger := ⟨Accel.loaded dev, ∅, fun _ => none, fun _ => none⟩

def next (s : Ledger) (cls : FlowClsOffload) : Ledger where
  accel := s.accel.next cls
  installed :=
    match cls.command with
    | .replace =>
        if (s.accel.callback cls).1 = 0 then insert cls.cookie s.installed else s.installed
    | .destroy => s.installed.erase cls.cookie
    | _ => s.installed
  writtenFor :=
    match s.accel.target cls with
    | some i => Function.update s.writtenFor i.idx (some cls.cookie)
    | none => s.writtenFor
  miscounted :=
    match s.accel.target cls with
    | some i =>
        Function.update s.miscounted i.idx
          (if s.accel.countedEarly i then some cls.cookie else none)
    | none => s.miscounted

/-- At most one slot in use carries a given cookie. -/
def OneSlotPerCookie (s : Ledger) : Prop :=
  ∀ i j, (s.accel.flows i).inUse = true → (s.accel.flows j).inUse = true →
    (s.accel.flows i).cookie = (s.accel.flows j).cookie → i = j

/-- Nothing of the flow is left: no slot in use and no valid row written for
it. -/
def Gone (s : Ledger) (cookie : Cookie) : Prop :=
  (∀ i, (s.accel.flows i).inUse = true → (s.accel.flows i).cookie ≠ cookie) ∧
    ∀ idx, nfValid (s.accel.dev.rows (nfRowAt idx)) = true → s.writtenFor idx ≠ some cookie

/-- What a callback must leave behind for the table to be a finite map. -/
structure IsMap (s : Ledger) (cls : FlowClsOffload) : Prop where
  oneSlot : (s.next cls).OneSlotPerCookie
  count : (Finset.univ.filter fun i => ((s.next cls).accel.flows i).inUse).card =
    (s.next cls).installed.card
  gone : cls.command = .destroy → (s.next cls).Gone cls.cookie

/-- A REPLACE for a cookie that is already installed finds no slot, or a packet
is counted before its read-back; and a DESTROY is for a cookie that has no such
row. -/
structure Fresh (s : Ledger) (cls : FlowClsOffload) : Prop where
  slot : cls.cookie ∈ s.installed → ∀ i, s.accel.target cls = some i →
    s.accel.countedEarly i = true
  row : cls.command = .destroy → ∀ idx, s.miscounted idx ≠ some cls.cookie

/-- The refinement relation between the table and the set of cookies. -/
structure Refines (s : Ledger) : Prop where
  indexed : s.accel.flows.Indexed
  performs : s.accel.dev.Performs
  unique : s.accel.flows.cells.Unique
  keys : s.accel.flows.cells.keys = s.installed
  rows : ∀ idx cookie, nfValid (s.accel.dev.rows (nfRowAt idx)) = true →
    s.writtenFor idx = some cookie →
      (∃ i : Slot, i.idx = idx ∧ s.accel.flows.cells i = some cookie) ∨
        s.miscounted idx = some cookie
  lost : ∀ idx cookie, s.miscounted idx = some cookie →
    nfValid (s.accel.dev.rows (nfRowAt idx)) = true ∧ s.writtenFor idx = some cookie ∧
      ∀ i : Slot, i.idx = idx → s.accel.flows.cells i = none

theorem oneSlotPerCookie_iff (s : Ledger) :
    s.OneSlotPerCookie ↔ s.accel.flows.cells.Unique := by
  constructor
  · intro h i j cookie hi hj
    rw [Slots.cells_eq_some] at hi hj
    exact h i j hi.1 hj.1 (hi.2.trans hj.2.symm)
  · intro h i j hi hj heq
    exact h (Slots.cells_eq_some.mpr ⟨hi, rfl⟩) (Slots.cells_eq_some.mpr ⟨hj, heq.symm⟩)

theorem Refines.card {s : Ledger} (h : s.Refines) :
    (Finset.univ.filter fun i => (s.accel.flows i).inUse).card = s.installed.card := by
  rw [← h.keys, ← h.unique.card_occupied]
  congr 1
  ext i
  simp [Slots.cells]

/-- A cookie without a slot is gone but for miscounted rows. -/
theorem Refines.gone_iff {s : Ledger} (h : s.Refines) {cookie : Cookie}
    (hcookie : cookie ∉ s.installed) :
    s.Gone cookie ↔ ∀ idx, s.miscounted idx ≠ some cookie := by
  have hcells : ∀ i, s.accel.flows.cells i ≠ some cookie := fun i hi =>
    hcookie (h.keys ▸ Cells.mem_keys.mpr ⟨i, hi⟩)
  constructor
  · rintro ⟨-, hrows⟩ idx hlost
    obtain ⟨hvalid, hfor, -⟩ := h.lost idx cookie hlost
    exact hrows idx hvalid hfor
  · intro hlost
    refine ⟨fun i hi heq => hcells i (Slots.cells_eq_some.mpr ⟨hi, heq⟩),
      fun idx hvalid hfor => ?_⟩
    rcases h.rows idx cookie hvalid hfor with ⟨i, -, hi⟩ | hmiss
    · exact hcells i hi
    · exact hlost idx hmiss

theorem loaded_refines {dev : Dev} (h : dev.Performs) : (loaded dev).Refines where
  indexed := Slots.loaded_indexed
  performs := h
  unique := fun i j k hi => by simp [loaded, Accel.loaded, Slots.cells, Slots.loaded] at hi
  keys := by
    ext cookie
    simp [loaded, Accel.loaded, Slots.cells, Slots.loaded]
  rows := fun idx cookie _ hfor => by simp [loaded] at hfor
  lost := fun idx cookie hlost => by simp [loaded] at hlost

theorem writtenFor_target {s : Ledger} {cls : FlowClsOffload} {i : Slot}
    (h : s.accel.target cls = some i) :
    (s.next cls).writtenFor = Function.update s.writtenFor i.idx (some cls.cookie) := by
  simp only [next, h]

theorem miscounted_target {s : Ledger} {cls : FlowClsOffload} {i : Slot}
    (h : s.accel.target cls = some i) :
    (s.next cls).miscounted = Function.update s.miscounted i.idx
      (if s.accel.countedEarly i then some cls.cookie else none) := by
  simp only [next, h]

/-- A REPLACE that finds no slot, a DESTROY of a cookie that is not installed
and every other command leave the ledger's relation alone. -/
theorem Refines.keep {s : Ledger} (h : s.Refines) {cls : FlowClsOffload}
    (haccel : s.accel.next cls = s.accel) (htarget : s.accel.target cls = none)
    (hinstalled : (s.next cls).installed = s.installed) : (s.next cls).Refines := by
  have hfor : (s.next cls).writtenFor = s.writtenFor := by simp only [next, htarget]
  have hlost : (s.next cls).miscounted = s.miscounted := by simp only [next, htarget]
  have hsame : (s.next cls).accel = s.accel := haccel
  constructor
  · rw [hsame]
    exact h.indexed
  · rw [hsame]
    exact h.performs
  · rw [hsame]
    exact h.unique
  · rw [hsame, hinstalled]
    exact h.keys
  · rw [hsame, hfor, hlost]
    exact h.rows
  · rw [hsame, hfor, hlost]
    exact h.lost

section Replaced

variable {s : Ledger} (h : s.Refines) {cls : FlowClsOffload} {i : Slot}
variable (hend : (s.accel.replaced cls.cookie (faDecodeRule cls.rule) i).2.SameUpToScratch
  (s.accel.next cls))

include h hend

/-- The NF row of the slot is valid in any case, and no other changes. -/
theorem Refines.nfValid_replaced (idx : Nat) :
    nfValid ((s.next cls).accel.dev.rows (nfRowAt idx)) =
      if idx = i.idx then true else nfValid (s.accel.dev.rows (nfRowAt idx)) := by
  obtain ⟨ctl, window, polled, hend⟩ := hend
  simp only [next, hend]
  by_cases hidx : idx = i.idx
  · rw [if_pos hidx, hidx]
    exact Accel.nfValid_replaced h.performs _ _ i
  · rw [if_neg hidx]
    exact s.accel.nfValid_replaced_of_ne _ _ hidx

/-- The slot is kept exactly if nothing is counted before the read-back. -/
theorem Refines.cells_replaced :
    (s.next cls).accel.flows.cells = Function.update s.accel.flows.cells i
      (if s.accel.countedEarly i then none else some cls.cookie) := by
  obtain ⟨ctl, window, polled, hend⟩ := hend
  have haccepted := Accel.accepted_iff h.performs cls.cookie (faDecodeRule cls.rule) i
  have hflows : (s.next cls).accel.flows = Function.update s.accel.flows i
      { Slots.taken cls.cookie i with inUse := !s.accel.countedEarly i } := by
    simp only [next, hend, Accel.replaced_flows, haccepted]
    cases s.accel.countedEarly i <;> rfl
  rw [hflows, Slots.cells_update]
  cases s.accel.countedEarly i <;> rfl

theorem Refines.cells_replaced_of_ne {j : Slot} (hj : j.idx ≠ i.idx) :
    (s.next cls).accel.flows.cells j = s.accel.flows.cells j := by
  rw [h.cells_replaced hend, Function.update_of_ne fun hji => hj (congrArg Slot.idx hji)]

/-- The row of the slot is accounted for by the slot, or else as miscounted. -/
theorem Refines.rows_replaced (htarget : s.accel.target cls = some i) (idx : Nat)
    (cookie : Cookie) (hrow : nfValid ((s.next cls).accel.dev.rows (nfRowAt idx)) = true)
    (hcookie : (s.next cls).writtenFor idx = some cookie) :
    (∃ j : Slot, j.idx = idx ∧ (s.next cls).accel.flows.cells j = some cookie) ∨
      (s.next cls).miscounted idx = some cookie := by
  rw [writtenFor_target htarget] at hcookie
  rw [miscounted_target htarget]
  by_cases hidx : idx = i.idx
  · subst hidx
    rw [Function.update_self] at hcookie ⊢
    rw [← hcookie]
    cases hcount : s.accel.countedEarly i with
    | true => exact .inr rfl
    | false =>
        refine .inl ⟨i, rfl, ?_⟩
        rw [h.cells_replaced hend, Function.update_self, hcount]
        rfl
  · rw [Function.update_of_ne hidx] at hcookie ⊢
    rw [h.nfValid_replaced hend, if_neg hidx] at hrow
    refine (h.rows idx cookie hrow hcookie).imp_left ?_
    rintro ⟨j, rfl, hj⟩
    exact ⟨j, rfl, (h.cells_replaced_of_ne hend hidx).trans hj⟩

theorem Refines.lost_replaced (htarget : s.accel.target cls = some i) (idx : Nat)
    (cookie : Cookie) (hlost : (s.next cls).miscounted idx = some cookie) :
    nfValid ((s.next cls).accel.dev.rows (nfRowAt idx)) = true ∧
      (s.next cls).writtenFor idx = some cookie ∧
      ∀ j : Slot, j.idx = idx → (s.next cls).accel.flows.cells j = none := by
  rw [miscounted_target htarget] at hlost
  rw [writtenFor_target htarget, h.nfValid_replaced hend]
  by_cases hidx : idx = i.idx
  · subst hidx
    rw [Function.update_self] at hlost
    cases hcount : s.accel.countedEarly i with
    | true =>
        rw [hcount] at hlost
        refine ⟨if_pos rfl, by rw [Function.update_self]; exact hlost, fun j hj => ?_⟩
        rw [h.cells_replaced hend, Slot.idx_injective hj, Function.update_self, hcount]
        rfl
    | false => exact absurd (hcount ▸ hlost) nofun
  · rw [Function.update_of_ne hidx] at hlost ⊢
    rw [if_neg hidx]
    obtain ⟨hrow, hwritten, hnone⟩ := h.lost idx cookie hlost
    refine ⟨hrow, hwritten, fun j hj => ?_⟩
    rw [h.cells_replaced_of_ne hend (hj ▸ hidx), hnone j hj]

/-- A REPLACE that finds a slot keeps the relation when the cookie had none, or
the slot is given back. -/
theorem Refines.replaced (hcmd : cls.command = .replace) (htarget : s.accel.target cls = some i)
    (hfree : (s.accel.flows i).inUse = false)
    (hret : (s.accel.callback cls).1 = (s.accel.replaced cls.cookie (faDecodeRule cls.rule) i).1)
    (hfresh : cls.cookie ∈ s.installed → s.accel.countedEarly i = true) :
    (s.next cls).Refines := by
  have hempty : s.accel.flows.cells i = none := Slots.cells_eq_none.mpr hfree
  have hcells := h.cells_replaced hend
  have haccepted := Accel.accepted_iff h.performs cls.cookie (faDecodeRule cls.rule) i
  have hinstalled : (s.next cls).installed =
      if s.accel.countedEarly i then s.installed else insert cls.cookie s.installed := by
    simp only [next, hcmd, hret, haccepted]
    cases s.accel.countedEarly i <;> rfl
  refine ⟨s.accel.callback_indexed cls h.indexed, Accel.next_performs h.indexed h.performs cls,
    ?_, ?_, h.rows_replaced hend htarget, h.lost_replaced hend htarget⟩
  · rw [hcells]
    cases hcount : s.accel.countedEarly i with
    | true => exact h.unique.clear i
    | false =>
        refine (Cells.unique_put_iff hempty _).mpr ⟨h.unique, fun j hj => ?_⟩
        have hmem := hfresh (h.keys ▸ Cells.mem_keys.mpr ⟨j, hj⟩)
        exact Bool.false_ne_true (hcount.symm.trans hmem)
  · rw [hcells, hinstalled, ← h.keys]
    cases s.accel.countedEarly i with
    | true => exact congrArg Cells.keys (Function.update_eq_self_iff.mpr hempty.symm)
    | false => exact Cells.keys_put hempty _

end Replaced

theorem Refines.destroyed {s : Ledger} (h : s.Refines) {cls : FlowClsOffload} {i : Slot}
    (hcmd : cls.command = .destroy) (hfind : s.accel.flows.find cls.cookie = some i)
    (hend : (s.accel.destroyed i).SameUpToScratch (s.accel.next cls)) :
    (s.next cls).Refines := by
  obtain ⟨ctl, window, polled, hend⟩ := hend
  have hcell : s.accel.flows.cells i = some cls.cookie :=
    Slots.cells_eq_some.mpr (Slots.find_some hfind)
  have hcells : (s.next cls).accel.flows.cells =
      Function.update s.accel.flows.cells i none := by
    simp only [next, hend]
    exact s.accel.flows.cells_free i
  have htarget : s.accel.target cls = none := by simp [Accel.target, hcmd]
  have hkeep : ∀ idx ≠ i.idx, nfValid ((s.next cls).accel.dev.rows (nfRowAt idx)) =
      nfValid (s.accel.dev.rows (nfRowAt idx)) := by
    intro idx hidx
    simp only [next, hend]
    exact s.accel.nfValid_destroyed_of_ne hidx
  refine ⟨s.accel.callback_indexed cls h.indexed, Accel.next_performs h.indexed h.performs cls,
    ?_, ?_, fun idx cookie hvalid hfor => ?_, fun idx cookie hlost => ?_⟩
  · rw [hcells]
    exact h.unique.clear i
  · rw [hcells, h.unique.keys_clear hcell, h.keys]
    simp [next, hcmd]
  · simp only [next, htarget] at hfor ⊢
    by_cases hidx : idx = i.idx
    · subst hidx
      simp only [next, hend] at hvalid
      have hcleared := Accel.nfValid_destroyed h.performs i
      exact absurd (hcleared.symm.trans hvalid) Bool.false_ne_true
    · refine (h.rows idx cookie ((hkeep idx hidx).symm.trans hvalid) hfor).imp_left ?_
      rintro ⟨j, hj, hcellj⟩
      have hji : j ≠ i := fun heq => hidx (by rw [← hj, heq])
      refine ⟨j, hj, ?_⟩
      simp only [hend, Accel.destroyed, Slots.cells_free]
      rwa [Function.update_of_ne hji]
  · simp only [next, htarget] at hlost
    obtain ⟨hvalid, hfor, hnone⟩ := h.lost idx cookie hlost
    have hidx : idx ≠ i.idx := by
      rintro rfl
      exact Option.some_ne_none _ (hcell.symm.trans (hnone i rfl))
    refine ⟨(hkeep idx hidx).trans hvalid, by simpa only [next, htarget] using hfor, fun j hj => ?_⟩
    have hji : j ≠ i := fun heq => hidx (by rw [← hj, heq])
    rw [hcells, Function.update_of_ne hji, hnone j hj]

theorem Refines.next {s : Ledger} (h : s.Refines) {cls : FlowClsOffload}
    (hfresh : cls.cookie ∈ s.installed → ∀ i, s.accel.target cls = some i →
      s.accel.countedEarly i = true) : (s.next cls).Refines := by
  have hout := callback_outcome s.accel cls h.indexed
  generalize hret : (s.accel.callback cls).1 = ret at hout
  generalize hw : (s.accel.callback cls).2 = w' at hout
  cases hout with
  | ignored hcmd =>
      refine h.keep hw (by simp [Accel.target, hcmd.1]) ?_
      cases hc : cls.command <;> simp_all [Ledger.next]
  | skipped hcmd hskip =>
      refine h.keep hw ?_ (by simp [Ledger.next, hcmd, hret, EOPNOTSUPP])
      simp only [Accel.target, hcmd, true_and]
      rcases hskip with hrefused | hfull
      · simp [hrefused]
      · simp [hfull]
  | replaced i w' hcmd hrefused hfree hend =>
      subst hw
      have htarget : s.accel.target cls = some i := by simp [Accel.target, hcmd, hrefused, hfree]
      exact h.replaced hend hcmd htarget (Slots.firstFree_some hfree) hret fun hmem =>
        hfresh hmem i htarget
  | unknown hcmd hfind =>
      refine h.keep hw (by simp [Accel.target, hcmd]) ?_
      have hfresh' : cls.cookie ∉ s.installed := by
        rw [← h.keys, Cells.mem_keys]
        rintro ⟨i, hi⟩
        rw [Slots.cells_eq_some] at hi
        exact Slots.find_none.mp hfind i hi.1 hi.2
      simp [Ledger.next, hcmd, hfresh']
  | destroyed i w' hcmd hfind hend =>
      subst hw
      exact h.destroyed hcmd hfind hend

/-- After a DESTROY the flow is gone exactly when none of its rows was
miscounted. -/
theorem Refines.gone_next_iff {s : Ledger} {cls : FlowClsOffload} (h : (s.next cls).Refines)
    (hcmd : cls.command = .destroy) :
    (s.next cls).Gone cls.cookie ↔ ∀ idx, s.miscounted idx ≠ some cls.cookie := by
  have htarget : s.accel.target cls = none := by simp [Accel.target, hcmd]
  have hlost : (s.next cls).miscounted = s.miscounted := by simp only [Ledger.next, htarget]
  rw [h.gone_iff (by simp [Ledger.next, hcmd]), hlost]

/-- A slot that is kept is the only one of its cookie exactly when the cookie
had none. -/
theorem Refines.fresh_of_oneSlot {s : Ledger} (h : s.Refines) {cls : FlowClsOffload}
    (hone : (s.next cls).OneSlotPerCookie) (hmem : cls.cookie ∈ s.installed) {i : Slot}
    (htarget : s.accel.target cls = some i) : s.accel.countedEarly i = true := by
  by_contra hcount
  have hout := callback_outcome s.accel cls h.indexed
  generalize (s.accel.callback cls).1 = ret at hout
  generalize hw : (s.accel.callback cls).2 = w' at hout
  have hcmd : cls.command = .replace := by
    by_contra hne
    simp [Accel.target, hne] at htarget
  cases hout with
  | replaced j w' _ hrefused hfree hend =>
      have hji : j = i := by simpa [Accel.target, hcmd, hrefused, hfree] using htarget
      subst hji hw
      have hempty := Slots.firstFree_some hfree
      have hunique := (oneSlotPerCookie_iff _).mp hone
      rw [h.cells_replaced hend, if_neg hcount,
        Cells.unique_put_iff (Slots.cells_eq_none.mpr hempty)] at hunique
      obtain ⟨k, hk⟩ := Cells.mem_keys.mp (h.keys ▸ hmem)
      exact hunique.2 k hk
  | ignored hother => exact hother.1 hcmd
  | skipped _ hskip =>
      rcases hskip with hrefused | hfull
      · simp [Accel.target, hrefused] at htarget
      · simp [Accel.target, hfull] at htarget
  | unknown hdestroy => simp [hcmd] at hdestroy
  | destroyed _ _ hdestroy => simp [hcmd] at hdestroy

/-- The step: a callback leaves the table a map exactly when it keeps no slot
for an installed cookie and destroys none with a miscounted row. -/
theorem isMap_iff {s : Ledger} (h : s.Refines) (cls : FlowClsOffload) :
    s.IsMap cls ↔ s.Fresh cls := by
  constructor
  · intro hmap
    have hslot : cls.cookie ∈ s.installed → ∀ i, s.accel.target cls = some i →
        s.accel.countedEarly i = true := fun hmem i => h.fresh_of_oneSlot hmap.oneSlot hmem
    exact ⟨hslot, fun hcmd => ((h.next hslot).gone_next_iff hcmd).mp (hmap.gone hcmd)⟩
  · intro hfresh
    have hnext := h.next hfresh.slot
    exact ⟨(oneSlotPerCookie_iff _).mpr hnext.unique, hnext.card, fun hcmd =>
      (hnext.gone_next_iff hcmd).mpr (hfresh.row hcmd)⟩

/-- Over a run on hardware that performs every access, the table is a finite map
after every callback exactly when every callback is as `Fresh` says. -/
theorem isMap_run_iff (dev : Dev) (run : List FlowClsOffload) (h : dev.Performs) :
    EveryStep next IsMap (loaded dev) run ↔ EveryStep next Fresh (loaded dev) run := by
  have hiff : ∀ s cls, Refines s → (s.IsMap cls ↔ s.Fresh cls) := fun _ cls h => isMap_iff h cls
  have hstep : ∀ s cls, Refines s → s.Fresh cls → (s.next cls).Refines :=
    fun _ _ h hfresh => h.next hfresh.slot
  exact everyStep_congr hiff hstep (loaded_refines h)

theorem isMap_run_replace_destroy :
    EveryStep next IsMap (loaded .countingLate)
      [⟨.replace, 7, .toWan fun _ => 0⟩, ⟨.destroy, 7, .toWan fun _ => 0⟩] := by
  refine (isMap_run_iff _ _ Dev.countingLate_performs).mpr
    ⟨⟨fun hmem => ?_, nofun⟩, ⟨fun _ => nofun, fun _ idx => ?_⟩, trivial⟩
  · simp [loaded] at hmem
  · have htarget : (loaded .countingLate).accel.target ⟨.replace, 7, .toWan fun _ => 0⟩ =
        some ⟨0, by decide⟩ := by decide +kernel
    have hcount : (loaded .countingLate).accel.countedEarly ⟨0, by decide⟩ = false := rfl
    simp only [Ledger.next, htarget, hcount]
    simp [loaded, Function.update_apply]

/-- The flowtable repeats an add, once per bound device: the second one takes a
second slot for the same cookie. -/
theorem isMap_run_replace_twice :
    ¬ EveryStep next IsMap (loaded (.reset .wordByWord fun _ => .clean))
      [⟨.replace, 7, .toWan fun _ => 0⟩, ⟨.replace, 7, .toWan fun _ => 0⟩] := by
  intro hrun
  have hsame := hrun.2.1.oneSlot ⟨0, by decide⟩ ⟨1, by decide⟩ (by decide +kernel)
    (by decide +kernel) (by decide +kernel)
  exact absurd hsame (by decide)

/-- A packet counted too early: the REPLACE is refused, and its row outlives the
DESTROY. -/
example :
    ¬ EveryStep next IsMap (loaded (.reset .wordByWord fun _ => .counting))
      [⟨.replace, 7, .toWan fun _ => 0⟩, ⟨.destroy, 7, .toWan fun _ => 0⟩] := by
  intro hrun
  exact (hrun.2.1.gone rfl).2 1 (by decide +kernel) (by decide +kernel)

end Ledger

end R8000Plus.Fa

import R8000Plus.Fa.Ownership
import R8000Plus.Fa.OrphanRows

/-!
The indirect access window when callbacks interleave, on hardware that performs
every access and counts no packets meanwhile. Nothing in the driver keeps two
callbacks apart between selecting a row and the last data word, or between
clearing HWQ_THRESHLD and restoring it; what follows is what holds as long as
they stay apart there.
-/

namespace R8000Plus.Fa

open Effects

def rowOf (table idx : Word) : RowAddr := ⟨table.toNat, idx.toNat⟩

/-- The row a call may change. -/
def Call.target : Call → Option RowAddr
  | .maccWrite table idx _ => some (rowOf table idx)
  | _ => none

def Access.needsThreshold : Access → Bool
  | .readl .memAccCtl => true
  | .readl (.mAccdata _) => true
  | .writel _ .memAccCtl => true
  | .writel _ (.mAccdata _) => true
  | _ => false

namespace Traffic

abbrev dev (s : Traffic) : Dev := s.pool.shared.dev

/-- What the step of one callback does to the window as it should: accesses
need the threshold at zero, a write changes its own row only and has it whole
when it returns, and a read returns its row. -/
structure WindowKept (s : Traffic) (id : Nat) (t : FaThread) : Prop where
  threshold : ∀ o a, t.pending = some (o, a) → a.needsThreshold = true →
    hwqThreshold s.dev.control = 0
  ownRow : ∀ o a addr, t.pending = some (o, a) → o.target ≠ some addr →
    (s.next (.step id)).dev.rows addr = s.dev.rows addr
  written : ∀ table idx words idle next,
    t.task = .within (.maccWrite table idx words) (.ret idle) next →
    ∀ j < words.length, s.dev.rows (rowOf table idx) j = ofWords words j
  readBack : ∀ table idx n idle got next,
    t.task = .within (.maccRead table idx n) (.ret (idle, got)) next →
    got = (List.range n).map (s.dev.rows (rowOf table idx))

def WindowSafe (s : Traffic) : Event → Prop
  | .start _ => True
  | .step id => ∀ t, s.pool.threads[id]? = some t → s.WindowKept id t

/-- A row is selected only while no other callback has words to go, and the
threshold is restored only while no other callback needs it at zero. -/
def apart (s : Traffic) : Event → Bool
  | .start _ => true
  | .step id =>
      match s.pool.threads[id]?.bind Thread.pending with
      | some (_, .writel _ .memAccCtl) =>
          (s.pool.threads.eraseIdx id).all fun u => !u.ghost.phase.inRow
      | some (_, .writel val .control) =>
          hwqThreshold val == 0 ||
            (s.pool.threads.eraseIdx id).all fun u => !u.ghost.phase.inWindow
      | _ => true

section Apart

variable {s : Traffic} {id k : Nat} {t u : FaThread} {o : Call} {val : Word}

theorem mem_eraseIdx_of_ne (hu : s.pool.threads[k]? = some u) (hne : k ≠ id) :
    u ∈ s.pool.threads.eraseIdx id := by
  obtain ⟨hk, rfl⟩ := List.getElem?_eq_some_iff.mp hu
  exact List.mem_eraseIdx_iff_getElem.mpr ⟨k, hk, hne, rfl⟩

theorem apart_select (h : s.apart (.step id) = true) (ht : s.pool.threads[id]? = some t)
    (hpending : t.pending = some (o, .writel val .memAccCtl))
    (hu : s.pool.threads[k]? = some u) (hne : k ≠ id) : u.ghost.phase.inRow = false := by
  simp only [apart, ht, Option.bind_some, hpending, List.all_eq_true] at h
  simpa using h u (mem_eraseIdx_of_ne hu hne)

theorem apart_restore (h : s.apart (.step id) = true) (ht : s.pool.threads[id]? = some t)
    (hpending : t.pending = some (o, .writel val .control)) (hval : hwqThreshold val ≠ 0)
    (hu : s.pool.threads[k]? = some u) (hne : k ≠ id) : u.ghost.phase.inWindow = false := by
  simp only [apart, ht, Option.bind_some, hpending, Bool.or_eq_true, beq_iff_eq, hval,
    false_or, List.all_eq_true] at h
  simpa using h u (mem_eraseIdx_of_ne hu hne)

end Apart

end Traffic

/-! ### What a callback relies on -/

/-- The words from `k` on are where the hardware keeps them until word 0. -/
def Dev.Staged (d : Dev) (addr : RowAddr) (words : List Word) (k : Nat) : Prop :=
  ∀ j, k ≤ j → j < words.length →
    (if d.store = .onWordZero ∧ 0 < k then d.window j else d.rows addr j) = ofWords words j

/-- What a call at a phase knows of the device. -/
def Dev.Shows (d : Dev) : Call → Phase → Prop
  | .maccWrite _ _ _, .shut => True
  | .maccWrite _ _ _, .opened => True
  | .maccWrite table idx words, .storing k =>
      (0 < k → d.ctl = ctfMemaccWrTable table idx) ∧ d.Staged (rowOf table idx) words k
  | .maccWrite _ _ _, _ => False
  | .maccRead _ _ _, .shut => True
  | .maccRead _ _ _, .opened => True
  | .maccRead table idx _, .loading left got =>
      (0 < left → d.ctl = ctfMemaccRdTable table idx) ∧
        got = (List.range got.length).map (d.rows (rowOf table idx))
  | .maccRead table idx _, .loaded got =>
      got = (List.range got.length).map (d.rows (rowOf table idx))
  | .maccRead _ _ _, _ => False
  | _, _ => True

/-- A callback in the middle of an access still has the slot it was called
for, the threshold is as it left it, and the device shows its progress. -/
structure Relies (d : Dev) (cls : FlowClsOffload) (g : Progress) (current : Option Call) :
    Prop where
  placed : ∀ o, current = some o → o.selector.isSome = true → o.Ok cls g.held
  threshold : g.phase.inWindow = true → hwqThreshold d.control = 0
  shows : ∀ o, current = some o → d.Shows o g.phase

/-! ### Rows and selectors -/

namespace Slot.HasRow

variable {i : Slot} {table idx : Word} {n : Nat}

theorem table_lt (h : i.HasRow table idx n) : table.toNat < 2 ^ 2 := by
  rcases h.2 with ⟨rfl, -⟩ | ⟨rfl, -⟩ <;> decide

theorem idx_lt (h : i.HasRow table idx n) : idx.toNat < 2 ^ 10 := by
  rw [h.1, Slot.word_toNat]
  exact i.idx_lt

theorem selected_wr (h : i.HasRow table idx n) :
    selected (ctfMemaccWrTable table idx) = rowOf table idx :=
  selected_wrTable table idx h.table_lt h.idx_lt

theorem selected_rd (h : i.HasRow table idx n) :
    selected (ctfMemaccRdTable table idx) = rowOf table idx :=
  selected_rdTable table idx h.table_lt h.idx_lt

theorem words_eq (h : i.HasRow table idx n) : n = (rowOf table idx).words := by
  rcases h.2 with ⟨rfl, rfl⟩ | ⟨rfl, rfl⟩ <;> rfl

theorem rowOf_ne {j : Slot} {table' idx' : Word} {n' : Nat} (h : i.HasRow table idx n)
    (h' : j.HasRow table' idx' n') (hne : i ≠ j) : rowOf table idx ≠ rowOf table' idx' := by
  intro heq
  have hidx := congrArg RowAddr.idx heq
  simp only [rowOf, h.1, h'.1, Slot.word_toNat] at hidx
  exact hne (Slot.idx_injective hidx)

end Slot.HasRow

/-! ### What an access does to the device -/

/-- The access goes idle within the poll budget, a read is right, and no NF row
is counted or stamped by the hardware. -/
structure Fate.FaultFree (f : Fate) : Prop where
  idle : f.idle = true
  seen : f.seen = id
  counters : f.counters = fun _ => none

theorem Fate.clean_faultFree : Fate.clean.FaultFree := ⟨rfl, rfl, rfl⟩

theorem Fate.FaultFree.reaches {f : Fate} (h : f.FaultFree) (j : Nat) : f.reaches j = true := by
  simp [Fate.reaches, h.idle]

theorem Fate.FaultFree.counted {f : Fate} (h : f.FaultFree) (rows : Tables) :
    rows.counted f.counters = rows := by
  funext addr j
  simp [Tables.counted, h.counters]

def Dev.FaultFree (d : Dev) : Prop := ∀ t, (d.fates t).FaultFree

namespace Dev

theorem FaultFree.select {d : Dev} (h : d.FaultFree) (ctl : Word) :
    (d.select ctl).rows = d.rows :=
  (h (d.turn + 1)).counted d.rows

/-- A word for the window touches the window and the selected row. -/
theorem storeWord_eq (d : Dev) (j : Nat) (val : Word) :
    ∃ window rows, d.storeWord j val = { d with window := window, rows := rows } ∧
      ∀ addr, addr ≠ selected d.ctl → rows addr = d.rows addr := by
  simp only [storeWord]
  split
  · exact ⟨d.window, d.rows, rfl, fun _ _ => rfl⟩
  · split
    · split
      · exact ⟨d.window, _, rfl, fun addr hne => Function.update_of_ne hne _ _⟩
      · exact ⟨d.window, d.rows, rfl, fun _ _ => rfl⟩
    · split
      · exact ⟨_, _, rfl, fun addr hne => d.rows.setRow_of_ne _ hne⟩
      · exact ⟨_, d.rows, rfl, fun _ _ => rfl⟩

theorem Staged.storeWord {d : Dev} (hff : d.FaultFree) {addr : RowAddr} {words : List Word}
    {j : Nat} (hread : selectsRead d.ctl = false) (haddr : selected d.ctl = addr)
    (hlen : words.length = addr.words) (h : d.Staged addr words (j + 1)) :
    (d.storeWord j (ofWords words j)).Staged addr words j := by
  subst haddr
  have hreach : ∀ k, d.fate.reaches k = true := (hff d.turn).reaches
  intro k hjk hk
  have hlater : j ≠ k → _ := fun hne => h k (by omega) hk
  cases hstore : d.store with
  | wordByWord =>
      simp only [hstore, reduceCtorEq, false_and, if_false] at hlater
      simp only [Dev.storeWord, hread, hstore, hreach, if_true, Bool.false_eq_true, if_false,
        reduceCtorEq, false_and, Tables.setWord, Function.update_self]
      by_cases hkj : k = j
      · subst hkj
        simp
      · rw [Function.update_of_ne hkj]
        exact hlater (Ne.symm hkj)
  | onWordZero =>
      simp only [hstore, true_and, Nat.succ_pos, if_true] at hlater
      have hwindow : Function.update d.window j (ofWords words j) k = ofWords words k := by
        by_cases hkj : k = j
        · subst hkj
          simp
        · rw [Function.update_of_ne hkj]
          exact hlater (Ne.symm hkj)
      by_cases hzero : j = 0
      · have hrow := d.rows.setRow_apply (selected d.ctl)
          (d.fate.landed (Function.update d.window j (ofWords words j))
            (d.rows (selected d.ctl))) k (by omega)
        simp only [Dev.storeWord, hread, hstore, hzero, if_true, Bool.false_eq_true, if_false]
        subst hzero
        simp only [Nat.lt_irrefl, and_false, if_false]
        rw [hrow, Fate.landed, hreach, if_pos rfl, hwindow]
      · simp only [Dev.storeWord, hread, hstore, hzero, Bool.false_eq_true, if_false, true_and,
          Nat.pos_of_ne_zero hzero, if_true]
        exact hwindow

end Dev

/-- The row a call works on. -/
def Call.row : Call → Option RowAddr
  | .maccWrite table idx _ => some (rowOf table idx)
  | .maccRead table idx _ => some (rowOf table idx)
  | _ => none

theorem Dev.Staged.frame {d d' : Dev} {addr : RowAddr} {words : List Word} {k : Nat}
    (h : d.Staged addr words k) (hstore : d'.store = d.store)
    (hwindow : 0 < k → d'.window = d.window) (hrow : d'.rows addr = d.rows addr) :
    d'.Staged addr words k := by
  intro j hkj hj
  have hword := h j hkj hj
  by_cases hmode : d.store = .onWordZero ∧ 0 < k
  · rw [if_pos hmode] at hword
    rw [hstore, if_pos hmode, hwindow hmode.2]
    exact hword
  · rw [if_neg hmode] at hword
    rw [hstore, if_neg hmode, hrow]
    exact hword

namespace Relies

variable {d d' : Dev} {cls : FlowClsOffload} {g : Progress} {current : Option Call}

/-- A callback's view survives whatever leaves its row, and while it is inside
the window the registers too. -/
theorem frame (h : Relies d cls g current) (hstore : d'.store = d.store)
    (hthreshold : g.phase.inWindow = true → hwqThreshold d.control = 0 →
      hwqThreshold d'.control = 0)
    (hregs : ∀ o addr, current = some o → o.row = some addr → g.phase.inRow = true →
      d'.ctl = d.ctl ∧ d'.window = d.window)
    (hrow : ∀ o addr, current = some o → o.row = some addr → d'.rows addr = d.rows addr) :
    Relies d' cls g current where
  placed := h.placed
  threshold hin := hthreshold hin (h.threshold hin)
  shows := by
    intro o hcurrent
    have hshows := h.shows o hcurrent
    obtain ⟨held, phase⟩ := g
    cases o with
    | maccWrite table idx words =>
        have hrow := hrow _ (rowOf table idx) hcurrent rfl
        have hregs := hregs _ (rowOf table idx) hcurrent rfl
        cases phase with
        | storing k =>
            have hin : 0 < k → Phase.inRow (.storing k) = true := by
              cases k with
              | zero => exact fun hk => absurd hk (Nat.lt_irrefl 0)
              | succ k => exact fun _ => rfl
            refine ⟨fun hk => (hregs (hin hk)).1.trans (hshows.1 hk), ?_⟩
            exact hshows.2.frame hstore (fun hk => (hregs (hin hk)).2) hrow
        | _ => exact hshows
    | maccRead table idx n =>
        have hrow := hrow _ (rowOf table idx) hcurrent rfl
        have hregs := hregs _ (rowOf table idx) hcurrent rfl
        cases phase with
        | loading left got =>
            have hin : 0 < left → Phase.inRow (.loading left got) = true := by
              cases left with
              | zero => exact fun hk => absurd hk (Nat.lt_irrefl 0)
              | succ left => exact fun _ => rfl
            refine ⟨fun hk => (hregs (hin hk)).1.trans (hshows.1 hk), ?_⟩
            rw [hrow]
            exact hshows.2
        | loaded got =>
            change got = (List.range got.length).map (d'.rows (rowOf table idx))
            rw [hrow]
            exact hshows
        | _ => exact hshows
    | _ => trivial

/-- Before its first call a callback relies on nothing. -/
theorem fresh (d : Dev) (cls : FlowClsOffload) : Relies d cls .fresh none :=
  ⟨nofun, nofun, nofun⟩

section Performed

variable {w : Accel} {o : Call}

/-- A word read from the window is the next one of the row. -/
theorem performed_dataRead (hff : w.dev.FaultFree) (h : Relies w.dev cls g (some o)) {j : Nat}
    (hcall : o.Ok cls g.held) (hfits : (Access.readl (.mAccdata j)).Fits o g.phase) :
    Relies (Accel.perform (.readl (.mAccdata j)) w).2.dev cls
      (Progress.note o (.readl (.mAccdata j)) (Accel.perform (.readl (.mAccdata j)) w).1 g)
      (some o) := by
  obtain ⟨held, phase⟩ := g
  obtain ⟨table, idx, n, left, got, rfl, rfl, rfl⟩ := hfits
  obtain ⟨i, -, hrow⟩ := hcall
  obtain ⟨hctl, hgot⟩ := h.shows _ rfl
  have hword : (w.dev.readl (.mAccdata got.length)).1 =
      w.dev.rows (rowOf table idx) got.length := by
    simp only [Dev.readl, hctl (Nat.succ_pos left), hrow.selected_rd]
    rw [Dev.fate, (hff w.dev.turn).seen, id_eq]
  refine ⟨h.placed, h.threshold, ?_⟩
  rintro _ ⟨⟩
  refine ⟨fun _ => hctl (Nat.succ_pos left), ?_⟩
  simp only [List.length_append, List.length_singleton, List.range_succ,
    List.map_append, List.map_singleton]
  exact congrArg₂ (· ++ [·]) hgot hword

/-- The selector goes to the row of the call, or back to rest after a read. -/
theorem performed_select (hff : w.dev.FaultFree) (h : Relies w.dev cls g (some o)) {val : Word}
    (hfits : (Access.writel val .memAccCtl).Fits o g.phase) :
    Relies (Accel.perform (.writel val .memAccCtl) w).2.dev cls
      (Progress.note o (.writel val .memAccCtl) (Accel.perform (.writel val .memAccCtl) w).1 g)
      (some o) := by
  obtain ⟨held, phase⟩ := g
  rcases hfits with ⟨rfl, hsel⟩ | ⟨got, rfl, rfl⟩
  · refine ⟨h.placed, fun _ => h.threshold rfl, ?_⟩
    rintro _ ⟨⟩
    cases o with
    | maccWrite table idx words =>
        obtain rfl := Option.some.inj hsel
        exact ⟨fun _ => rfl, fun j hj hj' => absurd hj' (by omega)⟩
    | maccRead table idx n =>
        obtain rfl := Option.some.inj hsel
        exact ⟨fun _ => rfl, rfl⟩
    | _ => exact (Option.some_ne_none val hsel.symm).elim
  · refine ⟨h.placed, fun hin => (Bool.false_ne_true hin).elim, ?_⟩
    rintro _ ⟨⟩
    cases o with
    | maccRead table idx n =>
        obtain ⟨-, hgot⟩ := h.shows _ rfl
        change got = (List.range got.length).map ((w.dev.select 0).rows (rowOf table idx))
        rw [hff.select]
        exact hgot
    | maccWrite => exact (h.shows _ rfl).elim
    | _ => trivial

/-- A word written to the window is staged behind those above it. -/
theorem performed_dataWrite (hff : w.dev.FaultFree) (h : Relies w.dev cls g (some o)) {j : Nat}
    {val : Word} (hcall : o.Ok cls g.held)
    (hfits : (Access.writel val (.mAccdata j)).Fits o g.phase) :
    Relies (Accel.perform (.writel val (.mAccdata j)) w).2.dev cls
      (Progress.note o (.writel val (.mAccdata j))
        (Accel.perform (.writel val (.mAccdata j)) w).1 g) (some o) := by
  obtain ⟨held, phase⟩ := g
  obtain ⟨table, idx, words, rfl, rfl, rfl⟩ := hfits
  obtain ⟨i, -, hrow⟩ := hcall
  obtain ⟨hctl, hstaged⟩ := h.shows _ rfl
  have hctl := hctl (Nat.succ_pos j)
  have hread : selectsRead w.dev.ctl = false := by
    rw [hctl, selectsRead_wrTable table idx hrow.table_lt]
  have hsel : selected w.dev.ctl = rowOf table idx := by rw [hctl, hrow.selected_wr]
  have hnext := hstaged.storeWord hff hread hsel hrow.words_eq
  obtain ⟨window, rows, heq, -⟩ := w.dev.storeWord_eq j (ofWords words j)
  have hdev : (Accel.perform (.writel (ofWords words j) (.mAccdata j)) w).2.dev =
      w.dev.storeWord j (ofWords words j) := rfl
  rw [hdev]
  refine ⟨h.placed, fun _ => ?_, ?_⟩
  · rw [heq]
    exact h.threshold rfl
  · rintro _ ⟨⟩
    refine ⟨fun _ => ?_, hnext⟩
    rw [heq]
    exact hctl

/-- The callback's own access moves its view on. -/
theorem performed (hff : w.dev.FaultFree) (h : Relies w.dev cls g (some o)) (a : Access)
    (hcall : o.Ok cls g.held) (hfits : a.Fits o g.phase) :
    Relies (Accel.perform a w).2.dev cls (Progress.note o a (Accel.perform a w).1 g)
      (some o) := by
  cases a with
  | alloc cookie =>
      obtain rfl : o = .alloc cookie := hfits
      refine ⟨?_, h.threshold, by rintro _ ⟨⟩; trivial⟩
      rintro _ ⟨⟩ hsel
      exact (Bool.false_ne_true hsel).elim
  | find cookie =>
      obtain rfl : o = .find cookie := hfits
      refine ⟨?_, h.threshold, by rintro _ ⟨⟩; trivial⟩
      rintro _ ⟨⟩ hsel
      exact (Bool.false_ne_true hsel).elim
  | free slot =>
      obtain rfl : o = .free slot := hfits
      refine ⟨?_, h.threshold, by rintro _ ⟨⟩; trivial⟩
      rintro _ ⟨⟩ hsel
      exact (Bool.false_ne_true hsel).elim
  | load slot => exact h
  | readl reg =>
      cases reg with
      | control => exact h
      | dbgStatus =>
          exact h.frame rfl (fun _ hzero => hzero) (fun _ _ _ _ _ => ⟨rfl, rfl⟩)
            (fun _ _ _ _ => rfl)
      | memAccCtl => exact hfits.elim
      | mAccdata j => exact h.performed_dataRead hff hcall hfits
  | writel val reg =>
      cases reg with
      | dbgStatus => exact hfits.elim
      | control =>
          obtain ⟨held, phase⟩ := g
          obtain ⟨hout, hclear⟩ := hfits
          cases phase with
          | shut =>
              refine ⟨h.placed, fun _ => hclear rfl, ?_⟩
              rintro _ ⟨⟩
              cases o <;> trivial
          | _ =>
              refine ⟨h.placed, fun hin => absurd (hout.symm.trans hin) Bool.false_ne_true, h.shows⟩
      | memAccCtl => exact h.performed_select hff hfits
      | mAccdata j => exact h.performed_dataWrite hff hcall hfits

end Performed

/-- The row a callback is at work on is one of its slot's. -/
theorem holds (h : Relies d cls g current) {o : Call} {addr : RowAddr}
    (hcurrent : current = some o) (haddr : o.row = some addr) :
    ∃ (i : Slot) (table idx : Word) (n : Nat), g.held = some i ∧ i.HasRow table idx n ∧
      addr = rowOf table idx := by
  have hplaced := h.placed o hcurrent
  cases o with
  | maccWrite table idx words =>
      obtain ⟨i, hheld, hrow⟩ := hplaced rfl
      exact ⟨i, table, idx, words.length, hheld, hrow, (Option.some.inj haddr).symm⟩
  | maccRead table idx n =>
      obtain ⟨i, hheld, hrow⟩ := hplaced rfl
      exact ⟨i, table, idx, n, hheld, hrow, (Option.some.inj haddr).symm⟩
  | _ => exact absurd haddr nofun

/-- While words are to go, MEM_ACC_CTL points at the callback's own row. -/
theorem selected_eq (h : Relies d cls g current) {o : Call} {addr : RowAddr}
    (hcurrent : current = some o) (haddr : o.row = some addr) (hin : g.phase.inRow = true) :
    selected d.ctl = addr := by
  have hshows := h.shows o hcurrent
  have hplaced := h.placed o hcurrent
  obtain ⟨held, phase⟩ := g
  cases o with
  | maccWrite table idx words =>
      obtain rfl := Option.some.inj haddr
      obtain ⟨i, -, hrow⟩ := hplaced rfl
      match phase, hin with
      | .storing (k + 1), _ => rw [hshows.1 (Nat.succ_pos k), hrow.selected_wr]
      | .loading (k + 1) got, _ => exact hshows.elim
  | maccRead table idx n =>
      obtain rfl := Option.some.inj haddr
      obtain ⟨i, -, hrow⟩ := hplaced rfl
      match phase, hin with
      | .storing (k + 1), _ => exact hshows.elim
      | .loading (k + 1) got, _ => rw [hshows.1 (Nat.succ_pos k), hrow.selected_rd]
  | _ => exact absurd haddr nofun

/-- Rows change only in a write called for them. -/
theorem rows_eq {w : Accel} {o : Call} (hff : w.dev.FaultFree)
    (h : Relies w.dev cls g (some o)) (a : Access) (hfits : a.Fits o g.phase)
    {addr : RowAddr} (htarget : o.target ≠ some addr) :
    (Accel.perform a w).2.dev.rows addr = w.dev.rows addr := by
  cases a with
  | readl reg => cases reg <;> rfl
  | writel val reg =>
      cases reg with
      | memAccCtl => exact congrFun (hff.select val) addr
      | mAccdata j =>
          obtain ⟨held, phase⟩ := g
          obtain ⟨table, idx, words, rfl, rfl, rfl⟩ := hfits
          have hsel : selected w.dev.ctl = rowOf table idx := h.selected_eq rfl rfl rfl
          obtain ⟨window, rows, heq, hrows⟩ := w.dev.storeWord_eq j (ofWords words j)
          have hafter : (w.dev.storeWord j (ofWords words j)).rows addr = rows addr := by rw [heq]
          exact hafter.trans (hrows addr fun haddr =>
            htarget (congrArg some (haddr.trans hsel).symm))
      | _ => rfl
  | _ => rfl

theorem threshold_eq {o : Call} (h : Relies d cls g current) {a : Access}
    (hfits : a.Fits o g.phase) (hneeds : a.needsThreshold = true) :
    hwqThreshold d.control = 0 := by
  refine h.threshold ?_
  match a, hfits, hneeds with
  | .readl (.mAccdata j), ⟨_, _, _, _, _, _, hphase, _⟩, _ => rw [hphase]; rfl
  | .writel val .memAccCtl, .inl ⟨hphase, _⟩, _ => rw [hphase]; rfl
  | .writel val .memAccCtl, .inr ⟨_, hphase, _⟩, _ => rw [hphase]; rfl
  | .writel val (.mAccdata j), ⟨_, _, _, _, hphase, _⟩, _ =>
      rw [hphase]
      rfl

/-- Another callback's access, on another row, does not disturb a view if it
neither selects while words are to go nor restores while the window is open. -/
theorem others {w : Accel} {o : Call} {mover : Progress} {clsMover : FlowClsOffload}
    (hff : w.dev.FaultFree) (hmover : Relies w.dev clsMover mover (some o)) (a : Access)
    (hcall : o.Ok clsMover mover.held) (hfits : a.Fits o mover.phase)
    (h : Relies w.dev cls g current)
    (hapart : ∀ o' addr, current = some o' → o'.row = some addr → o.row ≠ some addr)
    (hselect : ∀ val, a = .writel val .memAccCtl → g.phase.inRow = false)
    (hrestore : ∀ val, a = .writel val .control → hwqThreshold val ≠ 0 →
      g.phase.inWindow = false) :
    Relies (Accel.perform a w).2.dev cls g current := by
  cases a with
  | alloc cookie => exact h
  | find cookie => exact h
  | free slot => exact h
  | load slot => exact h
  | readl reg =>
      cases reg with
      | dbgStatus =>
          exact h.frame rfl (fun _ hzero => hzero) (fun _ _ _ _ _ => ⟨rfl, rfl⟩)
            (fun _ _ _ _ => rfl)
      | _ => exact h
  | writel val reg =>
      cases reg with
      | dbgStatus => exact hfits.elim
      | control =>
          refine h.frame rfl (fun hin _ => ?_) (fun _ _ _ _ _ => ⟨rfl, rfl⟩) (fun _ _ _ _ => rfl)
          by_contra hne
          exact absurd (hin.symm.trans (hrestore val rfl hne)) nofun
      | memAccCtl =>
          refine h.frame rfl (fun _ hzero => hzero) (fun _ _ _ _ hin => ?_) (fun _ addr _ _ => ?_)
          · exact absurd (hin.symm.trans (hselect val rfl)) nofun
          · exact congrFun (hff.select val) addr
      | mAccdata j =>
          obtain ⟨held, phase⟩ := mover
          obtain ⟨table, idx, words, rfl, rfl, rfl⟩ := hfits
          have hsel : selected w.dev.ctl = rowOf table idx := hmover.selected_eq rfl rfl rfl
          obtain ⟨window, rows, heq, hrows⟩ := w.dev.storeWord_eq j (ofWords words j)
          have hdev : (Accel.perform (.writel (ofWords words j) (.mAccdata j)) w).2.dev =
              { w.dev with window := window, rows := rows } := heq
          rw [hdev]
          refine h.frame rfl (fun _ hzero => hzero) (fun o' addr hcurrent haddr hin => ?_)
            (fun o' addr hcurrent haddr => hrows addr ?_)
          · have hmine := h.selected_eq hcurrent haddr hin
            exact absurd (congrArg some (hsel.symm.trans hmine)) (hapart o' addr hcurrent haddr)
          · rintro rfl
            exact hapart o' _ hcurrent haddr (congrArg some hsel.symm)

end Relies

/-! ### Steps and runs -/

theorem perform_fates (a : Access) (w : Accel) :
    (Accel.perform a w).2.dev.fates = w.dev.fates := by
  cases a with
  | writel val reg =>
      cases reg with
      | mAccdata j =>
          obtain ⟨window, rows, heq, -⟩ := w.dev.storeWord_eq j val
          have hfates := congrArg Dev.fates heq
          exact hfates
      | _ => rfl
  | readl reg => cases reg <;> rfl
  | _ => rfl

section Moves

variable {t t' : FaThread} {w w' : Accel}

theorem moves_faultFree (hmoves : faSystem.Moves t w t' w') (hff : w.dev.FaultFree) :
    w'.dev.FaultFree := by
  cases hmoves with
  | accessed o a k next htask =>
      intro turn
      rw [show (faSystem.perform a w).2.dev.fates = w.dev.fates from perform_fates a w]
      exact hff turn
  | _ => exact hff

/-- A callback's own step keeps its view. -/
theorem moves_relies (hmoves : faSystem.Moves t w t' w')
    (hfollows : (faRules t.job).ThreadFollows faSystem t) (hff : w.dev.FaultFree)
    (h : Relies w.dev t.job t.ghost t.current) : Relies w'.dev t'.job t'.ghost t'.current := by
  cases hmoves with
  | ended value htask => exact h
  | entered o next htask =>
      have hok : o.Ok t.job t.ghost.held := by
        simp only [Rules.ThreadFollows, htask] at hfollows
        exact hfollows.1
      refine ⟨?_, fun hin => absurd hin nofun, ?_⟩
      · rintro _ ⟨⟩ _
        exact hok
      · rintro _ ⟨⟩
        cases o <;> trivial
  | left o a next htask => exact ⟨nofun, h.threshold, nofun⟩
  | accessed o a k next htask =>
      have hpending : t.pending = some (o, a) := by simp [Thread.pending, htask]
      obtain ⟨hcall, hfits⟩ := hfollows.pending hpending
      have hcurrent : t.current = some o := by simp [Thread.current, htask]
      rw [hcurrent] at h
      exact h.performed hff a hcall hfits

/-- It keeps the view of a callback it stays apart from. -/
theorem moves_others {u : FaThread} (hmoves : faSystem.Moves t w t' w')
    (hfollows : (faRules t.job).ThreadFollows faSystem t) (hff : w.dev.FaultFree)
    (ht : Relies w.dev t.job t.ghost t.current) (hu : Relies w.dev u.job u.ghost u.current)
    (hheld : ∀ i, t.ghost.held = some i → u.ghost.held ≠ some i)
    (hselect : ∀ o val, t.pending = some (o, .writel val .memAccCtl) →
      u.ghost.phase.inRow = false)
    (hrestore : ∀ o val, t.pending = some (o, .writel val .control) → hwqThreshold val ≠ 0 →
      u.ghost.phase.inWindow = false) : Relies w'.dev u.job u.ghost u.current := by
  cases hmoves with
  | accessed o a k next htask =>
      have hpending : t.pending = some (o, a) := by simp [Thread.pending, htask]
      obtain ⟨hcall, hfits⟩ := hfollows.pending hpending
      have hcurrent : t.current = some o := by simp [Thread.current, htask]
      rw [hcurrent] at ht
      refine ht.others hff a hcall hfits hu (fun o' addr hcurrent' haddr' haddr => ?_)
        (fun val ha => hselect o val (ha ▸ hpending))
        (fun val ha => hrestore o val (ha ▸ hpending))
      obtain ⟨i, table, idx, n, hi, hrow, rfl⟩ := ht.holds rfl haddr
      obtain ⟨j, table', idx', n', hj, hrow', heq⟩ := hu.holds hcurrent' haddr'
      refine hrow.rowOf_ne hrow' ?_ heq
      rintro rfl
      exact hheld i hi hj
  | _ => exact hu

end Moves

namespace Traffic

structure WindowInv (s : Traffic) : Prop where
  inv : s.Inv
  faultFree : s.dev.FaultFree
  relies : ∀ t ∈ s.pool.threads, Relies s.dev t.job t.ghost t.current

theorem loaded_windowInv {dev : Dev} (h : dev.FaultFree) : (loaded dev).WindowInv where
  inv := loaded_inv dev
  faultFree := h
  relies _ ht := absurd ht List.not_mem_nil

theorem WindowInv.next {s : Traffic} (h : s.WindowInv) {e : Event} (hapart : s.apart e = true) :
    (s.next e).WindowInv := by
  have hinv := h.inv.next e
  cases e with
  | start cls =>
      refine ⟨hinv, ?_, ?_⟩
      · simp only [Traffic.next]
        split <;> exact h.faultFree
      · simp only [Traffic.next]
        split
        · exact h.relies
        · intro t ht
          rcases List.mem_append.mp ht with ht | ht
          · exact h.relies t ht
          · obtain rfl := List.mem_singleton.mp ht
            exact .fresh s.dev cls
  | step id =>
      cases ht : s.pool.threads[id]? with
      | none =>
          rw [next_step_none ht]
          exact h
      | some t =>
          have hmem : t ∈ s.pool.threads := List.mem_of_getElem? ht
          cases hret : t.returned with
          | some ret =>
              rw [next_step_ended ht hret] at hinv ⊢
              exact ⟨hinv, h.faultFree, fun u hu => h.relies u (List.mem_of_mem_eraseIdx hu)⟩
          | none =>
              have hmoves := faSystem.stepThread_moves t s.pool.shared
              have hfollows := h.inv.follows t hmem
              have hshared : (s.pool.advance faSystem id).shared =
                  (faSystem.stepThread t s.pool.shared).2 := by rw [Pool.advance_some ht]
              rw [next_step_advance ht hret] at hinv ⊢
              refine ⟨hinv, ?_, fun u hu => ?_⟩
              · rw [dev, hshared]
                exact moves_faultFree hmoves h.faultFree
              · rw [dev, hshared]
                rcases Pool.mem_advance ht hu with rfl | ⟨k, hne, hu⟩
                · exact moves_relies hmoves hfollows h.faultFree (h.relies t hmem)
                · refine moves_others hmoves hfollows h.faultFree (h.relies t hmem)
                    (h.relies u (List.mem_of_getElem? hu)) ?_
                    (fun o val hpending => apart_select hapart ht hpending hu hne)
                    (fun o val hpending hval => apart_restore hapart ht hpending hval hu hne)
                  intro i hi hi'
                  exact hne (h.inv.exclusive.callbacks hu ht hi' hi)

/-- What a window access finds and changes, from the view of the callback that
makes it. -/
theorem WindowInv.kept {s : Traffic} (h : s.WindowInv) {id : Nat} {t : FaThread}
    (ht : s.pool.threads[id]? = some t) : s.WindowKept id t := by
  have hmem : t ∈ s.pool.threads := List.mem_of_getElem? ht
  have hfollows := h.inv.follows t hmem
  have hrelies := h.relies t hmem
  refine ⟨?_, ?_, ?_, ?_⟩
  · intro o a hpending hneeds
    exact hrelies.threshold_eq (hfollows.pending hpending).2 hneeds
  · intro o a addr hpending htarget
    obtain ⟨hret, hcurrent, hstep⟩ := faSystem.stepThread_pending hpending s.pool.shared
    rw [hcurrent] at hrelies
    rw [next_step_advance ht hret, dev, Pool.advance_some ht, hstep]
    exact hrelies.rows_eq h.faultFree a (hfollows.pending hpending).2 htarget
  · intro table idx words idle next htask j hj
    have hshows := hrelies.shows (.maccWrite table idx words) (by simp [Thread.current, htask])
    simp only [Rules.ThreadFollows, htask] at hfollows
    obtain ⟨start, hdone, -⟩ := hfollows
    have hphase : t.ghost.phase = .storing 0 := hdone.2
    rw [hphase] at hshows
    simpa using hshows.2 j (Nat.zero_le j) hj
  · intro table idx n idle got next htask
    have hshows := hrelies.shows (.maccRead table idx n) (by simp [Thread.current, htask])
    simp only [Rules.ThreadFollows, htask] at hfollows
    obtain ⟨start, hdone, -⟩ := hfollows
    have hphase : t.ghost.phase = .loaded got := hdone.2.1
    have hlen : got.length = n := hdone.2.2
    rw [hphase] at hshows
    subst hlen
    exact hshows

/-- Callbacks that stay apart in the window find it as if they were alone. -/
theorem windowSafe_run (dev : Dev) (events : List Event) (hff : dev.FaultFree)
    (hapart : EveryStep next (fun s e => s.apart e = true) (loaded dev) events) :
    EveryStep next WindowSafe (loaded dev) events := by
  refine EveryStep.of_invariant (fun s e h _ => ?_) (fun s e h he => h.next he)
    (loaded_windowInv hff) hapart
  cases e with
  | start cls => trivial
  | step id => exact fun t ht => h.kept ht

/-- Two REPLACEs, the second one held between its slot and its row until the
first is through with its next-hop row. -/
def inTurn : List Event :=
  [.start ⟨.replace, 7, .toWan fun _ => 0xFF⟩, .start ⟨.replace, 8, .toWan fun _ => 0⟩] ++
    List.replicate 6 (.step 1) ++ List.replicate 29 (.step 0) ++ List.replicate 23 (.step 1)

theorem windowSafe_run_inTurn :
    Dev.FaultFree (.reset .wordByWord fun _ => .clean) ∧
      EveryStep next (fun s e => s.apart e = true) (loaded (.reset .wordByWord fun _ => .clean))
        inTurn ∧
      EveryStep next WindowSafe (loaded (.reset .wordByWord fun _ => .clean)) inTurn := by
  have hff : Dev.FaultFree (.reset .wordByWord fun _ => .clean) := fun _ => Fate.clean_faultFree
  have hapart : EveryStep next (fun s e => s.apart e = true)
      (loaded (.reset .wordByWord fun _ => .clean)) inTurn := by decide +kernel
  exact ⟨hff, hapart, windowSafe_run _ _ hff hapart⟩

/-- Two REPLACEs that select their next-hop rows one after the other. -/
def crossing : List Event :=
  [.start ⟨.replace, 7, .toWan fun _ => 0xFF⟩, .start ⟨.replace, 8, .toWan fun _ => 0⟩] ++
    List.replicate 10 (.step 0) ++ List.replicate 10 (.step 1)

/-- The first one's data word then goes to the second one's row. -/
theorem windowSafe_run_crossing :
    ¬ EveryStep next WindowSafe (loaded (.reset .wordByWord fun _ => .clean))
      (crossing ++ [.step 0]) := by
  intro hrun
  have hlast := ((everyStep_append _ _ crossing [.step 0]).mp hrun).2.1
  have hpending : ((crossing.foldl next
      (loaded (.reset .wordByWord fun _ => .clean))).pool.threads[0]?.bind Thread.pending) =
        some (.maccWrite 2 1 (faSetNhEntry (fun _ => 0xFF) 0 CTF_NH_OP_NOTAG 0),
          .writel 7 (.mAccdata 2)) := by decide +kernel
  obtain ⟨t, ht, hpending⟩ := Option.bind_eq_some_iff.mp hpending
  have hrow := (hlast t ht).ownRow _ _ (nhRowAt 2) hpending (by decide)
  have hword := congrFun hrow 2
  exact absurd hword (by decide +kernel)

end Traffic

end R8000Plus.Fa

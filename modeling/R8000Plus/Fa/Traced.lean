import R8000Plus.Fa.NextHops

/-!
Single accesses with a record of which flow wrote each NF row. The record says
what every intermediate moment of a write leaves of the rows and of their
flows; it does not influence the driver.
-/

namespace R8000Plus.Fa

open Effects

/-- The driver and its device, with the flows of the NF rows. -/
structure Traced where
  accel : Accel
  nhOf : NhOf

/-- The NF row that an access stores to. -/
def Dev.storesNf (d : Dev) : Access → Option Nat
  | .writel _ (.mAccdata j) =>
      if selectsRead d.ctl = false ∧ (selected d.ctl).table = 0 ∧
          (d.store = .wordByWord ∨ j = 0) then
        some (selected d.ctl).idx
      else none
  | _ => none

namespace Traced

/-- One access by a callback that installs a flow with next hop `nh`, or by one
that installs none. -/
def perform (nh : Option (List Word)) (o : Access) (s : Traced) : o.Ans × Traced :=
  ((Accel.perform o s.accel).1,
    { accel := (Accel.perform o s.accel).2
      nhOf :=
        match s.accel.dev.storesNf o with
        | some idx => s.nhOf.note nh idx
        | none => s.nhOf })

/-- No valid NF row has lost its next hop. -/
def Kept (s : Traced) : Prop := s.accel.dev.rows.NhKept s.nhOf

def OwnNh (s : Traced) : Prop := s.accel.dev.rows.OwnNh s.nhOf

/-- The record of flows does not influence the driver. -/
theorem run_accel {α : Type} (nh : Option (List Word)) (p : FaProg α) (s : Traced) :
    ((p.run (perform nh) s).1, (p.run (perform nh) s).2.accel) = p.run Accel.perform s.accel :=
  Prog.run_proj (f := Traced.accel) (fun _ _ => rfl) p s

/-! ### Accesses that store nothing -/

end Traced

def Access.Quiet : Access → Prop
  | .writel _ (.mAccdata _) => False
  | _ => True

theorem war777On_quiet : war777On.Uses Access.Quiet :=
  war777On_uses trivial fun _ => trivial

theorem war777Off_quiet : war777Off.Uses Access.Quiet :=
  war777Off_uses trivial fun _ => trivial

theorem waitMaccIdle_quiet (steps : Nat) : (waitMaccIdle steps).Uses Access.Quiet :=
  waitMaccIdle_uses trivial steps

theorem readWords_quiet (i n : Nat) : (readWords i n).Uses Access.Quiet := by
  induction n generalizing i with
  | zero => trivial
  | succ n ih => exact ⟨trivial, fun word => (ih (i + 1)).bind fun rest => trivial⟩

theorem faMaccRead_quiet (table idx : Word) (n : Nat) :
    (faMaccRead table idx n).Uses Access.Quiet := by
  refine war777On_quiet.bind fun _ => ⟨trivial, fun _ => (waitMaccIdle_quiet _).bind fun idle =>
    (readWords_quiet 0 n).bind fun words => ⟨trivial, fun _ =>
      war777Off_quiet.bind fun _ => trivial⟩⟩

namespace Traced

theorem perform_quiet (nh : Option (List Word)) {o : Access} (ho : o.Quiet) (s : Traced) :
    s.accel.dev.rows.SameNh (perform nh o s).2.accel.dev.rows ∧
      (perform nh o s).2.nhOf = s.nhOf := by
  cases o with
  | writel val reg =>
      cases reg with
      | mAccdata j => exact ho.elim
      | memAccCtl => exact ⟨Tables.sameNh_counted _ _, rfl⟩
      | control => exact ⟨.refl _, rfl⟩
      | dbgStatus => exact ⟨.refl _, rfl⟩
  | readl reg => cases reg <;> exact ⟨.refl _, rfl⟩
  | alloc cookie => exact ⟨.refl _, rfl⟩
  | find cookie => exact ⟨.refl _, rfl⟩
  | free slot => exact ⟨.refl _, rfl⟩
  | load slot => exact ⟨.refl _, rfl⟩

theorem kept_quiet (nh : Option (List Word)) (o : Access) (s : Traced) (ho : o.Quiet)
    (h : s.Kept) : (perform nh o s).2.Kept := by
  obtain ⟨hrows, hnhOf⟩ := perform_quiet nh ho s
  rw [Kept, hnhOf, hrows.nhKept]
  exact h

theorem run_quiet {α : Type} (nh : Option (List Word)) {p : FaProg α} (hp : p.Uses Access.Quiet)
    (s : Traced) :
    s.accel.dev.rows.SameNh (p.run (perform nh) s).2.accel.dev.rows ∧
      (p.run (perform nh) s).2.nhOf = s.nhOf := by
  refine Prog.Uses.run (perform nh)
    (fun s' => s.accel.dev.rows.SameNh s'.accel.dev.rows ∧ s'.nhOf = s.nhOf) ?_ hp ⟨.refl _, rfl⟩
  rintro o s' ho ⟨hrows, hnhOf⟩
  obtain ⟨hrows', hnhOf'⟩ := perform_quiet nh ho s'
  exact ⟨hrows.trans hrows', hnhOf'.trans hnhOf⟩

/-! ### The write loop -/

/-- The state after the data words from `k` on went through the window. -/
def filled (nh : Option (List Word)) (s : Traced) (words : List Word) (k : Nat) : Traced where
  accel := { s.accel with dev := s.accel.dev.filled words k }
  nhOf :=
    if k < words.length ∧ (selected s.accel.dev.ctl).table = 0 then
      s.nhOf.partly s.accel.dev.store nh (selected s.accel.dev.ctl).idx k
    else s.nhOf

end Traced

@[simp] theorem Dev.filled_store (d : Dev) (words : List Word) (k : Nat) :
    (d.filled words k).store = d.store := by
  simp only [Dev.filled]
  split
  · rfl
  · split <;> rfl

@[simp] theorem Dev.filled_ctl (d : Dev) (words : List Word) (k : Nat) :
    (d.filled words k).ctl = d.ctl := by
  simp only [Dev.filled]
  split
  · rfl
  · split <;> rfl

theorem Dev.filled_rows (d : Dev) (words : List Word) (k : Nat) (hidle : d.fate.idle = true)
    (hlen : words.length = (selected d.ctl).words) :
    (d.filled words k).rows = d.rows.partly d.store (selected d.ctl) words k := by
  cases hstore : d.store with
  | wordByWord => simp [Dev.filled, hstore, Tables.partly, Fate.landed_of_idle hidle]
  | onWordZero =>
      by_cases hk : k = 0
      · subst hk
        simp only [Dev.filled, hstore, Tables.partly, Fate.landed_of_idle hidle, if_true]
        exact d.rows.setRow_congr _ _ _ fun j hj => by simp [hlen, hj]
      · simp [Dev.filled, hstore, Tables.partly, hk]

@[simp] theorem NhOf.note_note (nhOf : NhOf) (nh : Option (List Word)) (idx : Nat) :
    (nhOf.note nh idx).note nh idx = nhOf.note nh idx := by
  cases nh with
  | none => rfl
  | some words => exact Function.update_idem _ _ _

namespace Traced

theorem perform_filled (nh : Option (List Word)) (s : Traced) (words : List Word) (k : Nat)
    (hctl : selectsRead s.accel.dev.ctl = false) (hk : k < words.length)
    (hlen : words.length = (selected s.accel.dev.ctl).words) :
    perform nh (.writel (ofWords words k) (.mAccdata k)) (s.filled nh words (k + 1)) =
      ((), s.filled nh words k) := by
  have hdev := s.accel.dev.storeWord_filled words k hctl hk hlen
  have haccel : (Accel.perform (.writel (ofWords words k) (.mAccdata k))
      (s.filled nh words (k + 1)).accel).2 = (s.filled nh words k).accel := by
    simp only [Accel.perform, filled, Dev.writel, hdev]
  refine Prod.ext rfl ?_
  simp only [perform, haccel]
  simp only [filled, Dev.storesNf, Dev.filled_ctl, Dev.filled_store, hctl, true_and,
    Traced.mk.injEq]
  by_cases htable : (selected s.accel.dev.ctl).table = 0
  · cases hstore : s.accel.dev.store with
    | wordByWord =>
        by_cases hk' : k + 1 < words.length <;> simp [htable, hk, hk', NhOf.partly]
    | onWordZero =>
        by_cases hk0 : k = 0
        · subst hk0
          by_cases hk' : 1 < words.length <;> simp [htable, hk, hk', NhOf.partly]
        · by_cases hk' : k + 1 < words.length <;> simp [htable, hk, hk', NhOf.partly, hk0]
  · simp [htable]

/-- Through the write loop the property holds at every moment exactly when it
holds at each stage of the row. -/
theorem writeWords_always_iff (nh : Option (List Word)) (s : Traced) (words : List Word)
    (P : Traced → Prop) (k : Nat) (hctl : selectsRead s.accel.dev.ctl = false)
    (hk : k ≤ words.length) (hlen : words.length = (selected s.accel.dev.ctl).words) :
    (writeWords words k).Always (perform nh) P (s.filled nh words k) ↔
      ∀ m < k, P (s.filled nh words m) := by
  induction k with
  | zero => simp [writeWords]
  | succ k ih =>
      have hstep := s.perform_filled nh words k hctl hk hlen
      simp only [writeWords, writel, Prog.request_bind, Prog.always_ask, hstep]
      rw [ih (by omega)]
      constructor
      · rintro ⟨hk, hbelow⟩ m hm
        rcases Nat.lt_succ_iff_lt_or_eq.mp hm with hlt | rfl
        · exact hbelow m hlt
        · exact hk
      · intro h
        exact ⟨h k (Nat.lt_succ_self k), fun m hm => h m (Nat.lt_succ_of_lt hm)⟩

theorem writeWords_run (nh : Option (List Word)) (s : Traced) (words : List Word) (k : Nat)
    (hctl : selectsRead s.accel.dev.ctl = false) (hk : k ≤ words.length)
    (hlen : words.length = (selected s.accel.dev.ctl).words) :
    (writeWords words k).run (perform nh) (s.filled nh words k) = ((), s.filled nh words 0) := by
  induction k with
  | zero => rfl
  | succ k ih =>
      have hstep := s.perform_filled nh words k hctl hk hlen
      simp only [writeWords, writel, Prog.request_bind, Prog.run_ask, hstep]
      exact ih (by omega)

theorem filled_length (nh : Option (List Word)) (s : Traced) (words : List Word)
    (hpos : 0 < words.length) (hlen : words.length = (selected s.accel.dev.ctl).words) :
    s.filled nh words words.length = s := by
  have hdev := s.accel.dev.filled_length words hpos hlen
  simp [filled, hdev]

/-! ### One write call -/

/-- With the threshold off and the row selected. -/
def started (s : Traced) (table idx : Word) : Traced where
  accel :=
    { s.accel with
      dev := { s.accel.dev with control := hwqCleared s.accel.dev.control }.select
        (ctfMemaccWrTable table idx) }
  nhOf := s.nhOf

/-- What the write of one row has done to the flows' record with the words from
`m` on through. -/
def nhOfAt (nh : Option (List Word)) (s : Traced) (addr : RowAddr) (m : Nat) : NhOf :=
  if addr.table = 0 then s.nhOf.partly s.accel.dev.store nh addr.idx m else s.nhOf

/-- What `fa_macc_write` does before and after its data words. -/
def writeHead (table idx : Word) : FaProg Unit := do
  war777On
  writel (ctfMemaccWrTable table idx) .memAccCtl

def writeTail : FaProg Bool := do
  let idle ← waitMaccIdle MEM_ACC_POLL_STEPS
  war777Off
  return idle

theorem faMaccWrite_eq (table idx : Word) (words : List Word) :
    faMaccWrite table idx words =
      writeHead table idx >>= fun _ => writeWords words words.length >>= fun _ => writeTail := rfl

theorem writeHead_quiet (table idx : Word) : (writeHead table idx).Uses Access.Quiet :=
  war777On_quiet.bind fun _ => ⟨trivial, fun _ => trivial⟩

theorem writeTail_quiet : writeTail.Uses Access.Quiet :=
  (waitMaccIdle_quiet _).bind fun _ => war777Off_quiet.bind fun _ => trivial

theorem writeHead_run (nh : Option (List Word)) (s : Traced) (table idx : Word) :
    (writeHead table idx).run (perform nh) s = ((), s.started table idx) := rfl

section Write

variable (nh : Option (List Word)) (s : Traced) (table idx : Word) (words : List Word)
variable (addr : RowAddr) (ht : table.toNat < 2 ^ 2) (hi : idx.toNat < 2 ^ 10)
variable (haddr : addr = ⟨table.toNat, idx.toNat⟩) (hpos : 0 < words.length)
variable (hlen : words.length = addr.words)

include ht hi haddr in
theorem started_selected : selected (s.started table idx).accel.dev.ctl = addr := by
  rw [haddr, ← selected_wrTable table idx ht hi]
  rfl

include ht hi haddr hlen in
theorem started_filled (hidle : s.accel.dev.nextFate.idle = true) (m : Nat)
    (hm : m < words.length) :
    (filled nh (s.started table idx) words m).accel.dev.rows =
        s.accel.dev.countedRows.partly s.accel.dev.store addr words m ∧
      (filled nh (s.started table idx) words m).nhOf = s.nhOfAt nh addr m := by
  have hsel := started_selected s table idx addr ht hi haddr
  constructor
  · have hrows := (s.started table idx).accel.dev.filled_rows words m hidle (by rw [hsel, hlen])
    rw [hsel] at hrows
    exact hrows
  · simp only [filled, hsel, nhOfAt, hm, true_and]
    rfl

include ht hi haddr hpos hlen

theorem faMaccWrite_split :
    (faMaccWrite table idx words).run (perform nh) s =
        writeTail.run (perform nh) (filled nh (s.started table idx) words 0) ∧
      (s.Kept → ((faMaccWrite table idx words).Always (perform nh) Kept s ↔
        ∀ m < words.length, (filled nh (s.started table idx) words m).Kept)) := by
  have hsel := started_selected s table idx addr ht hi haddr
  have hctl : selectsRead (s.started table idx).accel.dev.ctl = false :=
    selectsRead_wrTable table idx ht
  have hlen' : words.length = (selected (s.started table idx).accel.dev.ctl).words := by
    rw [hsel, hlen]
  have hfull := filled_length nh (s.started table idx) words hpos hlen'
  have hloop := writeWords_run nh (s.started table idx) words words.length hctl le_rfl hlen'
  have halways := writeWords_always_iff nh (s.started table idx) words Kept words.length hctl
    le_rfl hlen'
  rw [hfull] at hloop halways
  rw [faMaccWrite_eq]
  constructor
  · rw [Prog.run_bind_of_eq _ (writeHead_run nh s table idx), Prog.run_bind_of_eq _ hloop]
  · intro hkept
    rw [Prog.always_bind, writeHead_run, Prog.always_bind, halways, hloop]
    constructor
    · exact fun h => h.2.1
    · intro h
      exact ⟨(writeHead_quiet table idx).always (perform nh) Kept (kept_quiet nh) hkept, h,
        writeTail_quiet.always (perform nh) Kept (kept_quiet nh) (h 0 hpos)⟩

/-- A write that is performed does no harm at any moment exactly when no stage
of its row does. -/
theorem faMaccWrite_kept_iff (hidle : s.accel.dev.nextFate.idle = true) (hkept : s.Kept) :
    (faMaccWrite table idx words).Always (perform nh) Kept s ↔
      ∀ m < words.length,
        (s.accel.dev.countedRows.partly s.accel.dev.store addr words m).NhKept
          (s.nhOfAt nh addr m) := by
  rw [(faMaccWrite_split nh s table idx words addr ht hi haddr hpos hlen).2 hkept]
  refine forall₂_congr fun m hm => ?_
  obtain ⟨hrows, hnhOf⟩ := started_filled nh s table idx words addr ht hi haddr hlen hidle m hm
  rw [Kept, hrows, hnhOf]

theorem faMaccWrite_nhOf (hidle : s.accel.dev.nextFate.idle = true) :
    ((faMaccWrite table idx words).run (perform nh) s).2.nhOf = s.nhOfAt nh addr 0 := by
  rw [(faMaccWrite_split nh s table idx words addr ht hi haddr hpos hlen).1,
    (run_quiet nh writeTail_quiet _).2,
    (started_filled nh s table idx words addr ht hi haddr hlen hidle 0 hpos).2]

end Write

end Traced

end R8000Plus.Fa

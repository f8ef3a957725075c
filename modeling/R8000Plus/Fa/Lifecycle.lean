import R8000Plus.Fa.Callbacks

/-!
Load, block setup and unload of `fa_accel.c`. The block callbacks themselves
live in the kernel, which is a parameter here; what its functions do to them is
stated in `Kernel.Documented`.
-/

namespace R8000Plus.Fa

/-- `enum flow_block_command`. -/
inductive BlockCommand where
  | bind
  | unbind
  | other
  deriving DecidableEq, Repr

/-- How a block callback was put on its block: by `flow_block_cb_setup_simple`,
or as one from `flow_indr_block_cb_alloc` with the module's release function. -/
inductive Registration where
  | simple
  | indirect
  deriving DecidableEq, Repr

structure Kernel where
  State : Type
  ioremap : State → Bool
  flowIndrDevRegister : State → Int × State
  flowIndrDevUnregister : State → State
  /-- With `fa_setup_block_cb` as the callback and the device as its identity. -/
  flowBlockCbSetupSimple : NetDevice → BlockCommand → State → Int × State
  /-- The flow block of a device holds a callback to `fa_setup_block_cb`. -/
  Holds : State → NetDevice → Registration → Prop

/-- What the kernel documents about block callbacks. -/
structure Kernel.Documented (K : Kernel) : Prop where
  register : ∀ s dev reg, K.Holds (K.flowIndrDevRegister s).2 dev reg ↔ K.Holds s dev reg
  unregister_simple : ∀ s dev,
    K.Holds (K.flowIndrDevUnregister s) dev .simple ↔ K.Holds s dev .simple
  unregister_indirect : ∀ s dev, ¬ K.Holds (K.flowIndrDevUnregister s) dev .indirect
  bind : ∀ s dev, (K.flowBlockCbSetupSimple dev .bind s).1 = 0 →
    ∀ other, K.Holds (K.flowBlockCbSetupSimple dev .bind s).2 other .simple ↔
      other = dev ∨ K.Holds s other .simple
  bind_failed : ∀ s dev, (K.flowBlockCbSetupSimple dev .bind s).1 ≠ 0 →
    ∀ other, K.Holds (K.flowBlockCbSetupSimple dev .bind s).2 other .simple ↔
      K.Holds s other .simple
  unbind : ∀ s dev other, K.Holds (K.flowBlockCbSetupSimple dev .unbind s).2 other .simple ↔
    other ≠ dev ∧ K.Holds s other .simple
  other : ∀ s dev other, K.Holds (K.flowBlockCbSetupSimple dev .other s).2 other .simple ↔
    K.Holds s other .simple

/-- The module's static data and the kernel it is loaded into. -/
structure Module (K : Kernel) where
  live : Bool
  /-- `fa_base` is mapped. -/
  faBase : Bool
  flows : Slots
  kernel : K.State

def ENOMEM : Int := 12

section Module

variable {K : Kernel}

def faAccelInit (live : Bool) (s : K.State) : Int × Module K :=
  if live = true ∧ K.ioremap s = false then (-ENOMEM, ⟨live, false, Slots.loaded, s⟩)
  else
    let (ret, s) := K.flowIndrDevRegister s
    if ret ≠ 0 then (ret, ⟨live, false, Slots.loaded, s⟩)
    else (0, ⟨live, live, Slots.loaded, s⟩)

/-- A block setup request as the indirect-device core delivers it. -/
structure IndrRequest where
  dev : Option NetDevice
  type : TcSetupType
  command : BlockCommand

def faIndrSetupCb (req : IndrRequest) (m : Module K) : Int × Module K :=
  match req.dev with
  | none => (-EOPNOTSUPP, m)
  | some dev =>
      if req.type ≠ .ft then (-EOPNOTSUPP, m)
      else
        let (ret, s) := K.flowBlockCbSetupSimple dev req.command m.kernel
        (ret, { m with kernel := s })

/-- The count is the one in the log line about flows left open. -/
def faAccelExit (m : Module K) : Nat × Module K :=
  let s := K.flowIndrDevUnregister m.kernel
  let (leaked, flows) := if m.live then m.flows.releaseOpen else (0, m.flows)
  (leaked, { m with kernel := s, flows := flows, faBase := false })

namespace Module

abbrev setup (m : Module K) (req : IndrRequest) : Module K := (faIndrSetupCb req m).2

/-- A FLOW_CLS request on the block of `dev` calls into the module. -/
def Enters (m : Module K) (dev : NetDevice) : Prop := ∃ reg, K.Holds m.kernel dev reg

/-- The request asks for `command` on `dev` and gets past the checks. -/
def Asks (req : IndrRequest) (command : BlockCommand) (dev : NetDevice) : Prop :=
  req.dev = some dev ∧ req.type = .ft ∧ req.command = command

/-- Every BIND the kernel accepted is followed by an UNBIND of its device. -/
def Unbound (m : Module K) (reqs : List IndrRequest) : Prop :=
  ∀ pre req suf dev, reqs = pre ++ req :: suf → Asks req .bind dev →
    (K.flowBlockCbSetupSimple dev .bind (pre.foldl setup m).kernel).1 = 0 →
    ∃ later ∈ suf, Asks later .unbind dev

/-- What one request does to the simple callback of a device. -/
theorem setup_holds_iff (hK : K.Documented) (m : Module K) (req : IndrRequest)
    (dev : NetDevice) :
    K.Holds (m.setup req).kernel dev .simple ↔
      (Asks req .bind dev ∧ (K.flowBlockCbSetupSimple dev .bind m.kernel).1 = 0) ∨
        (K.Holds m.kernel dev .simple ∧ ¬ Asks req .unbind dev) := by
  obtain ⟨rdev, type, command⟩ := req
  cases rdev with
  | none => simp [setup, faIndrSetupCb, Asks]
  | some d =>
      by_cases htype : type = .ft
      · subst htype
        cases command with
        | bind =>
            by_cases hret : (K.flowBlockCbSetupSimple d .bind m.kernel).1 = 0
            · have hbind := hK.bind m.kernel d hret dev
              simp only [setup, faIndrSetupCb, Asks, ne_eq, not_true, if_false, hbind]
              by_cases hdev : dev = d
              · simp [hdev, hret]
              · simp [hdev, Ne.symm hdev]
            · have hbind := hK.bind_failed m.kernel d hret dev
              simp only [setup, faIndrSetupCb, Asks, ne_eq, not_true, if_false, hbind]
              by_cases hdev : d = dev
              · simp [← hdev, hret]
              · simp [hdev]
        | unbind =>
            have hunbind := hK.unbind m.kernel d dev
            simp only [setup, faIndrSetupCb, Asks, ne_eq, not_true, if_false, hunbind]
            by_cases hdev : dev = d
            · simp [hdev]
            · simp [hdev, Ne.symm hdev]
        | other =>
            have hother := hK.other m.kernel d dev
            simp [setup, faIndrSetupCb, Asks, hother]
      · simp [setup, faIndrSetupCb, Asks, htype]

/-- After a run of requests a device's block holds the callback exactly when
the run left it there: held from before, or by an accepted BIND, and not
removed after that. -/
theorem run_holds_iff (hK : K.Documented) (m : Module K) (reqs : List IndrRequest)
    (dev : NetDevice) :
    K.Holds (reqs.foldl setup m).kernel dev .simple ↔
      (∃ pre req suf, reqs = pre ++ req :: suf ∧ Asks req .bind dev ∧
          (K.flowBlockCbSetupSimple dev .bind (pre.foldl setup m).kernel).1 = 0 ∧
          ∀ later ∈ suf, ¬ Asks later .unbind dev) ∨
        (K.Holds m.kernel dev .simple ∧ ∀ later ∈ reqs, ¬ Asks later .unbind dev) := by
  induction reqs generalizing m with
  | nil => simp
  | cons req reqs ih =>
      rw [List.foldl_cons, ih, setup_holds_iff hK]
      constructor
      · rintro (⟨pre, r, suf, rfl, hrest⟩ | ⟨⟨hbind, hret⟩ | ⟨hheld, hkeep⟩, hlater⟩)
        · exact .inl ⟨req :: pre, r, suf, rfl, hrest⟩
        · exact .inl ⟨[], req, reqs, rfl, hbind, hret, hlater⟩
        · exact .inr ⟨hheld, by simpa using ⟨hkeep, hlater⟩⟩
      · rintro (⟨pre, r, suf, hsplit, hbind, hret, hlater⟩ | ⟨hheld, hlater⟩)
        · cases pre with
          | nil =>
              obtain ⟨rfl, rfl⟩ := List.cons_eq_cons.mp hsplit
              exact .inr ⟨.inl ⟨hbind, hret⟩, hlater⟩
          | cons p pre =>
              obtain ⟨rfl, rfl⟩ := List.cons_eq_cons.mp hsplit
              exact .inl ⟨pre, r, suf, rfl, hbind, hret, hlater⟩
        · rw [List.forall_mem_cons] at hlater
          exact .inr ⟨.inr ⟨hheld, hlater.1⟩, hlater.2⟩

theorem init_holds_iff (hK : K.Documented) (live : Bool) (s : K.State) (dev : NetDevice)
    (reg : Registration) :
    K.Holds (faAccelInit live s : Int × Module K).2.kernel dev reg ↔ K.Holds s dev reg := by
  simp only [faAccelInit]
  split
  · rfl
  · split <;> exact hK.register s dev reg

theorem exit_enters_iff (hK : K.Documented) (m : Module K) (dev : NetDevice) :
    (faAccelExit m).2.Enters dev ↔ K.Holds m.kernel dev .simple := by
  constructor
  · rintro ⟨reg, hheld⟩
    cases reg with
    | simple => exact (hK.unregister_simple m.kernel dev).mp hheld
    | indirect => exact absurd hheld (hK.unregister_indirect m.kernel dev)
  · intro hheld
    exact ⟨.simple, (hK.unregister_simple m.kernel dev).mpr hheld⟩

/-- After unload no block calls into the module exactly when every accepted
BIND was undone before. -/
theorem exit_quiet_iff (hK : K.Documented) (live : Bool) (s : K.State)
    (reqs : List IndrRequest) (hfresh : ∀ dev, ¬ K.Holds s dev .simple) :
    (∀ dev, ¬ (faAccelExit (reqs.foldl setup (faAccelInit live s).2)).2.Enters dev) ↔
      Unbound (faAccelInit live s).2 reqs := by
  have hnone : ∀ dev, ¬ K.Holds (faAccelInit live s : Int × Module K).2.kernel dev .simple :=
    fun dev => by
      rw [init_holds_iff hK]
      exact hfresh dev
  simp only [exit_enters_iff hK, run_holds_iff hK]
  constructor
  · intro hquiet pre req suf dev hsplit hbind hret
    by_contra hlater
    refine hquiet dev (.inl ⟨pre, req, suf, hsplit, hbind, hret, fun later hmem hasks => ?_⟩)
    exact hlater ⟨later, hmem, hasks⟩
  · rintro hunbound dev (⟨pre, req, suf, hsplit, hbind, hret, hlater⟩ | ⟨hheld, -⟩)
    · obtain ⟨later, hmem, hasks⟩ := hunbound pre req suf dev hsplit hbind hret
      exact hlater later hmem hasks
    · exact hnone dev hheld

end Module

end Module

/-! ### A kernel that keeps a list -/

def EBUSY : Int := 16
def ENOENT : Int := 2

/-- Block callbacks as a list of who holds one. -/
abbrev BlockList := List (NetDevice × Registration)

/-- A second BIND of a device is busy. -/
def BlockList.setup (dev : NetDevice) (command : BlockCommand) (s : BlockList) :
    Int × BlockList :=
  match command with
  | .bind => if (dev, .simple) ∈ s then (-EBUSY, s) else (0, (dev, .simple) :: s)
  | .unbind =>
      if (dev, .simple) ∈ s then (0, s.filter fun e => e ≠ (dev, .simple)) else (-ENOENT, s)
  | .other => (-EOPNOTSUPP, s)

def BlockList.unregister (s : BlockList) : BlockList := s.filter fun e => e.2 ≠ .indirect

def Kernel.list : Kernel where
  State := BlockList
  ioremap := fun _ => true
  flowIndrDevRegister := fun s => (0, s)
  flowIndrDevUnregister := BlockList.unregister
  flowBlockCbSetupSimple := BlockList.setup
  Holds := fun s dev reg => (dev, reg) ∈ s

theorem BlockList.bind_mem_iff (s : BlockList) (dev other : NetDevice) :
    (other, Registration.simple) ∈ (s.setup dev .bind).2 ↔
      other = dev ∨ (other, Registration.simple) ∈ s := by
  by_cases hmem : (dev, Registration.simple) ∈ s
  · simp only [setup, hmem, if_true]
    exact ⟨.inr, fun h => h.elim (fun heq => heq ▸ hmem) id⟩
  · simp [setup, hmem]

theorem BlockList.bind_busy {s : BlockList} {dev : NetDevice} (hret : (s.setup dev .bind).1 ≠ 0) :
    (s.setup dev .bind).2 = s := by
  by_cases hmem : (dev, Registration.simple) ∈ s
  · simp [setup, hmem]
  · simp [setup, hmem] at hret

theorem BlockList.unbind_mem_iff (s : BlockList) (dev other : NetDevice) :
    (other, Registration.simple) ∈ (s.setup dev .unbind).2 ↔
      other ≠ dev ∧ (other, Registration.simple) ∈ s := by
  by_cases hmem : (dev, Registration.simple) ∈ s
  · simp [setup, hmem, and_comm]
  · simp only [setup, hmem, if_false]
    exact ⟨fun h => ⟨fun heq => hmem (heq ▸ h), h⟩, fun h => h.2⟩

theorem Kernel.list_documented : Kernel.list.Documented where
  register := fun _ _ _ => Iff.rfl
  unregister_simple := fun (s : BlockList) dev => by
    change (dev, Registration.simple) ∈ s.unregister ↔ (dev, Registration.simple) ∈ s
    simp [BlockList.unregister]
  unregister_indirect := fun (s : BlockList) dev => by
    change ¬ (dev, Registration.indirect) ∈ s.unregister
    simp [BlockList.unregister]
  bind := fun s dev _ other => BlockList.bind_mem_iff s dev other
  bind_failed := fun s dev hret other => by
    have hsame : (Kernel.list.flowBlockCbSetupSimple dev .bind s).2 = s :=
      BlockList.bind_busy hret
    rw [hsame]
  unbind := BlockList.unbind_mem_iff
  other := fun _ _ _ => Iff.rfl

namespace Module

/-- Unload after a device was bound and unbound again. -/
theorem exit_quiet_bind_unbind :
    let reqs : List IndrRequest := [⟨some ⟨"wan"⟩, .ft, .bind⟩, ⟨some ⟨"wan"⟩, .ft, .unbind⟩]
    Unbound (faAccelInit true [] : Int × Module Kernel.list).2 reqs ∧
      ∀ dev, ¬ (faAccelExit (reqs.foldl setup
        (faAccelInit true [] : Int × Module Kernel.list).2)).2.Enters dev := by
  intro reqs
  have hunbound : Unbound (faAccelInit true [] : Int × Module Kernel.list).2 reqs := by
    intro pre req suf dev hsplit hbind _
    match pre, hsplit with
    | [], hsplit =>
        obtain ⟨rfl, rfl⟩ := List.cons_eq_cons.mp hsplit
        exact ⟨_, List.mem_singleton.mpr rfl, hbind.1, rfl, rfl⟩
    | [_], hsplit =>
        obtain ⟨-, hsplit⟩ := List.cons_eq_cons.mp hsplit
        obtain ⟨rfl, rfl⟩ := List.cons_eq_cons.mp hsplit
        simp [Asks] at hbind
    | _ :: _ :: _, hsplit => simp [reqs] at hsplit
  exact ⟨hunbound, (exit_quiet_iff Kernel.list_documented true [] reqs
    fun dev => List.not_mem_nil).mpr hunbound⟩

/-- Unload with one device bound. -/
theorem exit_bound_enters :
    ¬ ∀ dev, ¬ (faAccelExit ([⟨some ⟨"wan"⟩, .ft, .bind⟩].foldl setup
      (faAccelInit true [] : Int × Module Kernel.list).2)).2.Enters dev := by
  intro hquiet
  exact hquiet ⟨"wan"⟩ ⟨.simple, List.mem_singleton.mpr rfl⟩

end Module

end R8000Plus.Fa

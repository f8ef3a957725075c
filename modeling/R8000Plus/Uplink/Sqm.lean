import R8000Plus.Effects.Cells
import R8000Plus.Effects.Prog
import R8000Plus.Effects.Runs
import R8000Plus.Uplink.Hotplug

/-!
`32-dynamic-wan-sqm`: a queue section for every interface of a masquerading
zone, made at its first ifup and bound anew at each ifup to the device the
interface then has. A section is named after the interface and holds the device.
-/

namespace R8000Plus.Uplink

open Effects

/-! ### The sqm config -/

inductive QueueOption where
  | enabled
  | download
  | upload
  | qdisc
  | script
  | qdiscAdvanced
  | squashDscp
  | squashIngress
  | ingressEcn
  | egressEcn
  | linklayer
  | overhead
  | debugLogging
  | verbosity
  | interface
  deriving DecidableEq

/-- An option that is not set reads as empty. -/
structure Section where
  type : Text
  option : QueueOption → Text

def Section.set (sec : Section) (o : QueueOption) (value : Text) : Section :=
  { sec with option := Function.update sec.option o value }

@[simp] theorem Section.option_set (sec : Section) (o : QueueOption) (value : Text) :
    (sec.set o value).option o = value := Function.update_self ..

abbrev SqmConfig := UciName → Option Section

inductive UciOp where
  | getType (name : UciName)
  | getOption (name : UciName) (o : QueueOption)
  | setType (name : UciName) (type : Text)
  | setOption (name : UciName) (o : QueueOption) (value : Text)
  | commit

/-- `uci -q get` prints nothing for what is not there. -/
abbrev UciOp.Ans : UciOp → Type
  | .getType _ => Option Text
  | .getOption _ _ => Text
  | .setType _ _ | .setOption _ _ _ | .commit => Unit

abbrev UciProg := Prog UciOp UciOp.Ans

/-- The file under /etc/config, and with it what is set but not committed. -/
structure Uci where
  committed : SqmConfig
  staged : SqmConfig

namespace Uci

def perform : (o : UciOp) → Uci → o.Ans × Uci
  | .getType name, u => ((u.staged name).map Section.type, u)
  | .getOption name o, u => (((u.staged name).map (·.option o)).getD [], u)
  | .setType name type, u =>
      ((), { u with
        staged := Function.update u.staged name
          (some { (u.staged name).getD ⟨[], fun _ => []⟩ with type := type }) })
  | .setOption name o value, u =>
      ((), { u with
        staged := Function.update u.staged name ((u.staged name).map (·.set o value)) })
  | .commit, u => ((), { u with committed := u.staged })

/-- The file as shipped declares no queue. -/
def shipped : Uci := ⟨fun _ => none, fun _ => none⟩

end Uci

/-! ### The script -/

/-- A zone of config/firewall. A list option reads as its items with blanks
between. -/
structure Zone where
  masq : Text
  network : Text

/-- The words the shell splits an unquoted variable into. -/
def words (t : Text) : List Text :=
  (t.splitOnP fun c => c == ' ' || c == '\t' || c == '\n').filter (· ≠ [])

def checkZone (interface : UciName) (zone : Zone) : Bool :=
  zone.masq = "1".toList && (words zone.network).contains interface.text

/-- An ifup or another event, and the l3_device that ubus reports as the script
asks for it. -/
structure IfEvent where
  action : Action
  interface : UciName
  l3Device : Text

theorem sqm_prefix_valid (interface : UciName) :
    ("sqm_".toList ++ interface.text).all (fun c => c.isAlphanum || c == '_') = true := by
  rw [List.all_append, interface.valid, Bool.and_true]
  decide

def sqmSection (interface : UciName) : UciName :=
  ⟨"sqm_".toList ++ interface.text, sqm_prefix_valid interface⟩

def QUEUE : Text := "queue".toList

/-- What a queue is set to when its interface is first seen. -/
def seed : List (QueueOption × Text) :=
  [ (.enabled, "1".toList),
    (.download, "50000".toList),
    (.upload, "25000".toList),
    (.qdisc, "cake".toList),
    (.script, "piece_of_cake.qos".toList),
    (.qdiscAdvanced, "0".toList),
    (.squashDscp, "1".toList),
    (.squashIngress, "1".toList),
    (.ingressEcn, "ECN".toList),
    (.egressEcn, "ECN".toList),
    (.linklayer, "ethernet".toList),
    (.overhead, "0".toList),
    (.debugLogging, "0".toList),
    (.verbosity, "5".toList) ]

def setOptions (name : UciName) : List (QueueOption × Text) → UciProg Unit
  | [] => return ()
  | (o, value) :: rest => do
      let _ ← Prog.request (UciOp.setOption name o value)
      setOptions name rest

def provision (name : UciName) : UciProg Unit := do
  match ← Prog.request (UciOp.getType name) with
  | some _ => return ()
  | none =>
      let _ ← Prog.request (UciOp.setType name QUEUE)
      setOptions name seed

def rebind (name : UciName) (device : Text) : UciProg Unit := do
  let current ← Prog.request (UciOp.getOption name .interface)
  if current ≠ device then
    let _ ← Prog.request (UciOp.setOption name .interface device)
    return ()
  else return ()

/-- The last line, a restart of sqm, only reads the config. -/
def dynamicWanSqm (zones : List Zone) (e : IfEvent) : UciProg Unit :=
  match e.action with
  | .ifup =>
      if zones.any (checkZone e.interface) then
        if e.l3Device = [] then return ()
        else do
          provision (sqmSection e.interface)
          rebind (sqmSection e.interface) e.l3Device
          let _ ← Prog.request UciOp.commit
          return ()
      else return ()
  | _ => return ()

/-- An ifup the script acts on. -/
def handled (zones : List Zone) (e : IfEvent) : Bool :=
  e.action = .ifup && zones.any (checkZone e.interface) && e.l3Device ≠ []

/-- What a queue looks like when its interface is first seen, not yet bound. -/
def seeded : Section := seed.foldl (fun sec p => sec.set p.1 p.2) ⟨QUEUE, fun _ => []⟩

/-- The section of an interface after an ifup on the device. -/
def SqmConfig.bind (config : SqmConfig) (interface : UciName) (device : Text) : SqmConfig :=
  Function.update config (sqmSection interface)
    (some (((config (sqmSection interface)).getD seeded).set .interface device))

theorem sqmSection_injective : Function.Injective sqmSection := by
  intro i j h
  have htext := List.append_cancel_left (congrArg UciName.text h)
  cases i
  cases j
  congr

section Run

variable {u : Uci} {name : UciName}

theorem run_setOptions (options : List (QueueOption × Text)) {sec : Section}
    (hsec : u.staged name = some sec) :
    (setOptions name options).run Uci.perform u = ((), { u with
      staged := Function.update u.staged name
        (some (options.foldl (fun sec p => sec.set p.1 p.2) sec)) }) := by
  induction options generalizing u sec with
  | nil =>
      rw [List.foldl_nil, ← hsec, Function.update_eq_self]
      rfl
  | cons p rest ih =>
      have hstep : (setOptions name (p :: rest)).run Uci.perform u =
          (setOptions name rest).run Uci.perform { u with
            staged := Function.update u.staged name ((u.staged name).map (·.set p.1 p.2)) } := rfl
      rw [hstep, hsec, Option.map_some, ih (Function.update_self ..), Function.update_idem]
      rfl

theorem run_provision : (provision name).run Uci.perform u = ((), { u with
    staged := Function.update u.staged name (some ((u.staged name).getD seeded)) }) := by
  cases hsec : u.staged name with
  | some sec =>
      rw [Option.getD_some, ← hsec, Function.update_eq_self]
      simp [provision, Uci.perform, hsec]
  | none =>
      have hstep : (provision name).run Uci.perform u = (setOptions name seed).run Uci.perform
          { u with staged := Function.update u.staged name (some ⟨QUEUE, fun _ => []⟩) } := by
        simp [provision, Uci.perform, hsec]
      rw [hstep, run_setOptions seed (Function.update_self ..), Function.update_idem]
      rfl

theorem run_rebind {sec : Section} (hsec : u.staged name = some sec) (device : Text) :
    (rebind name device).run Uci.perform u = ((), { u with
      staged := Function.update u.staged name (some (sec.set .interface device)) }) := by
  by_cases hcur : sec.option .interface = device
  · have hset : sec.set .interface device = sec := by
      rw [Section.set, ← hcur, Function.update_eq_self]
    rw [hset, ← hsec, Function.update_eq_self]
    simp [rebind, Uci.perform, hsec, hcur]
  · simp [rebind, Uci.perform, hsec, hcur]

/-- What the script leaves behind, started with nothing uncommitted. -/
theorem run_dynamicWanSqm (zones : List Zone) (e : IfEvent) (hclean : u.staged = u.committed) :
    ((dynamicWanSqm zones e).run Uci.perform u).2 =
      if handled zones e then
        ⟨u.committed.bind e.interface e.l3Device, u.committed.bind e.interface e.l3Device⟩
      else u := by
  by_cases hup : e.action = .ifup
  · by_cases hzone : zones.any (checkZone e.interface) = true
    · by_cases hdev : e.l3Device = []
      · simp [dynamicWanSqm, handled, hup, hzone, hdev]
      · have hrun : (dynamicWanSqm zones e).run Uci.perform u = (do
            provision (sqmSection e.interface)
            rebind (sqmSection e.interface) e.l3Device
            let _ ← Prog.request UciOp.commit
            return () : UciProg Unit).run Uci.perform u := by
          simp only [dynamicWanSqm, hup, hzone, hdev, if_true, if_false]
        have hhandled : handled zones e = true := by simp [handled, hup, hzone, hdev]
        rw [hrun, Prog.run_bind_of_eq Uci.perform run_provision,
          Prog.run_bind_of_eq Uci.perform (run_rebind (Function.update_self ..) _),
          Function.update_idem, hclean, if_pos hhandled]
        rfl
    · simp [dynamicWanSqm, handled, hup, hzone]
  · have hhandled : handled zones e = false := by simp [handled, hup]
    rw [hhandled, if_neg Bool.false_ne_true, dynamicWanSqm]
    split
    · exact absurd ‹_› hup
    · rfl

end Run

/-! ### Runs of events -/

/-- An enabled queue that sqm-scripts puts on the device. -/
def SqmConfig.Shapes (config : SqmConfig) (name : UciName) (device : Text) : Prop :=
  ∃ sec, config name = some sec ∧ sec.type = QUEUE ∧ sec.option .enabled = "1".toList ∧
    sec.option .interface = device

def SqmConfig.OneQueue (config : SqmConfig) : Prop :=
  ∀ ⦃name name' device⦄, config.Shapes name device → config.Shapes name' device → name = name'

structure Sqm where
  uci : Uci
  /-- The device of each interface at its last ifup that was handled. -/
  last : Cells UciName Text

namespace Sqm

def shipped : Sqm := ⟨.shipped, fun _ => none⟩

def step (zones : List Zone) (s : Sqm) (e : IfEvent) : Sqm where
  uci := ((dynamicWanSqm zones e).run Uci.perform s.uci).2
  last :=
    if handled zones e then Function.update s.last e.interface (some e.l3Device) else s.last

/-- No other interface had the device at its own last ifup. -/
def NewDevice (zones : List Zone) (s : Sqm) (e : IfEvent) : Prop :=
  handled zones e = true → ∀ other, other ≠ e.interface → s.last other ≠ some e.l3Device

/-- The queues are the interfaces seen, each on the device it had last. -/
structure Bound (s : Sqm) : Prop where
  clean : s.uci.staged = s.uci.committed
  queue : ∀ i sec, s.uci.committed (sqmSection i) = some sec →
    sec.type = QUEUE ∧ sec.option .enabled = "1".toList
  shapes : ∀ name device, s.uci.committed.Shapes name device ↔
    ∃ i, name = sqmSection i ∧ s.last i = some device

theorem bound_shipped : shipped.Bound where
  clean := rfl
  queue := fun _ _ h => absurd h (Option.some_ne_none _).symm
  shapes := by
    intro name device
    constructor
    · rintro ⟨sec, hsec, -⟩
      exact absurd hsec (Option.some_ne_none sec).symm
    · rintro ⟨i, -, hlast⟩
      exact absurd hlast (Option.some_ne_none device).symm

/-- What is bound is an enabled queue, whether it was there or not. -/
theorem Bound.queue_bind {s : Sqm} (hs : s.Bound) (i : UciName) (device : Text) :
    (((s.uci.committed (sqmSection i)).getD seeded).set .interface device).type = QUEUE ∧
      (((s.uci.committed (sqmSection i)).getD seeded).set .interface device).option .enabled =
        "1".toList := by
  cases hsec : s.uci.committed (sqmSection i) with
  | none => exact ⟨rfl, rfl⟩
  | some sec => exact hs.queue i sec hsec

theorem Bound.shapes_bind {s : Sqm} (hs : s.Bound) (i : UciName) (device : Text) (name : UciName)
    (d : Text) : (s.uci.committed.bind i device).Shapes name d ↔
      if name = sqmSection i then d = device else s.uci.committed.Shapes name d := by
  rw [SqmConfig.Shapes, SqmConfig.bind]
  split
  · rename_i hname
    rw [hname, Function.update_self]
    constructor
    · rintro ⟨sec, hsec, -, -, hd⟩
      obtain rfl := Option.some.inj hsec
      rw [← hd, Section.option_set]
    · rintro rfl
      have hqueue := hs.queue_bind i d
      exact ⟨_, rfl, hqueue.1, hqueue.2, Section.option_set ..⟩
  · rename_i hname
    rw [Function.update_of_ne hname]
    rfl

theorem Bound.step {s : Sqm} (hs : s.Bound) (zones : List Zone) (e : IfEvent) :
    (s.step zones e).Bound := by
  rw [Sqm.step, run_dynamicWanSqm zones e hs.clean]
  split
  · refine ⟨rfl, fun i sec hsec => ?_, fun name device => ?_⟩
    · simp only [SqmConfig.bind] at hsec
      by_cases hi : i = e.interface
      · subst hi
        rw [Function.update_self, Option.some.injEq] at hsec
        exact hsec ▸ hs.queue_bind e.interface e.l3Device
      · rw [Function.update_of_ne fun h => hi (sqmSection_injective h)] at hsec
        exact hs.queue i sec hsec
    · rw [hs.shapes_bind, hs.shapes]
      split
      · rename_i hname
        constructor
        · rintro rfl
          exact ⟨e.interface, hname, Function.update_self ..⟩
        · rintro ⟨i, hi, hlast⟩
          obtain rfl := sqmSection_injective (hname.symm.trans hi)
          simp only [Function.update_self, Option.some.injEq] at hlast
          exact hlast.symm
      · rename_i hname
        refine exists_congr fun i => and_congr_right fun hi => ?_
        have hne : i ≠ e.interface := by
          rintro rfl
          exact hname hi
        simp only [Function.update_of_ne hne]
  · exact hs

theorem Bound.oneQueue_iff {s : Sqm} (hs : s.Bound) :
    s.uci.committed.OneQueue ↔ s.last.Unique := by
  constructor
  · intro h i j device hi hj
    exact sqmSection_injective
      (h ((hs.shapes _ _).mpr ⟨i, rfl, hi⟩) ((hs.shapes _ _).mpr ⟨j, rfl, hj⟩))
  · intro h name name' device hname hname'
    obtain ⟨i, rfl, hi⟩ := (hs.shapes _ _).mp hname
    obtain ⟨j, rfl, hj⟩ := (hs.shapes _ _).mp hname'
    rw [h hi hj]

theorem unique_step_iff {zones : List Zone} {s : Sqm} (h : s.last.Unique) (e : IfEvent) :
    (s.step zones e).last.Unique ↔ s.NewDevice zones e := by
  rw [step, NewDevice]
  dsimp only
  split
  · rename_i hhandled
    rw [h.fill_iff, hhandled, forall_prop_of_true rfl]
  · rename_i hhandled
    exact iff_of_true h fun hh => absurd hh hhandled

/-- Every config of a run has one queue for a device exactly when no ifup
reports a device that another interface had last. -/
theorem oneQueue_run_iff (zones : List Zone) (run : List IfEvent) :
    (∀ pre, pre <+: run → (pre.foldl (step zones) shipped).uci.committed.OneQueue) ↔
      EveryStep (step zones) (NewDevice zones) shipped run := by
  have hshipped : shipped.last.Unique := fun _ _ _ h => absurd h (Option.some_ne_none _).symm
  rw [← everyStep_reached_iff (P := fun s : Sqm => s.uci.committed.OneQueue)
    (bound_shipped.oneQueue_iff.mpr hshipped)]
  refine everyStep_congr (fun s e (hs : s.Bound ∧ s.last.Unique) => ?_) (fun s e hs hnew => ?_)
    ⟨bound_shipped, hshipped⟩
  · rw [(hs.1.step zones e).oneQueue_iff, unique_step_iff hs.2]
  · exact ⟨hs.1.step zones e, (unique_step_iff hs.2 e).mpr hnew⟩

/-! ### The two interfaces of the wired zone -/

def wanZone : Zone := ⟨"1".toList, "wan wan6".toList⟩
def wan : UciName := ⟨"wan".toList, by decide⟩
def wan6 : UciName := ⟨"wan6".toList, by decide⟩

/-- Both have the device wan, and after their ifups both queues do. -/
theorem oneQueue_wan6 :
    ¬([⟨.ifup, wan, wan.text⟩, ⟨.ifup, wan6, wan.text⟩].foldl (step [wanZone])
      shipped).uci.committed.OneQueue := by
  intro h
  have hsame : sqmSection wan = sqmSection wan6 :=
    @h _ _ wan.text ⟨_, rfl, by decide, by decide, by decide⟩
      ⟨_, rfl, by decide, by decide, by decide⟩
  exact absurd hsame (by decide)

end Sqm

end R8000Plus.Uplink

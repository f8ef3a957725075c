import R8000Plus.Effects.Prog
import R8000Plus.Effects.Runs
import R8000Plus.Uplink.Hotplug

/-!
`31-american-multipath-default` and the default route it shares with netifd.
netifd sets the route when the wired interface comes up and withdraws its own
when that goes down; the hook sets or deletes it at every event of the two
wireless uplinks, and asks for the status of these two only.
-/

namespace R8000Plus.Uplink

open Effects

inductive Iface where
  | wan
  | americanWwan
  | american24Wwan
  deriving DecidableEq

/-- A route with one nexthop has it with the kernel's weight of 1. -/
structure Nexthop where
  via : Text
  dev : Text
  weight : Nat

/-! ### The hook -/

inductive HookOp where
  | ubusStatus (u : Iface)
  | routeReplaceDefault (first : Nexthop) (more : List Nexthop)
  | routeDelDefault

/-- Without a status the interface is not up. -/
abbrev HookOp.Ans : HookOp → Type
  | .ubusStatus _ => Option Status
  | .routeReplaceDefault _ _ | .routeDelDefault => Unit

abbrev HookProg := Prog HookOp HookOp.Ans

def W_5G : Nat := 4
def W_24G : Nat := 1

def isUp (u : Iface) : HookProg Bool := do
  return (← Prog.request (HookOp.ubusStatus u)).isSome

def getGw (u : Iface) : HookProg Text := do
  return ((← Prog.request (HookOp.ubusStatus u)).map Status.gateway).getD []

def getDev (u : Iface) : HookProg Text := do
  return ((← Prog.request (HookOp.ubusStatus u)).map Status.l3Device).getD []

def gwAndDev (u : Iface) : HookProg (Text × Text) := do
  if ← isUp u then
    let gw ← getGw u
    let dev ← getDev u
    return (gw, dev)
  else return ([], [])

def selectRoute (gw5 dev5 gw24 dev24 : Text) : HookProg Unit :=
  if dev5 ≠ [] ∧ gw5 ≠ [] ∧ dev24 ≠ [] ∧ gw24 ≠ [] then
    Prog.request (HookOp.routeReplaceDefault ⟨gw5, dev5, W_5G⟩ [⟨gw24, dev24, W_24G⟩])
  else if dev5 ≠ [] ∧ gw5 ≠ [] then
    Prog.request (HookOp.routeReplaceDefault ⟨gw5, dev5, 1⟩ [])
  else if dev24 ≠ [] ∧ gw24 ≠ [] then
    Prog.request (HookOp.routeReplaceDefault ⟨gw24, dev24, 1⟩ [])
  else Prog.request HookOp.routeDelDefault

/-- The events that the hook does not leave at once. -/
def american (action : Action) (interface : Iface) : Bool :=
  (action = .ifup || action = .ifdown) &&
    (interface = .americanWwan || interface = .american24Wwan)

def americanMultipathDefault (action : Action) (interface : Iface) : HookProg Unit :=
  if american action interface then do
    let (gw5, dev5) ← gwAndDev .americanWwan
    let (gw24, dev24) ← gwAndDev .american24Wwan
    selectRoute gw5 dev5 gw24 dev24
  else return ()

/-! ### The route and its owners -/

/-- `byNetifd` is whether it is the route that netifd put there. -/
structure DefaultRoute where
  first : Nexthop
  more : List Nexthop
  byNetifd : Bool

/-- The interfaces, the default route of metric 0, and the events for which
netifd has yet to call the hotplug scripts. -/
structure Net where
  status : Iface → Option Status
  route : Option DefaultRoute
  queue : List (Action × Iface)

inductive NetEvent where
  | ifup (u : Iface) (st : Status)
  | ifdown (u : Iface)
  /-- The scripts are called for the next event. -/
  | hotplug

namespace Net

def perform : (o : HookOp) → Net → o.Ans × Net
  | .ubusStatus u, net => (net.status u, net)
  | .routeReplaceDefault first more, net => ((), { net with route := some ⟨first, more, false⟩ })
  | .routeDelDefault, net => ((), { net with route := none })

def boot : Net := ⟨fun _ => none, none, []⟩

/-- What the wired interface's new status makes of the default route. -/
def wanRoute (net : Net) (st : Option Status) : Option DefaultRoute :=
  match st.filter (·.gateway ≠ []) with
  | some st => some ⟨⟨st.gateway, st.l3Device, 1⟩, [], true⟩
  | none => net.route.filter (!·.byNetifd)

/-- netifd keeps no default route for an interface with `defaultroute '0'`. -/
def change (net : Net) (action : Action) (u : Iface) (st : Option Status) : Net where
  status := Function.update net.status u st
  route := if u = .wan then net.wanRoute st else net.route
  queue := net.queue ++ [(action, u)]

def step (net : Net) : NetEvent → Net
  | .ifup u st => net.change .ifup u (some st)
  | .ifdown u => net.change .ifdown u none
  | .hotplug =>
      match net.queue with
      | [] => net
      | (action, u) :: rest =>
          ((americanMultipathDefault action u).run perform { net with queue := rest }).2

/-- The hook has handled the last event of a wireless uplink. -/
def Settled (net : Net) : Prop := ∀ e ∈ net.queue, american e.1 e.2 = false

/-- Up and with a gateway. -/
def Working (net : Net) (u : Iface) : Prop := ∃ st, net.status u = some st ∧ st.gateway ≠ []

def WorkingSta (net : Net) : Prop := net.Working .americanWwan ∨ net.Working .american24Wwan

def Over (net : Net) (u : Iface) (hop : Nexthop) : Prop :=
  ∃ st, net.status u = some st ∧ st.l3Device = hop.dev

/-- Once settled, where there is a working uplink there is a default route, and
it goes over interfaces that are up. -/
def Connected (net : Net) : Prop :=
  net.Settled → (∃ u, net.Working u) →
    ∃ r, net.route = some r ∧ ∀ hop ∈ r.first :: r.more, ∃ u, net.Over u hop

/-- The default route is not netifd's while a wireless uplink is working, so the
wired interface can go. -/
def Released (net : Net) : Prop :=
  net.Settled → (∃ r, net.route = some r ∧ r.byNetifd = true) → ¬net.WorkingSta

/-- When the hook handles the last event of a wireless uplink, one of them is
working or the wired interface is not; and when the wired one goes, netifd's
route was not in the place of the hook's. -/
def Kept (net : Net) : NetEvent → Prop
  | .ifup .wan st => st.gateway = [] → net.Released
  | .ifdown .wan => net.Released
  | .hotplug => ∀ e rest, net.queue = e :: rest → american e.1 e.2 = true →
      (∀ e ∈ rest, american e.1 e.2 = false) → net.WorkingSta ∨ ¬net.Working .wan
  | _ => True

/-! ### What the hook sets -/

/-- The status the hook goes by. -/
def live (net : Net) (u : Iface) : Option Status := (net.status u).filter (·.gateway ≠ [])

theorem working_iff {net : Net} {u : Iface} : net.Working u ↔ ∃ st, net.live u = some st := by
  simp [Working, live, Option.filter_eq_some_iff]

theorem not_working_iff {net : Net} {u : Iface} : ¬net.Working u ↔ net.live u = none := by
  rw [working_iff, ← Option.isSome_iff_exists, Option.not_isSome_iff_eq_none]

theorem over_of_live {net : Net} {u : Iface} {st : Status} (h : net.live u = some st)
    (weight : Nat) : net.Over u ⟨st.gateway, st.l3Device, weight⟩ :=
  ⟨st, (Option.filter_eq_some_iff.mp h).1, rfl⟩

def staRoute (net : Net) : Option DefaultRoute :=
  match net.live .americanWwan, net.live .american24Wwan with
  | some a, some b =>
      some ⟨⟨a.gateway, a.l3Device, W_5G⟩, [⟨b.gateway, b.l3Device, W_24G⟩], false⟩
  | some a, none => some ⟨⟨a.gateway, a.l3Device, 1⟩, [], false⟩
  | none, some b => some ⟨⟨b.gateway, b.l3Device, 1⟩, [], false⟩
  | none, none => none

theorem run_gwAndDev (net : Net) (u : Iface) : (gwAndDev u).run perform net =
    (((net.status u).map fun st => (st.gateway, st.l3Device)).getD ([], []), net) := by
  cases hst : net.status u <;> simp [gwAndDev, isUp, getGw, getDev, perform, hst]

theorem run_gwAndDev_live {net : Net} {u : Iface} {st : Status} (h : net.live u = some st) :
    (gwAndDev u).run perform net = ((st.gateway, st.l3Device), net) := by
  rw [run_gwAndDev, (Option.filter_eq_some_iff.mp h).1]
  rfl

/-- Whatever keeps an uplink from working, the hook finds no gateway. -/
theorem run_gwAndDev_dead {net : Net} {u : Iface} (h : net.live u = none) :
    ∃ dev, (gwAndDev u).run perform net = (([], dev), net) := by
  rw [run_gwAndDev]
  cases hst : net.status u with
  | none => exact ⟨[], rfl⟩
  | some st =>
      have hgw : st.gateway = [] := by simpa [live, hst, Option.filter] using h
      exact ⟨st.l3Device, by simp [hgw]⟩

theorem gateway_of_live {net : Net} {u : Iface} {st : Status} (h : net.live u = some st) :
    st.gateway ≠ [] := by
  simpa using (Option.filter_eq_some_iff.mp h).2

theorem run_hook {action : Action} {u : Iface} (h : american action u = true) (net : Net) :
    ((americanMultipathDefault action u).run perform net).2 =
      { net with route := net.staRoute } := by
  rw [americanMultipathDefault, if_pos h]
  cases h5 : net.live .americanWwan with
  | some a =>
      have ha := gateway_of_live h5
      have hdev := a.device_nonempty
      rw [Prog.run_bind_of_eq perform (run_gwAndDev_live h5)]
      cases h24 : net.live .american24Wwan with
      | some b =>
          have hb := gateway_of_live h24
          have hdev' := b.device_nonempty
          rw [Prog.run_bind_of_eq perform (run_gwAndDev_live h24)]
          simp [selectRoute, staRoute, h5, h24, ha, hb, hdev, hdev', perform]
      | none =>
          obtain ⟨dev, hdead⟩ := run_gwAndDev_dead h24
          rw [Prog.run_bind_of_eq perform hdead]
          simp [selectRoute, staRoute, h5, h24, ha, hdev, perform]
  | none =>
      obtain ⟨dev, hdead⟩ := run_gwAndDev_dead h5
      rw [Prog.run_bind_of_eq perform hdead]
      cases h24 : net.live .american24Wwan with
      | some b =>
          have hb := gateway_of_live h24
          have hdev' := b.device_nonempty
          rw [Prog.run_bind_of_eq perform (run_gwAndDev_live h24)]
          simp [selectRoute, staRoute, h5, h24, hb, hdev', perform]
      | none =>
          obtain ⟨dev', hdead'⟩ := run_gwAndDev_dead h24
          rw [Prog.run_bind_of_eq perform hdead']
          simp [selectRoute, staRoute, h5, h24, perform]

theorem staRoute_eq_none_iff {net : Net} : net.staRoute = none ↔ ¬net.WorkingSta := by
  rw [WorkingSta, not_or, not_working_iff, not_working_iff, staRoute]
  split <;> simp_all

theorem staRoute_over {net : Net} {r : DefaultRoute} (h : net.staRoute = some r) :
    r.byNetifd = false ∧ ∀ hop ∈ r.first :: r.more, ∃ u, u ≠ .wan ∧ net.Over u hop := by
  have h5 := @over_of_live net .americanWwan
  have h24 := @over_of_live net .american24Wwan
  rw [staRoute] at h
  split at h
  · rename_i a b ha hb
    obtain rfl := Option.some.inj h
    refine ⟨rfl, List.forall_mem_cons.mpr ⟨?_, List.forall_mem_singleton.mpr ?_⟩⟩
    · exact ⟨.americanWwan, by decide, h5 ha _⟩
    · exact ⟨.american24Wwan, by decide, h24 hb _⟩
  · rename_i a ha hb
    obtain rfl := Option.some.inj h
    exact ⟨rfl, List.forall_mem_singleton.mpr ⟨.americanWwan, by decide, h5 ha _⟩⟩
  · rename_i b ha hb
    obtain rfl := Option.some.inj h
    exact ⟨rfl, List.forall_mem_singleton.mpr ⟨.american24Wwan, by decide, h24 hb _⟩⟩
  · exact absurd h (Option.some_ne_none r).symm

/-! ### Runs of events -/

/-- netifd's route goes over the wired interface; once settled, the hook's goes
over the wireless ones, and without a route no uplink works. -/
structure Sound (net : Net) : Prop where
  netifd : ∀ r, net.route = some r → r.byNetifd = true →
    ∀ hop ∈ r.first :: r.more, net.Over .wan hop
  hook : net.Settled → ∀ r, net.route = some r → r.byNetifd = false →
    ∀ hop ∈ r.first :: r.more, ∃ u, u ≠ .wan ∧ net.Over u hop
  gone : net.Settled → net.route = none → ∀ u, ¬net.Working u

theorem sound_boot : boot.Sound where
  netifd := fun r h => absurd h (Option.some_ne_none r).symm
  hook := fun _ r h => absurd h (Option.some_ne_none r).symm
  gone := by
    rintro - - u ⟨st, hst, -⟩
    exact absurd hst (Option.some_ne_none st).symm

theorem Sound.connected {net : Net} (hs : net.Sound) : net.Connected := by
  rintro hsettled ⟨u, hu⟩
  cases hroute : net.route with
  | none => exact absurd hu (hs.gone hsettled hroute u)
  | some r =>
      refine ⟨r, rfl, fun hop hmem => ?_⟩
      cases hby : r.byNetifd with
      | true => exact ⟨.wan, hs.netifd r hroute hby hop hmem⟩
      | false =>
          obtain ⟨u, -, hover⟩ := hs.hook hsettled r hroute hby hop hmem
          exact ⟨u, hover⟩

section Change

variable {net : Net} {action : Action} {u v : Iface} {st : Option Status}

theorem status_change : (net.change action u st).status u = st := Function.update_self ..

theorem over_change_of_ne (h : v ≠ u) (hop : Nexthop) :
    (net.change action u st).Over v hop ↔ net.Over v hop := by
  simp only [Over, change, Function.update_of_ne h]

theorem working_change_of_ne (h : v ≠ u) :
    (net.change action u st).Working v ↔ net.Working v := by
  simp only [Working, change, Function.update_of_ne h]

theorem workingSta_change_wan :
    (net.change action .wan st).WorkingSta ↔ net.WorkingSta := by
  rw [WorkingSta, working_change_of_ne (by decide), working_change_of_ne (by decide)]
  rfl

theorem settled_change_wan : (net.change action .wan st).Settled ↔ net.Settled := by
  simp [Settled, change, american, or_imp, forall_and]

theorem not_settled_change (h : american action u = true) : ¬(net.change action u st).Settled :=
  fun hsettled => Bool.false_ne_true ((hsettled (action, u) (by simp [change])).symm.trans h)

/-- An event of a wireless uplink leaves the route to the hook. -/
theorem Sound.change_sta (hs : net.Sound) (h : american action u = true) :
    (net.change action u st).Sound := by
  have hne : u ≠ .wan := by
    rintro rfl
    simp [american] at h
  refine ⟨fun r hr hby hop hmem => ?_, fun hsettled => absurd hsettled (not_settled_change h),
    fun hsettled => absurd hsettled (not_settled_change h)⟩
  rw [Net.change, if_neg hne] at hr
  exact (over_change_of_ne hne.symm hop).mpr (hs.netifd r hr hby hop hmem)

theorem sound_change_wan_up {st : Status} (h : st.gateway ≠ []) :
    (net.change action .wan (some st)).Sound := by
  have hroute : (net.change action .wan (some st)).route =
      some ⟨⟨st.gateway, st.l3Device, 1⟩, [], true⟩ := by
    simp [Net.change, wanRoute, Option.filter, h]
  refine ⟨fun r hr _ => ?_, fun _ r hr hby => ?_, fun _ hr => ?_⟩
  · obtain rfl := Option.some.inj (hroute.symm.trans hr)
    exact List.forall_mem_singleton.mpr ⟨st, status_change, rfl⟩
  · obtain rfl := Option.some.inj (hroute.symm.trans hr)
    exact absurd hby Bool.false_ne_true.symm
  · exact absurd (hroute.symm.trans hr) (Option.some_ne_none _)

/-- Without a gateway on the wired interface netifd takes its own route away. -/
theorem route_change_wan_gone (net : Net) (action : Action)
    (h : st.filter (·.gateway ≠ []) = none) :
    (net.change action .wan st).route = net.route.filter (!·.byNetifd) := by
  simp only [change, if_true, wanRoute, h]

theorem not_working_wan_gone (h : st.filter (·.gateway ≠ []) = none) :
    ¬(net.change action .wan st).Working .wan := by
  rw [not_working_iff, live, status_change, h]

theorem Sound.change_wan_gone (hs : net.Sound) (h : st.filter (·.gateway ≠ []) = none)
    (hreleased : net.Released) : (net.change action .wan st).Sound := by
  have hroute := route_change_wan_gone net action h
  refine ⟨fun r hr hby => ?_, fun hsettled r hr _ hop hmem => ?_, fun hsettled hr u => ?_⟩
  · rw [hroute, Option.filter_eq_some_iff, hby] at hr
    exact absurd hr.2 Bool.false_ne_true
  · rw [hroute, Option.filter_eq_some_iff, Bool.not_eq_true'] at hr
    obtain ⟨u, hu, hover⟩ := hs.hook (settled_change_wan.mp hsettled) r hr.1 hr.2 hop hmem
    exact ⟨u, hu, (over_change_of_ne hu hop).mpr hover⟩
  · by_cases hu : u = .wan
    · rw [hu]
      exact not_working_wan_gone h
    · rw [working_change_of_ne hu]
      rw [settled_change_wan] at hsettled
      cases hold : net.route with
      | none => exact hs.gone hsettled hold u
      | some r =>
          rw [hroute, hold, Option.filter_some_eq_none, Bool.not_eq_true', Bool.not_eq_false] at hr
          have hsta := hreleased hsettled ⟨r, hold, hr⟩
          rw [WorkingSta, not_or] at hsta
          cases u with
          | wan => exact absurd rfl hu
          | americanWwan => exact hsta.1
          | american24Wwan => exact hsta.2

theorem released_of_connected (h : st.filter (·.gateway ≠ []) = none)
    (hc : (net.change action .wan st).Connected) : net.Released := by
  rintro hsettled ⟨r, hr, hby⟩ hsta
  have hroute : (net.change action .wan st).route = none := by
    rw [route_change_wan_gone net action h, hr, Option.filter_some, hby]
    rfl
  have hworking : ∃ u, (net.change action .wan st).Working u := by
    rcases workingSta_change_wan.mpr hsta with h | h
    · exact ⟨_, h⟩
    · exact ⟨_, h⟩
  obtain ⟨r', hr', -⟩ := hc (settled_change_wan.mpr hsettled) hworking
  exact absurd (hr'.symm.trans hroute) (Option.some_ne_none r')

end Change

section Hotplug

variable {net : Net} {e : Action × Iface} {rest : List (Action × Iface)}

theorem step_hotplug_american (hqueue : net.queue = e :: rest) (h : american e.1 e.2 = true) :
    net.step .hotplug =
      { net with route := { net with queue := rest }.staRoute, queue := rest } := by
  simp only [step, hqueue]
  exact run_hook h _

theorem step_hotplug_other (hqueue : net.queue = e :: rest) (h : american e.1 e.2 = false) :
    net.step .hotplug = { net with queue := rest } := by
  simp only [step, hqueue, americanMultipathDefault, h]
  rfl

theorem Sound.hotplug (hs : net.Sound) (hk : net.Kept .hotplug) : (net.step .hotplug).Sound := by
  cases hqueue : net.queue with
  | nil =>
      simp only [step, hqueue]
      exact hs
  | cons e rest =>
      cases hame : american e.1 e.2 with
      | false =>
          have hsettled : { net with queue := rest }.Settled → net.Settled := by
            intro h
            rw [Settled, hqueue]
            exact List.forall_mem_cons.mpr ⟨hame, h⟩
          rw [step_hotplug_other hqueue hame]
          exact ⟨hs.netifd, fun h => hs.hook (hsettled h), fun h => hs.gone (hsettled h)⟩
      | true =>
          rw [step_hotplug_american hqueue hame]
          refine ⟨fun r hr hby => ?_, fun _ r hr _ => (staRoute_over hr).2, fun hrest hr u => ?_⟩
          · exact absurd ((staRoute_over hr).1.symm.trans hby) Bool.false_ne_true
          · have hsta : ¬net.WorkingSta := staRoute_eq_none_iff.mp hr
            have hwan := (hk e rest hqueue hame hrest).resolve_left hsta
            rw [WorkingSta, not_or] at hsta
            cases u with
            | wan => exact hwan
            | americanWwan => exact hsta.1
            | american24Wwan => exact hsta.2

theorem kept_of_connected_hotplug (hc : (net.step .hotplug).Connected) : net.Kept .hotplug := by
  intro e rest hqueue hame hrest
  rw [step_hotplug_american hqueue hame] at hc
  by_cases hsta : net.WorkingSta
  · exact .inl hsta
  · refine .inr fun hwan => ?_
    obtain ⟨r, hr, -⟩ := hc hrest ⟨.wan, hwan⟩
    have hgone : { net with queue := rest }.staRoute = none := staRoute_eq_none_iff.mpr hsta
    exact absurd (hr.symm.trans hgone) (Option.some_ne_none r)

end Hotplug

theorem Sound.step {net : Net} (hs : net.Sound) {e : NetEvent} (hk : net.Kept e) :
    (net.step e).Sound := by
  cases e with
  | ifup u st =>
      cases u with
      | wan =>
          by_cases hgw : st.gateway = []
          · exact hs.change_wan_gone (by simp [hgw]) (hk hgw)
          · exact sound_change_wan_up hgw
      | americanWwan => exact hs.change_sta rfl
      | american24Wwan => exact hs.change_sta rfl
  | ifdown u =>
      cases u with
      | wan => exact hs.change_wan_gone rfl hk
      | americanWwan => exact hs.change_sta rfl
      | american24Wwan => exact hs.change_sta rfl
  | hotplug => exact hs.hotplug hk

theorem kept_of_connected {net : Net} {e : NetEvent} (hc : (net.step e).Connected) :
    net.Kept e := by
  cases e with
  | ifup u st =>
      cases u with
      | wan => exact fun hgw => released_of_connected (by simp [hgw]) hc
      | americanWwan => trivial
      | american24Wwan => trivial
  | ifdown u =>
      cases u with
      | wan => exact released_of_connected rfl hc
      | americanWwan => trivial
      | american24Wwan => trivial
  | hotplug => exact kept_of_connected_hotplug hc

/-- Every settled state of a run is connected exactly when no event leaves the
default route without the uplink that is working. -/
theorem connected_run_iff (run : List NetEvent) :
    (∀ pre, pre <+: run → (pre.foldl step boot).Connected) ↔ EveryStep step Kept boot run := by
  rw [← everyStep_reached_iff (P := Connected) sound_boot.connected]
  refine everyStep_congr (fun net e (hs : net.Sound) => ?_) (fun net e hs => hs.step) sound_boot
  exact ⟨kept_of_connected, fun hk => (hs.step hk).connected⟩

/-! ### The wired interface is the only one left -/

def wanStatus : Status :=
  ⟨"wan".toList, [⟨"0.0.0.0".toList, "203.0.113.1".toList⟩], [], by decide⟩

def americanStatus : Status :=
  ⟨"phy2-sta0".toList, [], [⟨"0.0.0.0".toList, "192.168.1.1".toList⟩], by decide⟩

/-- Both come up, then the wireless uplink goes down: the hook finds neither of
the two it asks for and deletes the route. -/
theorem connected_run_wan_left :
    ¬([.ifup .wan wanStatus, .hotplug, .ifup .americanWwan americanStatus, .hotplug,
      .ifdown .americanWwan, .hotplug].foldl step boot).Connected := by
  intro h
  have hworking : wanStatus.gateway ≠ [] := by decide
  obtain ⟨r, hr, -⟩ := h (List.forall_mem_nil _) ⟨.wan, wanStatus, rfl, hworking⟩
  exact absurd hr (Option.some_ne_none r).symm

end Net

end R8000Plus.Uplink

import R8000Plus.Uplink.Multipath

/-!
`30-american-dns-route`. When a wireless uplink comes up, the hook gives each DNS
server of its lease a host route over the uplink. The kernel drops the routes of
a device that loses its address, and the hook is called for no other event, so
which routes there are depends on the order in which leases come and go.
-/

namespace R8000Plus.Uplink

open Effects

/-! ### The hook -/

inductive DnsOp where
  | ubusL3Device (u : Iface)
  | ubusDnsServer (u : Iface)
  | routeReplace (ns dev : Text)

/-- `jsonfilter` prints nothing for what the status does not have. -/
abbrev DnsOp.Ans : DnsOp → Type
  | .ubusL3Device _ => Text
  | .ubusDnsServer _ => List Text
  | .routeReplace _ _ => Unit

abbrev DnsProg := Prog DnsOp DnsOp.Ans

def routeServers (device : Text) : List Text → DnsProg Unit
  | [] => return ()
  | ns :: rest => do
      if ns ≠ [] then Prog.request (DnsOp.routeReplace ns device)
      routeServers device rest

/-- The interfaces of the hook's `case`. -/
def Iface.sta (u : Iface) : Bool := u = .americanWwan || u = .american24Wwan

def americanDnsRoute (action : Action) (interface : Iface) : DnsProg Unit := do
  if action ≠ .ifup then return ()
  if ¬interface.sta then return ()
  let device ← Prog.request (DnsOp.ubusL3Device interface)
  if device = [] then return ()
  let servers ← Prog.request (DnsOp.ubusDnsServer interface)
  routeServers device servers

/-! ### Leases and host routes -/

/-- Each interface is on a device of its own. -/
structure Devices where
  l3Device : Iface → Text
  nonempty : ∀ u, l3Device u ≠ []
  apart : ∀ u v, l3Device u = l3Device v → u = v

structure DnsNet where
  /-- The DNS servers an interface that is up has been handed. -/
  lease : Iface → Option (List Text)
  /-- The device of the route to `ns/32`. -/
  host : Text → Option Text
  queue : List (Action × Iface)

inductive LeaseEvent where
  /-- A first lease, or a renewed one. -/
  | bound (u : Iface) (servers : List Text)
  | lost (u : Iface)
  /-- The scripts are called for the next event, and have run. -/
  | hotplug
  deriving DecidableEq

namespace DnsNet

variable (devs : Devices)

def perform : (o : DnsOp) → DnsNet → o.Ans × DnsNet
  | .ubusL3Device u, net => (((net.lease u).map fun _ => devs.l3Device u).getD [], net)
  | .ubusDnsServer u, net => ((net.lease u).getD [], net)
  | .routeReplace ns dev, net => ((), { net with host := Function.update net.host ns (some dev) })

def boot : DnsNet := ⟨fun _ => none, fun _ => none, []⟩

/-- netifd calls it `ifup` only if the interface was not up. -/
def bound (net : DnsNet) (u : Iface) (servers : List Text) : DnsNet :=
  { net with
    lease := Function.update net.lease u (some servers)
    queue := net.queue ++ [(if (net.lease u).isSome then .ifupdate else .ifup, u)] }

/-- With the address of its device go the routes over it. -/
def lost (net : DnsNet) (u : Iface) : DnsNet where
  lease := Function.update net.lease u none
  host ns := (net.host ns).filter (· ≠ devs.l3Device u)
  queue := net.queue ++ [(.ifdown, u)]

def step (net : DnsNet) : LeaseEvent → DnsNet
  | .bound u servers => net.bound u servers
  | .lost u => if (net.lease u).isSome then net.lost devs u else net
  | .hotplug =>
      match net.queue with
      | [] => net
      | (action, u) :: rest =>
          ((americanDnsRoute action u).run (perform devs) { net with queue := rest }).2

/-- The scripts have yet to be called for the interface's coming up. -/
def Pending (net : DnsNet) (u : Iface) : Prop := (Action.ifup, u) ∈ net.queue

/-- A wireless uplink was handed the server. -/
def Offers (net : DnsNet) (u : Iface) (ns : Text) : Prop :=
  u.sta ∧ ns ≠ [] ∧ ∃ servers, net.lease u = some servers ∧ ns ∈ servers

/-- The server is reached over an uplink that was handed it. -/
def Reached (net : DnsNet) (ns : Text) : Prop :=
  ∃ u, net.Offers u ns ∧ net.host ns = some (devs.l3Device u)

/-- Every DNS server of an uplink whose coming up has been handled is reached. -/
def Resolves (net : DnsNet) : Prop := ∀ u ns, ¬net.Pending u → net.Offers u ns → net.Reached devs ns

/-- The uplink can go over to these servers: what it has the route of and no
longer is handed, no other uplink was handed either, and what it is handed now
it has the route of, or another uplink does that was handed it too. -/
structure Yields (net : DnsNet) (u : Iface) (servers : List Text) : Prop where
  others : ∀ v ns, v ≠ u → ¬net.Pending v → net.Offers v ns →
    net.host ns = some (devs.l3Device u) → ns ∈ servers
  own : ¬net.Pending u → ∀ ns ∈ servers, ns ≠ [] → net.host ns = some (devs.l3Device u) ∨
    ∃ v, v ≠ u ∧ net.Offers v ns ∧ net.host ns = some (devs.l3Device v)

/-- A lease is renewed or lost only as its uplink can yield. -/
def Kept (net : DnsNet) : LeaseEvent → Prop
  | .bound u servers => u.sta → (net.lease u).isSome → net.Yields devs u servers
  | .lost u => u.sta → (net.lease u).isSome → net.Yields devs u []
  | .hotplug => True

/-! ### What the hook sets -/

/-- The host routes once the servers have theirs over the device. -/
def routed (host : Text → Option Text) (device : Text) (servers : List Text) : Text → Option Text :=
  fun ns => if ns ∈ servers ∧ ns ≠ [] then some device else host ns

theorem run_routeServers (net : DnsNet) (device : Text) (servers : List Text) :
    (routeServers device servers).run (perform devs) net =
      ((), { net with host := routed net.host device servers }) := by
  induction servers generalizing net with
  | nil =>
      have hsame : routed net.host device [] = net.host := by
        funext ns
        simp [routed]
      rw [hsame]
      rfl
  | cons ns rest ih =>
      by_cases hns : ns = []
      · have hskip : routed net.host device (ns :: rest) = routed net.host device rest := by
          funext m
          have hmem : m ∈ ns :: rest ∧ m ≠ [] ↔ m ∈ rest ∧ m ≠ [] := by
            rw [List.mem_cons, hns]
            tauto
          simp only [routed, hmem]
        have hrun : (routeServers device (ns :: rest)).run (perform devs) net =
            (routeServers device rest).run (perform devs) net := by
          simp [routeServers, hns]
        rw [hrun, ih, hskip]
      · have hset : routed (Function.update net.host ns (some device)) device rest =
            routed net.host device (ns :: rest) := by
          funext m
          by_cases hm : m = ns
          · simp [routed, hm, hns]
          · simp [routed, hm]
        have hrun : (routeServers device (ns :: rest)).run (perform devs) net =
            (routeServers device rest).run (perform devs)
              { net with host := Function.update net.host ns (some device) } := by
          simp [routeServers, hns, perform]
        rw [hrun, ih, hset]

theorem run_hook_up {net : DnsNet} {u : Iface} {servers : List Text} (hu : u.sta = true)
    (hlease : net.lease u = some servers) :
    ((americanDnsRoute .ifup u).run (perform devs) net).2 =
      { net with host := routed net.host (devs.l3Device u) servers } := by
  simp [americanDnsRoute, hu, perform, hlease, devs.nonempty, run_routeServers]

/-- No other call of the hook changes anything. -/
theorem run_hook_idle {net : DnsNet} {action : Action} {u : Iface}
    (h : action = .ifup → u.sta = true → net.lease u = none) :
    ((americanDnsRoute action u).run (perform devs) net).2 = net := by
  by_cases haction : action = .ifup
  · cases hu : u.sta with
    | true => simp [americanDnsRoute, haction, hu, perform, h haction hu]
    | false => simp [americanDnsRoute, haction, hu]
  · simp [americanDnsRoute, haction]

/-! ### One event -/

section Events

variable {devs} {net : DnsNet} {u v : Iface} {ns : Text} {servers : List Text}

theorem offers_of_ne {net' : DnsNet} (h : net'.lease v = net.lease v) :
    net'.Offers v ns ↔ net.Offers v ns := by
  unfold Offers
  rw [h]

theorem offers_iff (h : net.lease u = some servers) :
    net.Offers u ns ↔ u.sta = true ∧ ns ≠ [] ∧ ns ∈ servers := by
  unfold Offers
  rw [h]
  simp

/-- A route to an uplink that is not the one asked for is another's. -/
theorem route_of_ne (h : net.host ns = some (devs.l3Device v)) (hne : v ≠ u) :
    net.host ns ≠ some (devs.l3Device u) := by
  rw [h]
  exact fun heq => hne (devs.apart v u (Option.some.inj heq))

/-- An uplink that was handed no server, and is not looked at yet. -/
theorem Resolves.aside {net' : DnsNet} (h : net.Resolves devs)
    (hpending : ∀ v, v ≠ u → net.Pending v → net'.Pending v)
    (hothers : ∀ v, v ≠ u → net'.lease v = net.lease v)
    (hkept : ∀ v, v ≠ u → ∀ ns,
      net.host ns = some (devs.l3Device v) → net'.host ns = some (devs.l3Device v))
    (hbefore : ∀ ns, ¬net.Offers u ns) (hafter : ∀ ns, net'.Offers u ns → net'.Pending u) :
    net'.Resolves devs := by
  intro v ns hstill hoffers
  have hne : v ≠ u := by
    rintro rfl
    exact hstill (hafter ns hoffers)
  have hold := (offers_of_ne (hothers v hne)).mp hoffers
  obtain ⟨w, hw, hroute⟩ := h v ns (fun hp => hstill (hpending v hne hp)) hold
  have hwne : w ≠ u := by
    rintro rfl
    exact hbefore ns hw
  exact ⟨w, (offers_of_ne (hothers w hwne)).mpr hw, hkept w hwne ns hroute⟩

theorem Resolves.bound_aside (h : net.Resolves devs)
    (hdown : u.sta = true → net.lease u = none) : (net.bound u servers).Resolves devs := by
  refine h.aside (fun v _ hv => List.mem_append_left _ hv)
    (fun v hne => Function.update_of_ne hne ..) (fun _ _ _ hroute => hroute) ?_ ?_
  · rintro ns ⟨hu, -, list, hlease, -⟩
    exact absurd (hlease.symm.trans (hdown hu)) (Option.some_ne_none list)
  · rintro ns ⟨hu, -, -⟩
    simp [Pending, bound, hdown hu]

theorem Resolves.lost_aside (h : net.Resolves devs) (hu : u.sta = false) :
    (net.lost devs u).Resolves devs := by
  have hother : ∀ net : DnsNet, ∀ ns, ¬net.Offers u ns := by
    rintro net ns ⟨hsta, -, -⟩
    exact Bool.false_ne_true (hu.symm.trans hsta)
  refine h.aside (fun v _ hv => List.mem_append_left _ hv)
    (fun v hne => Function.update_of_ne hne ..) ?_ (hother net)
    (fun ns hoffers => absurd hoffers (hother _ ns))
  intro v hne ns hroute
  have hdev : devs.l3Device v ≠ devs.l3Device u := fun heq => hne (devs.apart v u heq)
  simp [lost, hroute, Option.filter, hdev]

/-- Handling an event leaves the routes of the servers it does not set. -/
theorem Resolves.hotplug (h : net.Resolves devs) : (net.step devs .hotplug).Resolves devs := by
  cases hqueue : net.queue with
  | nil =>
      simp only [step, hqueue]
      exact h
  | cons e rest =>
      obtain ⟨action, u⟩ := e
      let net' : DnsNet := { net with queue := rest }
      have hpending : ∀ v, net.Pending v → (Action.ifup, v) = (action, u) ∨ net'.Pending v := by
        intro v hv
        rw [Pending, hqueue, List.mem_cons] at hv
        exact hv
      simp only [step, hqueue]
      by_cases hset : action = .ifup ∧ u.sta = true ∧ (net.lease u).isSome = true
      · obtain ⟨rfl, hu, hup⟩ := hset
        obtain ⟨servers, hlease⟩ := Option.isSome_iff_exists.mp hup
        have hlease' : net'.lease u = some servers := hlease
        rw [run_hook_up devs hu hlease']
        intro v ns hstill hoffers
        by_cases hns : ns ∈ servers
        · have hroute : routed net.host (devs.l3Device u) servers ns = some (devs.l3Device u) :=
            if_pos ⟨hns, hoffers.2.1⟩
          exact ⟨u, (offers_iff hlease).mpr ⟨hu, hoffers.2.1, hns⟩, hroute⟩
        · have hroute : routed net.host (devs.l3Device u) servers ns = net.host ns :=
            if_neg fun hmem => hns hmem.1
          have hvu : v ≠ u := by
            rintro rfl
            exact hns ((offers_iff hlease).mp hoffers).2.2
          have hv : ¬net.Pending v := by
            intro hp
            rcases hpending v hp with heq | hp'
            · exact hvu (Prod.mk.inj heq).2
            · exact hstill hp'
          obtain ⟨w, hw, hover⟩ := h v ns hv hoffers
          exact ⟨w, hw, hroute.trans hover⟩
      · have hidle : action = .ifup → u.sta = true → net'.lease u = none := fun haction hu =>
          Option.not_isSome_iff_eq_none.mp fun hup => hset ⟨haction, hu, hup⟩
        rw [run_hook_idle devs hidle]
        intro v ns hstill hoffers
        refine h v ns (fun hp => ?_) hoffers
        rcases hpending v hp with heq | hp'
        · obtain ⟨rfl, rfl⟩ := Prod.mk.inj heq
          obtain ⟨hu, -, list, hlease, -⟩ := hoffers
          exact hset ⟨rfl, hu, Option.isSome_of_eq_some hlease⟩
        · exact hstill hp'

theorem pending_append {e : Action × Iface} (h : e.1 ≠ .ifup) {net' : DnsNet}
    (hqueue : net'.queue = net.queue ++ [e]) : net'.Pending v ↔ net.Pending v := by
  unfold Pending
  rw [hqueue, List.mem_append, List.mem_singleton]
  refine or_iff_left ?_
  rintro rfl
  exact h rfl

/-- The uplink goes over to other servers, with or without its routes. -/
theorem resolves_yields_iff {net' : DnsNet} (h : net.Resolves devs)
    (hpending : ∀ v, net'.Pending v ↔ net.Pending v)
    (hothers : ∀ v, v ≠ u → net'.lease v = net.lease v)
    (hown : ∀ ns, net'.Offers u ns ↔ ns ≠ [] ∧ ns ∈ servers)
    (hkept : ∀ v, v ≠ u → ∀ ns,
      net'.host ns = some (devs.l3Device v) ↔ net.host ns = some (devs.l3Device v))
    (hroute : ∀ ns ∈ servers,
      net'.host ns = some (devs.l3Device u) ↔ net.host ns = some (devs.l3Device u)) :
    net'.Resolves devs ↔ net.Yields devs u servers := by
  constructor
  · intro h'
    refine ⟨fun v ns hne hv hoffers hover => ?_, fun hstill ns hns hnonempty => ?_⟩
    · have hoffers' := (offers_of_ne (hothers v hne)).mpr hoffers
      obtain ⟨w, hw, hover'⟩ := h' v ns ((hpending v).not.mpr hv) hoffers'
      by_cases hwu : w = u
      · rw [hwu] at hw
        exact ((hown ns).mp hw).2
      · exact absurd hover (route_of_ne ((hkept w hwu ns).mp hover') hwu)
    · obtain ⟨w, hw, hover⟩ := h' u ns ((hpending u).not.mpr hstill) ((hown ns).mpr ⟨hnonempty, hns⟩)
      by_cases hwu : w = u
      · rw [hwu] at hover
        exact .inl ((hroute ns hns).mp hover)
      · exact .inr ⟨w, hwu, (offers_of_ne (hothers w hwu)).mp hw, (hkept w hwu ns).mp hover⟩
  · intro hyields v ns hv hoffers
    have hstill := (hpending v).not.mp hv
    by_cases hvu : v = u
    · rw [hvu] at hoffers hstill
      obtain ⟨hnonempty, hns⟩ := (hown ns).mp hoffers
      rcases hyields.own hstill ns hns hnonempty with hover | ⟨w, hwu, hw, hover⟩
      · exact ⟨u, hoffers, (hroute ns hns).mpr hover⟩
      · exact ⟨w, (offers_of_ne (hothers w hwu)).mpr hw, (hkept w hwu ns).mpr hover⟩
    · have hold := (offers_of_ne (hothers v hvu)).mp hoffers
      obtain ⟨w, hw, hover⟩ := h v ns hstill hold
      by_cases hwu : w = u
      · rw [hwu] at hover
        have hns := hyields.others v ns hvu hstill hold hover
        exact ⟨u, (hown ns).mpr ⟨hold.2.1, hns⟩, (hroute ns hns).mpr hover⟩
      · exact ⟨w, (offers_of_ne (hothers w hwu)).mpr hw, (hkept w hwu ns).mpr hover⟩

theorem resolves_renewed_iff (h : net.Resolves devs) (hu : u.sta = true)
    (hup : (net.lease u).isSome = true) :
    (net.bound u servers).Resolves devs ↔ net.Yields devs u servers := by
  have hqueue : (net.bound u servers).queue = net.queue ++ [(.ifupdate, u)] := by
    simp [bound, hup]
  have hlease : (net.bound u servers).lease u = some servers := Function.update_self ..
  have hown : ∀ ns, (net.bound u servers).Offers u ns ↔ ns ≠ [] ∧ ns ∈ servers := fun ns =>
    (offers_iff hlease).trans (and_iff_right hu)
  have hothers : ∀ v, v ≠ u → (net.bound u servers).lease v = net.lease v :=
    fun v hne => Function.update_of_ne hne ..
  exact resolves_yields_iff h (fun v => pending_append Action.noConfusion hqueue) hothers hown
    (fun _ _ _ => Iff.rfl) (fun _ _ => Iff.rfl)

theorem resolves_lost_iff (h : net.Resolves devs) :
    (net.lost devs u).Resolves devs ↔ net.Yields devs u [] := by
  have hdown : (net.lost devs u).lease u = none := Function.update_self ..
  have hown : ∀ ns, (net.lost devs u).Offers u ns ↔ ns ≠ [] ∧ ns ∈ ([] : List Text) := by
    intro ns
    unfold Offers
    rw [hdown]
    simp
  have hothers : ∀ v, v ≠ u → (net.lost devs u).lease v = net.lease v :=
    fun v hne => Function.update_of_ne hne ..
  have hkept : ∀ v, v ≠ u → ∀ ns, (net.lost devs u).host ns = some (devs.l3Device v) ↔
      net.host ns = some (devs.l3Device v) := by
    intro v hne ns
    have hdev : devs.l3Device v ≠ devs.l3Device u := fun heq => hne (devs.apart v u heq)
    simp only [lost, Option.filter_eq_some_iff, decide_eq_true_eq]
    exact and_iff_left hdev
  exact resolves_yields_iff h (fun v => pending_append Action.noConfusion rfl) hothers hown hkept
    (fun ns hns => absurd hns List.not_mem_nil)

theorem resolves_step_iff (h : net.Resolves devs) (e : LeaseEvent) :
    (net.step devs e).Resolves devs ↔ net.Kept devs e := by
  cases e with
  | hotplug => exact iff_of_true h.hotplug trivial
  | bound u servers =>
      by_cases hup : u.sta = true ∧ (net.lease u).isSome = true
      · have hkept : net.Kept devs (.bound u servers) ↔ net.Yields devs u servers :=
          ⟨fun hk => hk hup.1 hup.2, fun hy _ _ => hy⟩
        rw [hkept]
        exact resolves_renewed_iff h hup.1 hup.2
      · have hdown : u.sta = true → net.lease u = none := fun hu =>
          Option.not_isSome_iff_eq_none.mp fun hsome => hup ⟨hu, hsome⟩
        exact iff_of_true (h.bound_aside hdown) fun hu hsome => absurd ⟨hu, hsome⟩ hup
  | lost u =>
      cases hup : (net.lease u).isSome with
      | false =>
          simp only [step, hup, Bool.false_eq_true, if_false]
          exact iff_of_true h fun _ hsome => absurd (hup.symm.trans hsome) Bool.false_ne_true
      | true =>
          simp only [step, hup, if_true]
          cases hu : u.sta with
          | false =>
              exact iff_of_true (h.lost_aside hu) fun hsta =>
                absurd (hu.symm.trans hsta) Bool.false_ne_true
          | true =>
              have hkept : net.Kept devs (.lost u) ↔ net.Yields devs u [] :=
                ⟨fun hk => hk hu hup, fun hy _ _ => hy⟩
              rw [hkept]
              exact resolves_lost_iff h

end Events

theorem resolves_boot : boot.Resolves devs := by
  rintro u ns - ⟨-, -, list, hlease, -⟩
  exact absurd hlease (Option.some_ne_none list).symm

/-- From boot, every DNS server of an uplink is always reached over an uplink
that was handed it, once the uplink's coming up is handled, if and only if no
uplink loses its lease while another rests on a route over it, and none has it
renewed with a server that has no route. -/
theorem resolves_run_iff (events : List LeaseEvent) :
    (∀ pre, pre <+: events → (pre.foldl (step devs) boot).Resolves devs) ↔
      EveryStep (step devs) (Kept devs) boot events := by
  rw [← everyStep_reached_iff (resolves_boot devs)]
  have hiff : ∀ net e, Resolves devs net →
      ((net.step devs e).Resolves devs ↔ net.Kept devs e) := fun net e h => resolves_step_iff h e
  exact everyStep_congr hiff (fun net e h hkept => (hiff net e h).mpr hkept) (resolves_boot devs)

def staDevice : Iface → Text
  | .wan => "wan".toList
  | .americanWwan => "phy2-sta0".toList
  | .american24Wwan => "phy1-sta0".toList

theorem staDevice_nonempty : ∀ u, staDevice u ≠ [] := by
  intro u
  cases u <;> decide

theorem staDevice_apart : ∀ u v, staDevice u = staDevice v → u = v := by
  intro u v
  cases u <;> cases v <;> decide

def staDevices : Devices := ⟨staDevice, staDevice_nonempty, staDevice_apart⟩

/-- Two uplinks with a server each, of which one goes. -/
def apartServers : List LeaseEvent :=
  [.bound .americanWwan ["192.168.1.47".toList], .hotplug,
    .bound .american24Wwan ["10.0.0.1".toList], .hotplug, .lost .americanWwan, .hotplug]

theorem resolves_run_apartServers : ∀ pre, pre <+: apartServers →
    (pre.foldl (step staDevices) boot).Resolves staDevices := by
  refine (resolves_run_iff staDevices apartServers).mpr
    ⟨fun _ hup => absurd hup (by decide), trivial, fun _ hup => absurd hup (by decide), trivial,
      fun _ _ => ⟨fun v ns hne _ hoffers hover => ?_, fun _ ns hns => absurd hns List.not_mem_nil⟩,
      trivial, trivial⟩
  obtain ⟨hsta, -, servers, hlease, hns⟩ := hoffers
  cases v with
  | americanWwan => exact absurd rfl hne
  | wan => exact absurd hsta (by decide)
  | american24Wwan =>
      obtain rfl := Option.some.inj hlease
      obtain rfl := List.mem_singleton.mp hns
      exact absurd hover (by decide)

/-- Two uplinks to one network are handed the same server; the later one has its
route, and takes it with it. -/
example :
    let ns := "192.168.1.47".toList
    let net := [LeaseEvent.bound .americanWwan [ns], .hotplug, .bound .american24Wwan [ns],
      .hotplug, .lost .american24Wwan, .hotplug].foldl (step staDevices) boot
    net.lease .americanWwan = some [ns] ∧ net.queue = [] ∧ net.host ns = none := by
  decide

end DnsNet

end R8000Plus.Uplink

import R8000Plus.Effects.Runs
import R8000Plus.Radio.Watchdog

/-!
The escalation of the radio watchdog over whole histories of runs and boots.
The history keeps what the router does not: every detection since the last boot
and every reboot the watchdog ever issued.
-/

namespace R8000Plus.Radio

open Effects

structure History where
  router : Router
  /-- Times of the detecting runs since the last boot. -/
  detections : List Int
  /-- Times of the reboots issued, the last one first. -/
  reboots : List Int

namespace History

/-- After a boot, with nothing known of earlier reboots but their mark. -/
def booted (lastReboot : Option Int) : History := ⟨.booted lastReboot, [], []⟩

def next (awk : Awk) (h : History) : Event → History
  | .check i =>
      match h.router.check awk i with
      | (none, router) => { h with router := router }
      | (some (_, action), router) =>
          { router := router
            detections := h.detections ++ [i.now]
            reboots := if action = .reboot then i.now :: h.reboots else h.reboots }
  | .boot => { h with router := h.router.next awk .boot, detections := [] }
  | .logged line => { h with router := h.router.next awk (.logged line) }
  | .evicted => { h with router := h.router.next awk .evicted }

/-- The count of a detecting run is exact, a reboot takes a count of three, and
it comes no sooner than the cooldown after any reboot before it. -/
def Escalates (awk : Awk) (h : History) : Event → Prop
  | .check i => ∀ count action, (h.router.check awk i).1 = some (count, action) →
      count = ((h.detections ++ [i.now]).countP fun t => decide (i.now - WINDOW_SECS < t)) ∧
        (action = .reboot → 3 ≤ count ∧
          ∀ earlier ∈ h.reboots, REBOOT_COOLDOWN_SECS ≤ i.now - earlier)
  | _ => True

end History

/-- The clock readings of a history of events, in order. -/
def clockReadings (events : List Event) : List Int :=
  events.filterMap fun e =>
    match e with
    | .check i => some i.now
    | _ => none

/-! ### The invariant -/

theorem Router.escalate_reboot {s : Router} {now : Int} {count : Nat} {message : List Char}
    (h : s.escalate now count = (.reboot, message)) (hpos : 0 < count) :
    3 ≤ count ∧ s.canReboot now = true := by
  simp only [Router.escalate] at h
  split at h
  · exact absurd (congrArg Prod.fst h) nofun
  · split at h
    · exact absurd (congrArg Prod.fst h) nofun
    · split at h
      · rename_i hreboot
        exact ⟨by omega, hreboot⟩
      · exact absurd (congrArg Prod.fst h) nofun

theorem Router.recorded_pos (s : Router) (now : Int) : 0 < (s.recorded now).length := by
  simp [Router.recorded, pruneAdd]

theorem windowBound_mono : Monotone fun now : Int => now - WINDOW_SECS := fun _ _ h =>
  Int.sub_le_sub_right h WINDOW_SECS

theorem windowBound_lt (now : Int) : now - WINDOW_SECS < now := by
  simp only [WINDOW_SECS]
  omega

namespace History

/-- The events file covers the detections from `latest` on; reboots are spaced,
and the mark is that of the last one. -/
structure Kept (latest : Int) (h : History) : Prop where
  covers : Covers (fun now => now - WINDOW_SECS) latest h.router.events h.detections
  spaced : h.reboots.Pairwise fun last earlier => REBOOT_COOLDOWN_SECS ≤ last - earlier
  marked : ∀ last ∈ h.reboots.head?, h.router.lastReboot = some last

variable {awk : Awk} {h : History} {latest : Int}

theorem booted_kept (lastReboot : Option Int) (latest : Int) :
    (booted lastReboot).Kept latest where
  covers := .refl latest []
  spaced := .nil
  marked := nofun

theorem Kept.mono (hkept : h.Kept latest) {latest' : Int} (hle : latest ≤ latest') :
    h.Kept latest' :=
  ⟨hkept.covers.mono hle, hkept.spaced, hkept.marked⟩

/-- A reboot the mark allows is far enough from every reboot before it. -/
theorem Kept.cooldown (hkept : h.Kept latest) {now : Int}
    (hreboot : h.router.canReboot now = true) :
    ∀ earlier ∈ h.reboots, REBOOT_COOLDOWN_SECS ≤ now - earlier := by
  intro earlier hmem
  obtain ⟨router, detections, reboots⟩ := h
  cases reboots with
  | nil => exact absurd hmem List.not_mem_nil
  | cons last reboots =>
      have hmark : router.lastReboot = some last := hkept.marked last rfl
      have hlast : REBOOT_COOLDOWN_SECS ≤ now - last := by
        simpa [Router.canReboot, hmark] using hreboot
      rcases List.mem_cons.mp hmem with rfl | hmem
      · exact hlast
      · have hgap := (List.pairwise_cons.mp hkept.spaced).1 earlier hmem
        simp only [REBOOT_COOLDOWN_SECS] at hlast hgap ⊢
        omega

/-- The number of events a detecting run records is the number of detections in
its window. -/
theorem Kept.count (hkept : h.Kept latest) {now : Int} (hle : latest ≤ now) :
    (h.router.recorded now).length =
      (h.detections ++ [now]).countP fun t => decide (now - WINDOW_SECS < t) := by
  rw [Router.recorded, hkept.covers.pruneAdd_eq hle (windowBound_lt now),
    List.countP_eq_length_filter]
  rfl

theorem Kept.escalates (hkept : h.Kept latest) (i : RunInput) (hle : latest ≤ i.now) :
    h.Escalates awk (.check i) := by
  intro count action hreport
  have hchecked := h.router.check_checked awk i
  rw [hreport] at hchecked
  generalize (h.router.check awk i).2 = after at hchecked
  cases hchecked with
  | detected last matched action message hlast hmatched hwedge htier =>
      refine ⟨hkept.count hle, ?_⟩
      rintro rfl
      obtain ⟨hthree, hreboot⟩ := Router.escalate_reboot htier (Router.recorded_pos _ _)
      exact ⟨hthree, hkept.cooldown hreboot⟩

theorem Kept.check (hkept : h.Kept latest) (i : RunInput) (hle : latest ≤ i.now) :
    (h.next awk (.check i)).Kept i.now := by
  have hchecked := h.router.check_checked awk i
  simp only [next]
  generalize h.router.check awk i = result at hchecked
  obtain ⟨report, after⟩ := result
  cases hchecked with
  | silent => exact ⟨(hkept.mono hle).covers, hkept.spaced, hkept.marked⟩
  | clear => exact ⟨(hkept.mono hle).covers, hkept.spaced, hkept.marked⟩
  | detected last matched action message hlast hmatched hwedge htier =>
      refine ⟨hkept.covers.pruneAdd windowBound_mono hle, ?_, ?_⟩
      · by_cases haction : action = .reboot
        · subst haction
          obtain ⟨-, hreboot⟩ := Router.escalate_reboot htier (Router.recorded_pos _ _)
          exact .cons (hkept.cooldown hreboot) hkept.spaced
        · simpa [haction] using hkept.spaced
      · by_cases haction : action = .reboot
        · simp [haction]
        · simpa [haction] using hkept.marked

/-- Only a run moves the clock. -/
theorem Kept.other (hkept : h.Kept latest) {e : Event} (hrun : ∀ i, e ≠ .check i) :
    (h.next awk e).Kept latest := by
  cases e with
  | logged line => exact ⟨hkept.covers, hkept.spaced, hkept.marked⟩
  | evicted =>
      have hevict : h.router.evict.events = h.router.events ∧
          h.router.evict.lastReboot = h.router.lastReboot := by
        simp only [Router.evict]
        split <;> exact ⟨rfl, rfl⟩
      refine ⟨?_, hkept.spaced, ?_⟩
      · simp only [History.next, Router.next, hevict.1]
        exact hkept.covers
      · simp only [History.next, Router.next, hevict.2]
        exact hkept.marked
  | check i => exact absurd rfl (hrun i)
  | boot => exact ⟨.refl latest [], hkept.spaced, hkept.marked⟩

theorem Kept.run {run : List Event} (hkept : h.Kept latest)
    (hlatest : ∀ now ∈ clockReadings run, latest ≤ now)
    (hclock : (clockReadings run).Pairwise (· ≤ ·)) :
    EveryStep (next awk) (Escalates awk) h run ∧
      (run.foldl (next awk) h).reboots.Pairwise fun last earlier =>
        REBOOT_COOLDOWN_SECS ≤ last - earlier := by
  induction run generalizing h latest with
  | nil => exact ⟨trivial, hkept.spaced⟩
  | cons e run ih =>
      cases e with
      | check i =>
          obtain ⟨hnow, hrest⟩ := List.pairwise_cons.mp hclock
          have hle : latest ≤ i.now := hlatest i.now List.mem_cons_self
          obtain ⟨hsteps, hspaced⟩ := ih (hkept.check i hle) hnow hrest
          exact ⟨⟨hkept.escalates i hle, hsteps⟩, hspaced⟩
      | logged line =>
          have hnext : (h.next awk (.logged line)).Kept latest := hkept.other nofun
          obtain ⟨hsteps, hspaced⟩ := ih hnext hlatest hclock
          exact ⟨⟨trivial, hsteps⟩, hspaced⟩
      | evicted =>
          have hnext : (h.next awk .evicted).Kept latest := hkept.other nofun
          obtain ⟨hsteps, hspaced⟩ := ih hnext hlatest hclock
          exact ⟨⟨trivial, hsteps⟩, hspaced⟩
      | boot =>
          have hnext : (h.next awk .boot).Kept latest := hkept.other nofun
          obtain ⟨hsteps, hspaced⟩ := ih hnext hlatest hclock
          exact ⟨⟨trivial, hsteps⟩, hspaced⟩

/-- With a clock that never steps back, the count of every detecting run is
exact and reboots keep their distance, whatever is logged and however often the
router boots. -/
theorem escalates_run (awk : Awk) (lastReboot : Option Int) (run : List Event)
    (hclock : (clockReadings run).Pairwise (· ≤ ·)) :
    EveryStep (next awk) (Escalates awk) (booted lastReboot) run ∧
      (run.foldl (next awk) (booted lastReboot)).reboots.Pairwise fun last earlier =>
        REBOOT_COOLDOWN_SECS ≤ last - earlier := by
  cases hreadings : clockReadings run with
  | nil =>
      exact (booted_kept lastReboot 0).run (by rw [hreadings]; nofun) hclock
  | cons first rest =>
      refine (booted_kept lastReboot first).run (fun now hnow => ?_) hclock
      rw [hreadings] at hnow hclock
      rcases List.mem_cons.mp hnow with rfl | hnow
      · exact le_rfl
      · exact (List.pairwise_cons.mp hclock).1 now hnow

end History

/-- A line as the kernel logs it when the firmware has crashed. -/
def wedgeLine : LogLine where
  stamp := ⟨"Sat Nov 15 04:00:00 2025 kern.err kernel: ".toList, by decide⟩
  message := "ieee80211 phy0: brcmf_msgbuf_query_dcmd: Timeout on response for query command".toList

/-- A run at a time, with nothing else logged meanwhile. -/
def RunInput.at (now : Int) : RunInput where
  now := now
  meanwhile := []
  detectStamp := ⟨"Sat Nov 15 04:00:00 2025 user.notice radio-watchdog: ".toList, by decide⟩
  later := []
  actStamp := ⟨"Sat Nov 15 04:00:00 2025 user.notice radio-watchdog: ".toList, by decide⟩

/-- Three wedges within the hour, a boot, and a fourth: the boot the third one
asks for starts the count again. -/
theorem History.escalates_run_wedges :
    let run : List Event :=
      [.logged wedgeLine, .check (.at 300), .logged wedgeLine, .check (.at 600),
        .logged wedgeLine, .check (.at 900), .boot, .logged wedgeLine, .check (.at 1200)]
    (clockReadings run).Pairwise (· ≤ ·) ∧
      (run.foldl (History.next .literal) (.booted none)).reboots = [900] ∧
      EveryStep (History.next .literal) (Escalates .literal) (.booted none) run := by
  intro run
  have hclock : (clockReadings run).Pairwise (· ≤ ·) := by decide
  exact ⟨hclock, by decide +kernel, (History.escalates_run .literal none run hclock).1⟩

end R8000Plus.Radio

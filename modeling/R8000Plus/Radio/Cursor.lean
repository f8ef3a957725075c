import R8000Plus.Radio.Echo

/-!
The cursor of the watchdog is the text of the line a run saw last. The next run
goes on after the first line that awk takes for that text, which is the same
place only if no line before it says the same and awk reads the text as it was
written.
-/

namespace R8000Plus.Radio

open Effects

/-- The router, and what has been logged and examined since the first run that
saved a line: `since` by its last snapshot, `appended` and `examined` over all
runs. -/
structure Cursor where
  router : Router
  since : List LogLine
  appended : List LogLine
  examined : List LogLine

namespace Cursor

def booted (lastReboot : Option Int) : Cursor := ⟨.booted lastReboot, [], [], []⟩

/-- Lines logged when no run is looking. -/
def append (c : Cursor) (lines : List LogLine) (router : Router) : Cursor :=
  { c with router := router, since := c.since ++ lines, appended := c.appended ++ lines }

section Awk

variable (awk : Awk)

/-- A run that finds lines in the buffer; what it leaves unread was logged after
its snapshot. The first such run only sets the cursor. -/
def snapshot (c : Cursor) (i : RunInput) : Cursor :=
  let router := (c.router.check awk i).2
  match c.router.lastline with
  | none => ⟨router, router.unread, router.unread, []⟩
  | some _ =>
      { router := router
        since := router.unread
        appended := c.appended ++ router.unread
        examined := c.examined ++ c.router.examined awk }

def next (c : Cursor) : Event → Cursor
  | .logged line => c.append [line] (c.router.next awk (.logged line))
  | .evicted => { c with router := c.router.next awk .evicted }
  | .check i =>
      if c.router.logread = [] then
        c.append (i.meanwhile ++ i.later) (c.router.next awk (.check i))
      else c.snapshot awk i
  | .boot => booted c.router.lastReboot

/-- A run after the first examines exactly the lines logged since the last
snapshot. -/
def Exact (c : Cursor) : Event → Prop
  | .check _ => c.router.lastline ≠ none → c.router.examined awk = c.since
  | _ => True

/-- The line the cursor was taken from is the first one that awk takes for it;
or awk takes none for it and just as many lines came as the fallback prints. -/
def OnMark (c : Cursor) : Event → Prop
  | .check _ => ∀ mark, c.router.lastline = some mark →
      (∃ pre last, c.router.kept = pre ++ [last] ∧ awk.same mark last.text = true ∧
        ∀ line ∈ pre, awk.same mark line.text = false) ∨
      (∀ line ∈ c.router.logread, awk.same mark line.text = false) ∧ c.since.length = 200
  | _ => True

end Awk

def MarkerKept (c : Cursor) (e : Event) : Prop := c.router.MarkerKept e

end Cursor

/-! ### After the marker -/

section AfterMarker

variable {awk : Awk} {mark : List Char}

theorem afterMarker_eq_none {log : List LogLine} :
    Router.afterMarker awk mark log = none ↔ ∀ line ∈ log, awk.same mark line.text = false := by
  induction log with
  | nil => simp [Router.afterMarker]
  | cons line rest ih =>
      rw [Router.afterMarker, List.forall_mem_cons, ← ih]
      cases awk.same mark line.text <;> simp

theorem afterMarker_length {log new : List LogLine}
    (h : Router.afterMarker awk mark log = some new) : new.length < log.length := by
  induction log with
  | nil => exact absurd h (Option.some_ne_none new).symm
  | cons line rest ih =>
      rw [Router.afterMarker] at h
      split at h
      · obtain rfl := Option.some.inj h
        exact Nat.lt_succ_self _
      · exact (ih h).trans (Nat.lt_succ_self _)

/-- Lines that awk does not take for the marker are passed over. -/
theorem afterMarker_skip {pre : List LogLine} (rest : List LogLine)
    (h : ∀ line ∈ pre, awk.same mark line.text = false) :
    Router.afterMarker awk mark (pre ++ rest) = Router.afterMarker awk mark rest := by
  induction pre with
  | nil => rfl
  | cons line pre ih =>
      obtain ⟨hline, hpre⟩ := List.forall_mem_cons.mp h
      rw [List.cons_append, Router.afterMarker, hline, if_neg Bool.false_ne_true, ih hpre]

theorem tail200_eq_iff {kept : List LogLine} (unread : List LogLine) (h : kept ≠ []) :
    tail200 (kept ++ unread) = unread ↔ unread.length = 200 := by
  have hpos := List.length_pos_iff.mpr h
  have hlen : (tail200 (kept ++ unread)).length =
      min 200 (kept.length + unread.length) := by
    rw [tail200, List.length_drop, List.length_append]
    omega
  constructor
  · intro heq
    rw [heq] at hlen
    omega
  · intro hunread
    rw [tail200, List.length_append, hunread, Nat.add_sub_cancel]
    exact List.drop_left

/-- When awk takes a line before the last one for the marker, too much is taken
for new. -/
theorem examined_ne_of_mem {pre : List LogLine} {line : LogLine} (hline : line ∈ pre)
    (hsame : awk.same mark line.text = true) (last : LogLine) (unread : List LogLine) :
    (Router.afterMarker awk mark (pre ++ [last] ++ unread)).getD
        (tail200 (pre ++ [last] ++ unread)) ≠ unread := by
  obtain ⟨new, hafter, hsuffix⟩ :=
    Router.afterMarker_append ([last] ++ unread) ⟨line, hline, hsame⟩
  have hlen := hsuffix.length_le
  rw [List.append_assoc, hafter, Option.getD_some]
  intro heq
  rw [heq, List.length_append] at hlen
  simp at hlen

/-- What a run takes for new is what came after the last line it knows exactly
when its marker finds that line. -/
theorem examined_eq_iff (awk : Awk) (mark : List Char) (pre : List LogLine) (last : LogLine)
    (unread : List LogLine) :
    (Router.afterMarker awk mark (pre ++ [last] ++ unread)).getD
        (tail200 (pre ++ [last] ++ unread)) = unread ↔
      (awk.same mark last.text = true ∧ ∀ line ∈ pre, awk.same mark line.text = false) ∨
        (∀ line ∈ pre ++ [last] ++ unread, awk.same mark line.text = false) ∧
          unread.length = 200 := by
  by_cases hpre : ∀ line ∈ pre, awk.same mark line.text = false
  · have hskip : Router.afterMarker awk mark (pre ++ [last] ++ unread) =
        if awk.same mark last.text then some unread else Router.afterMarker awk mark unread := by
      rw [List.append_assoc, afterMarker_skip _ hpre]
      rfl
    rw [hskip]
    cases hlast : awk.same mark last.text with
    | true => exact iff_of_true rfl (.inl ⟨rfl, hpre⟩)
    | false =>
        have hnone : (∀ line ∈ pre ++ [last] ++ unread, awk.same mark line.text = false) ↔
            Router.afterMarker awk mark unread = none := by
          rw [afterMarker_eq_none, List.forall_mem_append, List.forall_mem_append,
            List.forall_mem_singleton, and_iff_right ⟨hpre, hlast⟩]
        rw [if_neg Bool.false_ne_true, hnone]
        cases hafter : Router.afterMarker awk mark unread with
        | none =>
            have htail := tail200_eq_iff unread (List.append_ne_nil_of_right_ne_nil pre
              (List.cons_ne_nil last []))
            simpa only [Option.getD_none, Bool.false_eq_true, false_and, false_or, true_and]
              using htail
        | some new =>
            have hlt := afterMarker_length hafter
            refine iff_of_false (fun heq => ?_) (by simp)
            have hnew : new = unread := heq
            rw [hnew] at hlt
            exact lt_irrefl _ hlt
  · simp only [not_forall, Bool.not_eq_false] at hpre
    obtain ⟨line, hline, hsame⟩ := hpre
    refine iff_of_false (examined_ne_of_mem hline hsame last unread) ?_
    rintro (⟨-, h⟩ | ⟨h, -⟩)
    · exact Bool.false_ne_true ((h line hline).symm.trans hsame)
    · have hmem : line ∈ pre ++ [last] ++ unread := by simp [hline]
      exact Bool.false_ne_true ((h line hmem).symm.trans hsame)

end AfterMarker

/-! ### Along a run -/

namespace Cursor

variable {awk : Awk} {c : Cursor}

/-- While the last known line is in the buffer, what the router has unread is
what was logged since. -/
def Tracks (c : Cursor) : Prop := c.router.kept ≠ [] → c.router.unread = c.since

theorem booted_tracks (lastReboot : Option Int) : (booted lastReboot).Tracks :=
  fun h => absurd rfl h

theorem check_silent {i : RunInput} (h : c.router.logread = []) :
    (c.router.check awk i).2 =
      { c.router with unread := c.router.unread ++ i.meanwhile ++ i.later } := by
  rw [Router.check, h]
  rfl

theorem Tracks.next (h : c.Tracks) (e : Event) : (c.next awk e).Tracks := by
  cases e with
  | logged line =>
      intro hkept
      change c.router.unread ++ [line] = c.since ++ [line]
      rw [h hkept]
  | evicted =>
      intro hkept
      obtain ⟨⟨kept, unread, lastline, events, lastReboot⟩, since, appended, examined⟩ := c
      cases kept with
      | nil => exact absurd rfl hkept
      | cons line kept => exact h (List.cons_ne_nil line kept)
  | boot => exact booted_tracks _
  | check i =>
      simp only [Cursor.next]
      split
      · rename_i hlog
        intro hkept
        have hrouter : (c.append (i.meanwhile ++ i.later)
            (c.router.next awk (.check i))).router = (c.router.check awk i).2 := rfl
        rw [hrouter, check_silent hlog] at hkept
        exact absurd (List.append_eq_nil_iff.mp hlog).1 hkept
      · intro _
        rw [snapshot]
        cases c.router.lastline <;> rfl

/-- Runs that are on their mark examine what was logged since. -/
theorem Tracks.exact_iff (h : c.Tracks) (e : Event) (hkept : c.MarkerKept e) :
    c.Exact awk e ↔ c.OnMark awk e := by
  cases e with
  | logged line | evicted | boot => exact Iff.rfl
  | check i =>
      simp only [Exact, OnMark]
      cases hmark : c.router.lastline with
      | none => simp
      | some mark =>
          have hne : c.router.kept ≠ [] := hkept (by simp [hmark])
          obtain ⟨pre, last, hpre⟩ : ∃ pre last, c.router.kept = pre ++ [last] :=
            ⟨_, _, (List.dropLast_append_getLast hne).symm⟩
          have hiff := examined_eq_iff awk mark pre last c.since
          rw [Router.examined, hmark, Router.logread, hpre, h hne]
          simp only [ne_eq, Option.some_ne_none, not_false_eq_true, true_imp_iff,
            Option.some.injEq, forall_eq']
          rw [hiff]
          refine or_congr_left ⟨fun hand => ⟨pre, last, rfl, hand⟩, ?_⟩
          rintro ⟨pre', last', heq, hand⟩
          obtain ⟨rfl, hlast⟩ := List.append_inj' heq rfl
          obtain rfl := List.singleton_inj.mp hlast
          exact hand

/-- What has been logged has been examined once, or it was logged since. -/
def Once (c : Cursor) : Prop := c.appended = c.examined ++ c.since

theorem Once.next (h : c.Once) (e : Event) (hexact : c.Exact awk e) : (c.next awk e).Once := by
  have happend (lines : List LogLine) (router : Router) : (c.append lines router).Once := by
    rw [Once, append, h, List.append_assoc]
  cases e with
  | logged line => exact happend _ _
  | evicted => exact h
  | boot => rfl
  | check i =>
      simp only [Cursor.next]
      split
      · exact happend _ _
      · simp only [Once, snapshot]
        cases hmark : c.router.lastline with
        | none => rfl
        | some mark =>
            have hexamined := hexact (by simp [hmark])
            simp only [hexamined]
            rw [h]

theorem Once.run {run : List Event} (h : c.Once)
    (hexact : EveryStep (Cursor.next awk) (Exact awk) c run) :
    (run.foldl (Cursor.next awk) c).Once := by
  induction run generalizing c with
  | nil => exact h
  | cons e run ih => exact ih (h.next e hexact.1) hexact.2

/-- With the last known line always in the buffer, the runs examine exactly what
is new, and so every line once, exactly when each run is on its mark. -/
theorem exact_run_iff (awk : Awk) (lastReboot : Option Int) (run : List Event)
    (hkept : EveryStep (next awk) MarkerKept (booted lastReboot) run) :
    EveryStep (next awk) (Exact awk) (booted lastReboot) run ∧
        (run.foldl (next awk) (booted lastReboot)).Once ↔
      EveryStep (next awk) (OnMark awk) (booted lastReboot) run := by
  have hiff : EveryStep (next awk) (Exact awk) (booted lastReboot) run ↔
      EveryStep (next awk) (OnMark awk) (booted lastReboot) run :=
    everyStep_congr_of (fun c e h hkept => h.exact_iff e hkept) (fun c e h _ _ => h.next e)
      (booted_tracks lastReboot) hkept
  rw [← hiff]
  exact and_iff_left_of_imp fun hexact => Once.run rfl hexact

instance (awk : Awk) (c : Cursor) : (e : Event) → Decidable (c.Exact awk e)
  | .check _ => inferInstanceAs (Decidable (c.router.lastline ≠ none →
      c.router.examined awk = c.since))
  | .logged _ | .evicted | .boot => .isTrue trivial

instance (c : Cursor) (e : Event) : Decidable (c.MarkerKept e) :=
  inferInstanceAs (Decidable (c.router.MarkerKept e))

/-- Two equal lines, a run, another line, a run. -/
def repeated : List Event :=
  [.logged Router.quietLine, .logged Router.quietLine, .check (.at 300), .logged wedgeLine,
    .check (.at 600)]

theorem exact_run_repeated_iff :
    EveryStep (next .literal) (Exact .literal) (booted none) repeated ∧
        (repeated.foldl (next .literal) (booted none)).Once ↔
      EveryStep (next .literal) (OnMark .literal) (booted none) repeated :=
  exact_run_iff .literal none repeated (by decide +kernel)

/-- The second run examines the second of two equal lines again. -/
theorem exact_run_repeated :
    EveryStep (next .literal) MarkerKept (booted none) repeated ∧
      ¬ EveryStep (next .literal) (Exact .literal) (booted none) repeated :=
  ⟨by decide +kernel, by decide +kernel⟩

/-- A marker with a backslash is not what awk looks for, so the run after it
examines the known lines again. -/
example :
    let line : LogLine := ⟨Router.quietLine.stamp, "user corp\\new".toList⟩
    let run : List Event := [.logged line, .check (.at 300), .logged wedgeLine, .check (.at 600)]
    EveryStep (next .documented) MarkerKept (booted none) run ∧
      ¬ EveryStep (next .documented) (Exact .documented) (booted none) run := by
  decide +kernel

end Cursor

end R8000Plus.Radio

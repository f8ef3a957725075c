import R8000Plus.Effects.Runs
import R8000Plus.Radio.Escalation

/-!
What the watchdog makes of its own messages. The message of a detecting run
quotes the line it found, after the marker was saved, so the next run takes it
for new and it matches again. Below, the histories in which the watchdog does
stay quiet once the radio is.
-/

namespace R8000Plus.Radio

open Effects

namespace Router

/-- The lines that the last run saw and this one examines again: those after the
first that awk takes for the marker; if it takes only newer ones for it, none;
and if it takes no line for it, the ones that `tail` still prints. -/
def reread (awk : Awk) (s : Router) : List LogLine :=
  match s.lastline with
  | none => s.kept.drop (s.logread.length - 200)
  | some last =>
      match afterMarker awk last s.kept, afterMarker awk last s.unread with
      | some rest, _ => rest
      | none, some _ => []
      | none, none => s.kept.drop (s.logread.length - 200)

/-- A run that records no event and takes no recovery action. -/
def Quiet (awk : Awk) (s : Router) : Event → Prop
  | .check i => (s.check awk i).1 = none ∧ (s.check awk i).2.events = s.events
  | _ => True

/-- The line LASTLINE_FILE was taken from has not left the ring buffer. -/
def MarkerKept (s : Router) : Event → Prop
  | .check _ => s.lastline ≠ none → s.kept ≠ []
  | _ => True

/-- A run meets no wedge signature among what it reads again. -/
def RereadClear (awk : Awk) (s : Router) : Event → Prop
  | .check _ => ∀ line ∈ s.reread awk, line.wedge = false
  | _ => True

end Router

instance (awk : Awk) (s : Router) : (e : Event) → Decidable (s.Quiet awk e)
  | .check i => inferInstanceAs (Decidable ((s.check awk i).1 = none ∧
      (s.check awk i).2.events = s.events))
  | .logged _ => .isTrue trivial
  | .evicted => .isTrue trivial
  | .boot => .isTrue trivial

/-- What programs other than the watchdog log in an event holds no signature. -/
def Event.ForeignClear : Event → Prop
  | .logged line => line.wedge = false
  | .check i => ∀ line ∈ i.meanwhile ++ i.later, line.wedge = false
  | _ => True

/-- No run comes before the next boot. -/
def BootFirst : List Event → Prop
  | [] => True
  | .boot :: _ => True
  | .check _ :: _ => False
  | .logged _ :: rest => BootFirst rest
  | .evicted :: rest => BootFirst rest

instance (s : Router) : (e : Event) → Decidable (s.MarkerKept e)
  | .check _ => inferInstanceAs (Decidable (s.lastline ≠ none → s.kept ≠ []))
  | .logged _ => .isTrue trivial
  | .evicted => .isTrue trivial
  | .boot => .isTrue trivial

instance (awk : Awk) (s : Router) : (e : Event) → Decidable (s.RereadClear awk e)
  | .check _ => inferInstanceAs (Decidable (∀ line ∈ s.reread awk, line.wedge = false))
  | .logged _ => .isTrue trivial
  | .evicted => .isTrue trivial
  | .boot => .isTrue trivial

namespace Router

variable {awk : Awk} {s : Router}

/-! ### What a run examines -/

theorem afterMarker_suffix {last : List Char} {log new : List LogLine}
    (h : afterMarker awk last log = some new) : new <:+ log := by
  induction log with
  | nil => exact absurd h nofun
  | cons line rest ih =>
      simp only [afterMarker] at h
      split at h
      · obtain rfl := Option.some.inj h
        exact List.suffix_cons line _
      · exact (ih h).trans (List.suffix_cons line rest)

/-- With the marker in the buffer, everything logged after it is examined. -/
theorem afterMarker_append {last : List Char} {kept : List LogLine} (unread : List LogLine)
    (h : ∃ line ∈ kept, awk.same last line.text = true) :
    ∃ new, afterMarker awk last (kept ++ unread) = some new ∧ unread <:+ new := by
  induction kept with
  | nil => exact absurd h (by simp)
  | cons line rest ih =>
      simp only [List.cons_append, afterMarker]
      by_cases hsame : awk.same last line.text = true
      · exact ⟨rest ++ unread, by simp [hsame], List.suffix_append rest unread⟩
      · simp only [hsame, Bool.false_eq_true, if_false]
        refine ih ?_
        obtain ⟨found, hmem, hfound⟩ := h
        rcases List.mem_cons.mp hmem with rfl | hmem
        · exact absurd hfound hsame
        · exact ⟨found, hmem, hfound⟩

theorem tail200_suffix (log : List LogLine) : tail200 log <:+ log :=
  List.drop_suffix (log.length - 200) log

theorem examined_suffix (awk : Awk) (s : Router) : s.examined awk <:+ s.logread := by
  simp only [examined]
  split
  · rename_i last hlast
    cases hafter : afterMarker awk last s.logread with
    | none =>
        rw [Option.getD_none]
        exact tail200_suffix s.logread
    | some new => exact afterMarker_suffix hafter
  · exact tail200_suffix s.logread

theorem afterMarker_append_eq (awk : Awk) (last : List Char) (kept unread : List LogLine) :
    afterMarker awk last (kept ++ unread) =
      match afterMarker awk last kept with
      | some rest => some (rest ++ unread)
      | none => afterMarker awk last unread := by
  induction kept with
  | nil => rfl
  | cons line rest ih =>
      rw [List.cons_append, afterMarker, afterMarker]
      cases awk.same last line.text with
      | true => rfl
      | false => exact ih

theorem tail200_logread (s : Router) : tail200 s.logread =
    s.kept.drop (s.logread.length - 200) ++
      s.unread.drop (s.logread.length - 200 - s.kept.length) := by
  rw [tail200, logread, List.drop_append]

/-- What is examined is what is read again, and the newest of what is new. -/
theorem examined_eq (awk : Awk) (s : Router) :
    ∃ new, new <:+ s.unread ∧ s.examined awk = s.reread awk ++ new := by
  have htail := List.drop_suffix (s.logread.length - 200 - s.kept.length) s.unread
  cases hlast : s.lastline with
  | none => exact ⟨_, htail, by simp only [examined, reread, hlast, tail200_logread]⟩
  | some last =>
      have hafter := afterMarker_append_eq awk last s.kept s.unread
      cases hkept : afterMarker awk last s.kept with
      | some rest =>
          refine ⟨s.unread, List.suffix_rfl, ?_⟩
          simp only [examined, reread, hlast, logread, hafter, hkept, Option.getD_some]
      | none =>
          rw [hkept] at hafter
          cases hunread : afterMarker awk last s.unread with
          | some new =>
              refine ⟨new, afterMarker_suffix hunread, ?_⟩
              simp only [examined, reread, hlast, logread, hafter, hkept, hunread,
                Option.getD_some, List.nil_append]
          | none =>
              refine ⟨_, htail, ?_⟩
              simp only [examined, reread, hlast, hkept, hunread, tail200_logread]
              rw [logread, hafter, hunread, Option.getD_none]

theorem mem_examined {line : LogLine} (h : line ∈ s.examined awk) :
    line ∈ s.reread awk ∨ line ∈ s.unread := by
  obtain ⟨new, hnew, hexamined⟩ := s.examined_eq awk
  rw [hexamined] at h
  exact (List.mem_append.mp h).imp_right hnew.mem

theorem reread_subset (awk : Awk) (s : Router) : s.reread awk ⊆ s.examined awk := by
  obtain ⟨new, -, hexamined⟩ := s.examined_eq awk
  rw [hexamined]
  exact List.subset_append_left _ _

/-- A run is quiet exactly when it examines no signature. -/
theorem quiet_iff {i : RunInput} :
    s.Quiet awk (.check i) ↔ ∀ line ∈ s.examined awk, line.wedge = false := by
  have hchecked := s.check_checked awk i
  simp only [Quiet]
  generalize s.check awk i = result at hchecked
  obtain ⟨report, after⟩ := result
  cases hchecked with
  | silent hlog =>
      refine ⟨fun _ line hline => ?_, fun _ => ⟨rfl, rfl⟩⟩
      have hmem := (s.examined_suffix awk).mem hline
      rw [hlog] at hmem
      exact absurd hmem List.not_mem_nil
  | clear last hlast hclear => exact ⟨fun _ => hclear, fun _ => ⟨rfl, rfl⟩⟩
  | detected last matched action message hlast hmatched hwedge htier =>
      refine ⟨fun h => absurd h.1 nofun, fun h => ?_⟩
      exact absurd ((h matched hmatched).symm.trans hwedge) Bool.false_ne_true

/-! ### Quiet after a run -/

theorem evict_unread (s : Router) : s.evict.unread ⊆ s.unread := by
  simp only [evict]
  split
  · exact List.Subset.refl _
  · exact List.tail_subset s.unread

theorem evict_lastline (s : Router) : s.evict.lastline = s.lastline := by
  simp only [evict]
  split <;> rfl

/-- Nothing new matches, or a boot clears the log before anyone looks. -/
def Calm (s : Router) (rest : List Event) : Prop :=
  (∀ line ∈ s.unread, line.wedge = false) ∨ BootFirst rest

theorem Calm.step {e : Event} {rest : List Event} (h : s.Calm (e :: rest))
    (hforeign : e.ForeignClear) (hreread : s.RereadClear awk e) :
    s.Quiet awk e ∧ (s.next awk e).Calm rest := by
  cases e with
  | logged line =>
      refine ⟨trivial, h.imp_left fun hclear found hfound => ?_⟩
      rcases List.mem_append.mp hfound with hfound | hfound
      · exact hclear found hfound
      · obtain rfl := List.mem_singleton.mp hfound
        exact hforeign
  | evicted =>
      exact ⟨trivial, h.imp_left fun hclear line hline => hclear line (s.evict_unread hline)⟩
  | boot => exact ⟨trivial, .inl fun line hline => absurd hline List.not_mem_nil⟩
  | check i =>
      have hclear := h.resolve_right id
      have hexamined : ∀ line ∈ s.examined awk, line.wedge = false := fun line hline =>
        (mem_examined hline).elim (hreread line) (hclear line)
      refine ⟨quiet_iff.mpr hexamined, .inl ?_⟩
      have hchecked := s.check_checked awk i
      simp only [Router.next]
      generalize s.check awk i = result at hchecked
      obtain ⟨report, after⟩ := result
      cases hchecked with
      | silent hlog =>
          intro line hline
          simp only [List.append_assoc] at hline
          rcases List.mem_append.mp hline with hline | hline
          · exact hclear line hline
          · exact hforeign line hline
      | clear last hlast _ => exact hforeign
      | detected last matched action message hlast hmatched hwedge htier =>
          exact absurd ((hexamined matched hmatched).symm.trans hwedge) Bool.false_ne_true

theorem Calm.run {run : List Event} (h : s.Calm run) (hforeign : ∀ e ∈ run, e.ForeignClear)
    (hreread : EveryStep (next awk) (RereadClear awk) s run) :
    EveryStep (next awk) (Quiet awk) s run := by
  induction run generalizing s with
  | nil => trivial
  | cons e run ih =>
      obtain ⟨hquiet, hcalm⟩ := h.step (hforeign e List.mem_cons_self) hreread.1
      exact ⟨hquiet, ih hcalm (fun e he => hforeign e (List.mem_cons_of_mem _ he)) hreread.2⟩

/-! ### The echo -/

/-- A signature stands after the marker, or the marker is gone from the buffer. -/
def Echoing (awk : Awk) (s : Router) : Prop :=
  ∃ last, s.lastline = some last ∧
    (s.kept = [] ∨
      (∃ line ∈ s.unread, line.wedge = true) ∧
        ∃ line, s.kept.getLast? = some line ∧ awk.same last line.text = true)

theorem Echoing.evict (h : s.Echoing awk) : s.evict.Echoing awk := by
  obtain ⟨last, hlast, h⟩ := h
  refine ⟨last, (s.evict_lastline).trans hlast, ?_⟩
  obtain ⟨kept, unread, lastline, events, lastReboot⟩ := s
  match kept, h with
  | [], _ => exact .inl rfl
  | [_], .inr _ => exact .inl rfl
  | _ :: line :: kept, .inr ⟨hunread, hmarker⟩ => exact .inr ⟨hunread, hmarker⟩

/-- While the message is unread, a run before the next boot is not quiet. -/
theorem Echoing.bootFirst {run : List Event} (h : s.Echoing awk)
    (hmarker : EveryStep (next awk) MarkerKept s run)
    (hquiet : EveryStep (next awk) (Quiet awk) s run) : BootFirst run := by
  induction run generalizing s with
  | nil => trivial
  | cons e run ih =>
      cases e with
      | boot => trivial
      | evicted => exact ih h.evict hmarker.2 hquiet.2
      | logged line =>
          refine ih ?_ hmarker.2 hquiet.2
          obtain ⟨last, hlast, h⟩ := h
          refine ⟨last, hlast, h.imp_right fun ⟨⟨found, hfound, hwedge⟩, hkept⟩ => ?_⟩
          exact ⟨⟨found, List.mem_append_left _ hfound, hwedge⟩, hkept⟩
      | check i =>
          obtain ⟨last, hlast, h⟩ := h
          have hkept : s.kept ≠ [] := hmarker.1 (by simp [hlast])
          obtain ⟨⟨found, hfound, hwedge⟩, line, hline, hsame⟩ := h.resolve_left hkept
          obtain ⟨new, hafter, hsuffix⟩ := afterMarker_append s.unread
            ⟨line, List.mem_of_getLast? hline, hsame⟩
          have hexamined : s.examined awk = new := by
            simp only [examined, hlast, logread, hafter, Option.getD_some]
          have hclear := quiet_iff.mp hquiet.1 found (hexamined ▸ hsuffix.mem hfound)
          exact absurd (hclear.symm.trans hwedge) Bool.false_ne_true

/-! ### Quiet once the radio is -/

/-- What a run leaves unread is clear unless it detected something. -/
theorem calm_check {i : RunInput} {rest : List Event}
    (hduring : ∀ line ∈ i.meanwhile ++ i.later, line.wedge = false)
    (hboot : s.detects awk = true → BootFirst rest) : (s.next awk (.check i)).Calm rest := by
  have hchecked := s.check_checked awk i
  simp only [Router.next]
  generalize s.check awk i = result at hchecked
  obtain ⟨report, after⟩ := result
  cases hchecked with
  | silent hlog =>
      obtain ⟨-, hunread⟩ := List.append_eq_nil_iff.mp hlog
      refine .inl fun line hline => hduring line ?_
      simpa [hunread] using hline
  | clear last hlast _ => exact .inl hduring
  | detected last matched action message hlast hmatched hwedge htier =>
      refine .inr (hboot ?_)
      exact List.any_eq_true.mpr ⟨matched, hmatched, hwedge⟩

/-- A detecting run's own message is a signature after its marker. -/
theorem echoing_check {i : RunInput} (hdetects : s.detects awk = true)
    (hplain : ∀ last, (s.next awk (.check i)).lastline = some last → '\\' ∉ last) :
    (s.next awk (.check i)).Echoing awk := by
  obtain ⟨line, hline, hwedge⟩ := List.any_eq_true.mp hdetects
  have hchecked := s.check_checked awk i
  simp only [Router.next] at hplain ⊢
  generalize s.check awk i = result at hchecked hplain ⊢
  obtain ⟨report, after⟩ := result
  cases hchecked with
  | silent hlog =>
      have hmem := (s.examined_suffix awk).mem hline
      rw [hlog] at hmem
      exact absurd hmem List.not_mem_nil
  | clear last hlast hclear =>
      exact absurd ((hclear line hline).symm.trans hwedge) Bool.false_ne_true
  | detected last matched action message hlast hmatched hwedge' htier =>
      refine ⟨last.text, rfl, .inr ⟨⟨⟨i.detectStamp, detectedMessage matched⟩, ?_, ?_⟩, ?_⟩⟩
      · simp
      · refine grepLine_infix ?_ hwedge'
        exact ⟨i.detectStamp.text ++ detectedTag, [], by simp [LogLine.text, detectedMessage]⟩
      · exact ⟨last, hlast, awk.refl last.text (hplain last.text rfl)⟩

/-- Once nothing but the watchdog logs a signature any more, it stays quiet if
its last look found none, or a boot clears its message away, and no run reads an
old signature again; and for a marker awk takes as it is, only then. -/
theorem quiet_after_iff (awk : Awk) (s : Router) (i : RunInput) (rest : List Event)
    (hduring : ∀ line ∈ i.meanwhile ++ i.later, line.wedge = false)
    (hforeign : ∀ e ∈ rest, e.ForeignClear)
    (hmarker : EveryStep (next awk) MarkerKept (s.next awk (.check i)) rest) :
    ((s.detects awk = true → BootFirst rest) ∧
        EveryStep (next awk) (RereadClear awk) (s.next awk (.check i)) rest →
      EveryStep (next awk) (Quiet awk) (s.next awk (.check i)) rest) ∧
    ((∀ last, (s.next awk (.check i)).lastline = some last → '\\' ∉ last) →
      EveryStep (next awk) (Quiet awk) (s.next awk (.check i)) rest →
      (s.detects awk = true → BootFirst rest) ∧
        EveryStep (next awk) (RereadClear awk) (s.next awk (.check i)) rest) := by
  constructor
  · rintro ⟨hboot, hreread⟩
    exact (calm_check hduring hboot).run hforeign hreread
  · intro hplain hquiet
    refine ⟨fun hdetects => (echoing_check hdetects hplain).bootFirst hmarker hquiet, ?_⟩
    refine hquiet.mono fun s e h => ?_
    cases e with
    | check i => exact fun line hline => quiet_iff.mp h line (s.reread_subset awk hline)
    | _ => trivial

/-- A line of no interest. -/
def quietLine : LogLine where
  stamp := ⟨"Sat Nov 15 04:02:00 2025 daemon.info hostapd: ".toList, by decide⟩
  message := "wlan0: STA associated".toList

/-- A boot before the next run clears the message of the first one away. The runs
after it stay quiet, the last one over a line it knows. -/
theorem quiet_after_iff_boot :
    let s := (booted none).next .documented (.logged wedgeLine)
    let rest : List Event :=
      [.logged quietLine, .boot, .logged quietLine, .logged quietLine, .logged quietLine,
        .check (.at 600), .evicted, .check (.at 900)]
    (∀ line ∈ (RunInput.at 300).meanwhile ++ (RunInput.at 300).later, line.wedge = false) ∧
      (∀ e ∈ rest, e.ForeignClear) ∧
      EveryStep (next .documented) MarkerKept (s.next .documented (.check (.at 300))) rest ∧
      s.detects .documented = true ∧
      EveryStep (next .documented) (Quiet .documented) (s.next .documented (.check (.at 300)))
        rest := by
  intro s rest
  have hduring : ∀ line ∈ (RunInput.at 300).meanwhile ++ (RunInput.at 300).later,
      line.wedge = false := nofun
  have hclear : quietLine.wedge = false := by decide +kernel
  have hforeign : ∀ e ∈ rest, e.ForeignClear := by
    simp only [rest, List.forall_mem_cons]
    exact ⟨hclear, trivial, hclear, hclear, hclear, nofun, trivial, nofun, nofun⟩
  have hmarker : EveryStep (next .documented) MarkerKept
      (s.next .documented (.check (.at 300))) rest := by decide +kernel
  have hreread : EveryStep (next .documented) (RereadClear .documented)
      (s.next .documented (.check (.at 300))) rest := by decide +kernel
  exact ⟨hduring, hforeign, hmarker, by decide +kernel,
    (quiet_after_iff .documented s (.at 300) rest hduring hforeign hmarker).1
      ⟨fun _ => trivial, hreread⟩⟩

/-- One wedge, and nothing logged by anyone else from then on: the next run
finds the message of the first and reloads the driver. -/
theorem quiet_after_iff_echo :
    let s := (booted none).next .literal (.logged wedgeLine)
    let rest : List Event := [.check (.at 600), .check (.at 900)]
    ((∀ line ∈ (RunInput.at 300).meanwhile ++ (RunInput.at 300).later, line.wedge = false) ∧
      (∀ e ∈ rest, e.ForeignClear) ∧
      EveryStep (next .literal) MarkerKept (s.next .literal (.check (.at 300))) rest) ∧
      ¬ EveryStep (next .literal) (Quiet .literal) (s.next .literal (.check (.at 300))) rest ∧
      ((s.next .literal (.check (.at 300))).check .literal (.at 600)).1 =
        some (2, .reloadBrcmfmac) ∧
      (((s.next .literal (.check (.at 300))).next .literal (.check (.at 600))).check .literal
        (.at 900)).1 = some (3, .reboot) := by
  intro s rest
  have hforeign : ∀ e ∈ rest, e.ForeignClear := by
    simp only [rest, List.forall_mem_cons]
    exact ⟨nofun, nofun, nofun⟩
  exact ⟨⟨nofun, hforeign, by decide +kernel⟩, by decide +kernel, by decide +kernel,
    by decide +kernel⟩

end Router

end R8000Plus.Radio

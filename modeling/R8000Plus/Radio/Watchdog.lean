import R8000Plus.Effects.Grep
import R8000Plus.Effects.PrunedLog

/-!
One run of `radio-watchdog-check` and the router it runs on: the ring buffer
`logread` prints, the files under /tmp, and the reboot mark that survives a
boot. The log is kept in two parts, up to where the last run saw it and since.
-/

namespace R8000Plus.Radio

open Effects

/-- Time, facility and tag in front of a message; never empty, so a line never
is and `[ -z "$current" ]` asks for a log without lines. -/
structure Stamp where
  text : List Char
  nonempty : text ≠ []
  deriving DecidableEq

structure LogLine where
  stamp : Stamp
  message : List Char
  deriving DecidableEq

def LogLine.text (line : LogLine) : List Char := line.stamp.text ++ line.message

def PATTERN : List (List Char) :=
  [ "PSM.s watchdog has fired".toList,
    "PSM microcode watchdog fired".toList,
    "brcmf_msgbuf_query_dcmd: Timeout".toList,
    "Failed to reserve space in commonring".toList,
    "brcmf_msgbuf_delete_flowring: timed out waiting for txstatus".toList ]

def LogLine.wedge (line : LogLine) : Bool := grepLine PATTERN line.text

def WINDOW_SECS : Int := 3600
def REBOOT_COOLDOWN_SECS : Int := 21600

/-- How awk compares a line with the text given by `-v m=…`. Escapes in that
text are interpreted first; without a backslash it equals itself. -/
structure Awk where
  same : List Char → List Char → Bool
  refl : ∀ text, '\\' ∉ text → same text text = true

/-- An awk that interprets nothing. -/
def Awk.literal : Awk := ⟨fun m line => m == line, fun _ _ => beq_self_eq_true _⟩

/-- Where in an escape sequence the text is being read. -/
inductive Escape where
  | plain
  | slash
  | octal (value digits : Nat)

def octalDigit (c : Char) : Bool := '0' ≤ c && c ≤ '7'

def octalValue (c : Char) : Nat := c.toNat - '0'.toNat

/-- The character after a backslash. One without a meaning of its own stands for
itself. -/
def escaped (c : Char) : Char :=
  if c = 'a' then Char.ofNat 7
  else if c = 'b' then Char.ofNat 8
  else if c = 't' then Char.ofNat 9
  else if c = 'n' then Char.ofNat 10
  else if c = 'v' then Char.ofNat 11
  else if c = 'f' then Char.ofNat 12
  else if c = 'r' then Char.ofNat 13
  else c

/-- The text with its escape sequences interpreted. -/
def unescape : Escape → List Char → List Char
  | .plain, [] => []
  | .plain, c :: rest => if c = '\\' then unescape .slash rest else c :: unescape .plain rest
  | .slash, [] => ['\\']
  | .slash, c :: rest =>
      if octalDigit c then unescape (.octal (octalValue c) 1) rest
      else escaped c :: unescape .plain rest
  | .octal value _, [] => [Char.ofNat (value % 256)]
  | .octal value digits, c :: rest =>
      if octalDigit c && decide (digits < 3) then
        unescape (.octal (8 * value + octalValue c) (digits + 1)) rest
      else
        Char.ofNat (value % 256) ::
          if c = '\\' then unescape .slash rest else c :: unescape .plain rest

theorem unescape_of_plain {text : List Char} (h : '\\' ∉ text) : unescape .plain text = text := by
  induction text with
  | nil => rfl
  | cons c rest ih =>
      rw [List.mem_cons, not_or] at h
      rw [unescape, if_neg (Ne.symm h.1), ih h.2]

/-- An awk with the documented escapes. -/
def Awk.documented : Awk where
  same m line := unescape .plain m == line
  refl text h := by rw [unescape_of_plain h, beq_self_eq_true]

structure Router where
  /-- The lines the last run saw that are still in the ring buffer. -/
  kept : List LogLine
  /-- The lines logged since. -/
  unread : List LogLine
  /-- LASTLINE_FILE, without its newline. -/
  lastline : Option (List Char)
  /-- EVENTS_FILE; a missing file is an empty one. -/
  events : List Int
  /-- REBOOT_MARK; a missing or empty file is `none`. -/
  lastReboot : Option Int

inductive Recovery where
  | wifiReload
  | reloadBrcmfmac
  | reboot
  deriving DecidableEq, Repr

/-- What a run meets: the time `date` gives it, the lines other programs log
from its snapshot to its first message and from there to its second, and the
stamps of its messages. -/
structure RunInput where
  now : Int
  meanwhile : List LogLine
  detectStamp : Stamp
  later : List LogLine
  actStamp : Stamp

def tail200 (log : List LogLine) : List LogLine := log.drop (log.length - 200)

namespace Router

def logread (s : Router) : List LogLine := s.kept ++ s.unread

section Awk

variable (awk : Awk)

/-- `awk -v m="$last" 'found{print} $0==m{found=1} END{if(!found) exit 1}'`. -/
def afterMarker (last : List Char) : List LogLine → Option (List LogLine)
  | [] => none
  | line :: rest => if awk.same last line.text then some rest else afterMarker last rest

/-- The lines taken for new. -/
def examined (s : Router) : List LogLine :=
  match s.lastline with
  | some last => (afterMarker awk last s.logread).getD (tail200 s.logread)
  | none => tail200 s.logread

end Awk

def canReboot (s : Router) (now : Int) : Bool :=
  match s.lastReboot with
  | none => true
  | some last => decide (REBOOT_COOLDOWN_SECS ≤ now - last)

def detectedTag : List Char := "detected radio wedge signature: ".toList

def detectedMessage (matched : LogLine) : List Char := detectedTag ++ matched.text

/-- The tier for a count, with the message logged before it is acted on. -/
def escalate (s : Router) (now : Int) (count : Nat) : Recovery × List Char :=
  if count = 1 then
    (.wifiReload, "tier 1 (1st event in 3600s window): wifi reload".toList)
  else if count = 2 then
    (.reloadBrcmfmac,
      "tier 2 (2nd event in 3600s window): full brcmfmac module reload (all 3 radios)".toList)
  else if s.canReboot now then
    (.reboot, "tier 3 (".toList ++ (toString count).toList ++
      " events in 3600s window): module reload did not hold, rebooting".toList)
  else
    (.reloadBrcmfmac, ("tier 3 reached but reboot is rate-limited (cooldown 21600s); " ++
      "falling back to module reload").toList)

/-- The events file after a detection, as `count` finds it. -/
def recorded (s : Router) (now : Int) : List Int :=
  pruneAdd (fun n => n - WINDOW_SECS) now s.events

variable (awk : Awk)

/-- One run: the count and the recovery of a detecting run, and the router
after it. -/
def check (s : Router) (i : RunInput) : Option (Nat × Recovery) × Router :=
  match s.logread.getLast? with
  | none => (none, { s with unread := s.unread ++ i.meanwhile ++ i.later })
  | some last =>
      let seen : Router := { s with kept := s.logread, lastline := some last.text }
      match ((s.examined awk).filter LogLine.wedge).getLast? with
      | none => (none, { seen with unread := i.meanwhile ++ i.later })
      | some matched =>
          let events := s.recorded i.now
          let (action, message) := s.escalate i.now events.length
          (some (events.length, action),
            { seen with
              unread := i.meanwhile ++ [⟨i.detectStamp, detectedMessage matched⟩] ++
                i.later ++ [⟨i.actStamp, message⟩]
              events := events
              lastReboot := if action = .reboot then some i.now else s.lastReboot })

end Router

/-- What happens to the router, runs among it. A full ring buffer loses its
oldest line; a boot empties the buffer and /tmp. -/
inductive Event where
  | logged (line : LogLine)
  | evicted
  | check (i : RunInput)
  | boot

namespace Router

/-- A router that has just booted. -/
def booted (lastReboot : Option Int) : Router := ⟨[], [], none, [], lastReboot⟩

def evict (s : Router) : Router :=
  match s.kept with
  | _ :: kept => { s with kept := kept }
  | [] => { s with unread := s.unread.tail }

def next (awk : Awk) (s : Router) : Event → Router
  | .logged line => { s with unread := s.unread ++ [line] }
  | .evicted => s.evict
  | .check i => (s.check awk i).2
  | .boot => booted s.lastReboot

/-! ### What a run does -/

/-- The lines examined hold a wedge signature. -/
def detects (awk : Awk) (s : Router) : Bool := (s.examined awk).any LogLine.wedge

/-- The three ways a run can go. -/
inductive Checked (awk : Awk) (s : Router) (i : RunInput) :
    Option (Nat × Recovery) → Router → Prop
  | silent (hlog : s.logread = []) :
      Checked awk s i none { s with unread := s.unread ++ i.meanwhile ++ i.later }
  | clear (last : LogLine) (hlast : s.logread.getLast? = some last)
      (hclear : ∀ line ∈ s.examined awk, line.wedge = false) :
      Checked awk s i none
        { s with
          kept := s.logread, lastline := some last.text, unread := i.meanwhile ++ i.later }
  | detected (last matched : LogLine) (action : Recovery) (message : List Char)
      (hlast : s.logread.getLast? = some last) (hmatched : matched ∈ s.examined awk)
      (hwedge : matched.wedge = true)
      (htier : s.escalate i.now (s.recorded i.now).length = (action, message)) :
      Checked awk s i (some ((s.recorded i.now).length, action))
        { kept := s.logread
          lastline := some last.text
          unread := i.meanwhile ++ [⟨i.detectStamp, detectedMessage matched⟩] ++ i.later ++
            [⟨i.actStamp, message⟩]
          events := s.recorded i.now
          lastReboot := if action = .reboot then some i.now else s.lastReboot }

theorem check_checked (awk : Awk) (s : Router) (i : RunInput) :
    Checked awk s i (s.check awk i).1 (s.check awk i).2 := by
  simp only [check]
  split
  · rename_i hlog
    exact .silent (List.getLast?_eq_none_iff.mp hlog)
  · rename_i last hlast
    split
    · rename_i hnone
      refine .clear last hlast fun line hline => ?_
      have hnil := List.getLast?_eq_none_iff.mp hnone
      simpa using List.filter_eq_nil_iff.mp hnil line hline
    · rename_i matched hsome
      have hmem := List.mem_of_getLast? hsome
      obtain ⟨hmatched, hwedge⟩ := List.mem_filter.mp hmem
      exact .detected last matched _ _ hlast hmatched hwedge rfl

end Router

end R8000Plus.Radio

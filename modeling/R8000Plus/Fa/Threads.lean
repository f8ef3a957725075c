import R8000Plus.Effects.Pool
import R8000Plus.Fa.Callbacks

/-!
Callbacks as threads. What a callback holds and how far it is inside the
indirect access window is a ghost its own accesses move; the rules below say
which accesses it may make from there, and every callback follows them.
-/

namespace R8000Plus.Fa

open Effects

/-- Where a thread is within one `fa_macc_write` or `fa_macc_read`. -/
inductive Phase where
  | shut
  /-- HWQ_THRESHLD is cleared, no row selected yet. -/
  | opened
  /-- A row is selected for writing, `left` words to go. -/
  | storing (left : Nat)
  /-- A row is selected for reading, `left` words to go. -/
  | loading (left : Nat) (got : List Word)
  /-- All words are read and the selector is back at zero. -/
  | loaded (got : List Word)
  deriving DecidableEq, Repr

/-- A row is selected and has words to go. -/
def Phase.inRow : Phase → Bool
  | .storing (_ + 1) => true
  | .loading (_ + 1) _ => true
  | _ => false

/-- There are accesses to come that need HWQ_THRESHLD at zero. -/
def Phase.inWindow : Phase → Bool
  | .opened => true
  | .storing (_ + 1) => true
  | .loading _ _ => true
  | _ => false

structure Progress where
  /-- The slot whose pointer the callback has. -/
  held : Option Slot
  phase : Phase
  deriving DecidableEq, Repr

def Progress.fresh : Progress := ⟨none, .shut⟩

/-- The value a call writes to MEM_ACC_CTL to select its row. -/
def Call.selector : Call → Option Word
  | .maccWrite table idx _ => some (ctfMemaccWrTable table idx)
  | .maccRead table idx _ => some (ctfMemaccRdTable table idx)
  | _ => none

def Call.started : Call → Phase
  | .maccWrite _ _ words => .storing words.length
  | .maccRead _ _ n => .loading n []
  | _ => .opened

def Phase.note (o : Call) : (a : Access) → a.Ans → Phase → Phase
  | .writel _ .control, _, .shut => .opened
  | .writel _ .memAccCtl, _, .opened => o.started
  | .writel _ .memAccCtl, _, .loading _ got => .loaded got
  | .writel _ (.mAccdata _), _, .storing left => .storing (left - 1)
  | .readl (.mAccdata _), word, .loading left got => .loading (left - 1) (got ++ [word])
  | _, _, phase => phase

def Progress.note (o : Call) : (a : Access) → a.Ans → Progress → Progress
  | .alloc _, slot, g => { g with held := slot }
  | .find _, slot, g => { g with held := slot }
  | .free _, _, g => { g with held := none }
  | a, ans, g => { g with phase := g.phase.note o a ans }

/-- A callback's calls run on the driver's state, one access at a time. -/
def faSystem : System Call Call.Ans Access Access.Ans Progress Accel where
  body := Call.body
  perform := Accel.perform
  enter _ g := { g with phase := .shut }
  note := Progress.note

/-! ### What a callback may do -/

def hwqThreshold (control : Word) : Word := control &&& CTF_CTL_HWQ_THRESHLD_MASK

@[simp] theorem hwqThreshold_cleared (control : Word) :
    hwqThreshold (hwqCleared control) = 0 := by
  simp only [hwqThreshold, hwqCleared, BitVec.and_assoc]
  simp [BitVec.and_comm]

/-- The arguments `fa_macc_write` and `fa_macc_read` get for a row of slot `i`. -/
def Slot.HasRow (i : Slot) (table idx : Word) (n : Nat) : Prop :=
  idx = i.word ∧
    (table = CTF_MEMACC_TBL_NH ∧ n = NH_ROW_WORDS ∨
      table = CTF_MEMACC_TBL_NF ∧ n = NF_ROW_WORDS)

/-- The calls a callback for `cls` makes, by what it holds. -/
def Call.Ok (cls : FlowClsOffload) (held : Option Slot) : Call → Prop
  | .alloc cookie => cls.command = .replace ∧ cookie = cls.cookie ∧ held = none
  | .find cookie => cls.command = .destroy ∧ cookie = cls.cookie ∧ held = none
  | .free slot => held = some slot
  | .load slot => held = some slot
  | .maccWrite table idx words => ∃ i, held = some i ∧ i.HasRow table idx words.length
  | .maccRead table idx n => ∃ i, held = some i ∧ i.HasRow table idx n

/-- The accesses a call makes, by how far it is. -/
def Access.Fits (o : Call) (phase : Phase) : Access → Prop
  | .alloc cookie => o = .alloc cookie
  | .find cookie => o = .find cookie
  | .free slot => o = .free slot
  | .load slot => o = .load slot
  | .readl .control => True
  | .readl .dbgStatus => True
  | .readl .memAccCtl => False
  | .readl (.mAccdata j) =>
      ∃ table idx n left got, o = .maccRead table idx n ∧ phase = .loading (left + 1) got ∧
        j = got.length
  | .writel val .control =>
      phase.inWindow = false ∧ (phase = .shut → hwqThreshold val = 0)
  | .writel val .memAccCtl =>
      phase = .opened ∧ o.selector = some val ∨ ∃ got, phase = .loading 0 got ∧ val = 0
  | .writel val (.mAccdata j) =>
      ∃ table idx words, o = .maccWrite table idx words ∧ phase = .storing (j + 1) ∧
        val = ofWords words j
  | .writel _ .dbgStatus => False

/-- How a call leaves what its caller holds, by its answer. -/
def Call.Done : (o : Call) → Progress → Progress → o.Ans → Prop
  | .alloc _, start, g, slot => g = { start with held := slot }
  | .find _, start, g, slot => g = { start with held := slot }
  | .free _, start, g, _ => g = { start with held := none }
  | .load slot, start, g, fl => g = start ∧ fl.nhIdx = slot.word ∧ fl.nfIdx = slot.word
  | .maccWrite _ _ _, start, g, _ => g.held = start.held ∧ g.phase = .storing 0
  | .maccRead _ _ n, start, g, (_, words) =>
      g.held = start.held ∧ g.phase = .loaded words ∧ words.length = n

/-- An index field read through a held pointer is the slot's own. -/
def Access.Good : (a : Access) → a.Ans → Prop
  | .load slot, fl => fl.nhIdx = slot.word ∧ fl.nfIdx = slot.word
  | _, _ => True

/-- A callback ends holding a slot exactly when it is a REPLACE that accepts. -/
def Progress.Ended (cls : FlowClsOffload) (g : Progress) (ret : Int) : Prop :=
  g.held.isSome = true ↔ cls.command = .replace ∧ ret = 0

/-- An ending that accepts nothing leaves nothing held. -/
theorem Progress.ended_of_none {cls : FlowClsOffload} {g : Progress} {ret : Int}
    (hheld : g.held = none) (h : cls.command = .replace → ret ≠ 0) : g.Ended cls ret :=
  ⟨fun hsome => by simp [hheld] at hsome, fun hret => absurd hret.2 (h hret.1)⟩

theorem EOPNOTSUPP_ne : -EOPNOTSUPP ≠ 0 := by decide

def faRules (cls : FlowClsOffload) : Rules Call Call.Ans Access Access.Ans Progress Int where
  ok g o := o.Ok cls g.held
  accessOk o g a := o.Ok cls g.held ∧ a.Fits o g.phase
  good _ a ans := a.Good ans
  done := Call.Done
  fin := Progress.Ended cls

/-! ### The bodies of the calls -/

section Bodies

variable {cls : FlowClsOffload} {o : Call} {start : Progress} {held : Option Slot} {α : Type}

section Registers

variable {P : Protocol Access Access.Ans Progress α} {g : Progress}

/-- A register read that leaves the progress alone. -/
theorem readl_conforms {reg : Reg} (f : Word → FaProg α) (hok : P.ok g (.readl reg))
    (hupdate : ∀ val, P.update g (.readl reg) val = g)
    (hf : ∀ val, (f val).Conforms P g) : (readl reg >>= f).Conforms P g := by
  refine ⟨hok, fun val _ => ?_⟩
  rw [hupdate]
  exact hf val

theorem writel_conforms {val : Word} {reg : Reg} (f : Unit → FaProg α)
    (hok : P.ok g (.writel val reg))
    (hf : (f ()).Conforms P (P.update g (.writel val reg) ())) :
    (writel val reg >>= f).Conforms P g :=
  ⟨hok, fun _ _ => hf⟩

theorem waitMaccIdle_conforms (f : Bool → FaProg α) (steps : Nat)
    (hok : P.ok g (.readl .dbgStatus))
    (hupdate : ∀ val, P.update g (.readl .dbgStatus) val = g)
    (hf : ∀ idle, (f idle).Conforms P g) : (waitMaccIdle steps >>= f).Conforms P g := by
  induction steps with
  | zero => exact hf false
  | succ steps ih =>
      rw [waitMaccIdle, Prog.bind_assoc]
      refine readl_conforms _ hok hupdate fun val => ?_
      split
      · exact hf true
      · exact ih

end Registers

theorem war777On_conforms (hcall : o.Ok cls held) (f : Unit → FaProg o.Ans)
    (hf : (f ()).Conforms ((faRules cls).within faSystem o start) ⟨held, .opened⟩) :
    (war777On >>= f).Conforms ((faRules cls).within faSystem o start) ⟨held, .shut⟩ := by
  rw [war777On, Prog.bind_assoc]
  refine readl_conforms _ ⟨hcall, trivial⟩ (fun _ => rfl) fun val => ?_
  exact writel_conforms _ ⟨hcall, rfl, fun _ => hwqThreshold_cleared val⟩ hf

theorem war777Off_conforms (hcall : o.Ok cls held) (phase : Phase) (hne : phase ≠ .shut)
    (hout : phase.inWindow = false) (f : Unit → FaProg o.Ans)
    (hf : (f ()).Conforms ((faRules cls).within faSystem o start) ⟨held, phase⟩) :
    (war777Off >>= f).Conforms ((faRules cls).within faSystem o start) ⟨held, phase⟩ := by
  rw [war777Off, Prog.bind_assoc]
  refine readl_conforms _ ⟨hcall, trivial⟩ (fun _ => rfl) fun val => ?_
  refine writel_conforms _ ⟨hcall, hout, fun h => absurd h hne⟩ ?_
  have hnote : ((faRules cls).within faSystem o start).update ⟨held, phase⟩
      (.writel (hwqRestored val) .control) () = ⟨held, phase⟩ := by
    cases phase with
    | shut => exact absurd rfl hne
    | _ => rfl
  rw [hnote]
  exact hf

theorem writeWords_conforms {table idx : Word} {words : List Word}
    (hcall : (Call.maccWrite table idx words).Ok cls held) (k : Nat) (f : Unit → FaProg Bool)
    (hf : (f ()).Conforms ((faRules cls).within faSystem (.maccWrite table idx words) start)
      ⟨held, .storing 0⟩) :
    (writeWords words k >>= f).Conforms
      ((faRules cls).within faSystem (.maccWrite table idx words) start)
      ⟨held, .storing k⟩ := by
  induction k with
  | zero => exact hf
  | succ k ih =>
      rw [writeWords, Prog.bind_assoc]
      exact writel_conforms _ ⟨hcall, table, idx, words, rfl, rfl, rfl⟩ ih

theorem readWords_conforms {table idx : Word} {n : Nat}
    (hcall : (Call.maccRead table idx n).Ok cls held) (left : Nat) (got : List Word)
    (f : List Word → FaProg (Bool × List Word))
    (hf : ∀ rest, rest.length = left →
      (f rest).Conforms ((faRules cls).within faSystem (.maccRead table idx n) start)
        ⟨held, .loading 0 (got ++ rest)⟩) :
    (readWords got.length left >>= f).Conforms
      ((faRules cls).within faSystem (.maccRead table idx n) start)
      ⟨held, .loading left got⟩ := by
  induction left generalizing got f with
  | zero =>
      have hnil := hf [] rfl
      rw [List.append_nil] at hnil
      exact hnil
  | succ left ih =>
      rw [readWords, Prog.bind_assoc]
      refine ⟨⟨hcall, table, idx, n, left, got, rfl, rfl, rfl⟩, fun word _ => ?_⟩
      have hnext := ih (got ++ [word]) (fun rest => f (word :: rest)) fun rest hrest => by
        simpa using hf (word :: rest) (by simp [hrest])
      rw [List.length_append] at hnext
      change Prog.Conforms ((faRules cls).within faSystem (.maccRead table idx n) start)
        ⟨held, .loading left (got ++ [word])⟩
        ((readWords (got.length + 1) left >>= fun rest => .ret (word :: rest)) >>= f)
      rw [Prog.bind_assoc]
      exact hnext

theorem faMaccWrite_conforms {table idx : Word} {words : List Word}
    (hcall : (Call.maccWrite table idx words).Ok cls held) :
    (faMaccWrite table idx words).Conforms
      ((faRules cls).within faSystem (.maccWrite table idx words) ⟨held, .shut⟩)
      ⟨held, .shut⟩ := by
  refine war777On_conforms hcall _ ?_
  refine writel_conforms _ ⟨hcall, .inl ⟨rfl, rfl⟩⟩ ?_
  refine writeWords_conforms hcall words.length _ ?_
  refine waitMaccIdle_conforms _ _ ⟨hcall, trivial⟩ (fun _ => rfl) fun idle => ?_
  exact war777Off_conforms hcall (.storing 0) nofun rfl _ ⟨rfl, rfl⟩

theorem faMaccRead_conforms {table idx : Word} {n : Nat}
    (hcall : (Call.maccRead table idx n).Ok cls held) :
    (faMaccRead table idx n).Conforms
      ((faRules cls).within faSystem (.maccRead table idx n) ⟨held, .shut⟩)
      ⟨held, .shut⟩ := by
  refine war777On_conforms hcall _ ?_
  refine writel_conforms _ ⟨hcall, .inl ⟨rfl, rfl⟩⟩ ?_
  refine waitMaccIdle_conforms _ _ ⟨hcall, trivial⟩ (fun _ => rfl) fun idle => ?_
  refine readWords_conforms hcall n [] _ fun words hwords => ?_
  refine writel_conforms _ ⟨hcall, .inr ⟨words, rfl, rfl⟩⟩ ?_
  exact war777Off_conforms hcall (.loaded words) nofun rfl _ ⟨rfl, rfl, hwords⟩

theorem faRules_bodies (cls : FlowClsOffload) : (faRules cls).Bodies faSystem := by
  rintro o ⟨held, phase⟩ hok
  cases o with
  | alloc cookie => exact ⟨⟨hok, rfl⟩, fun _ _ => rfl⟩
  | find cookie => exact ⟨⟨hok, rfl⟩, fun _ _ => rfl⟩
  | free slot => exact ⟨⟨hok, rfl⟩, fun _ _ => rfl⟩
  | load slot => exact ⟨⟨hok, rfl⟩, fun _ hgood => ⟨rfl, hgood⟩⟩
  | maccWrite table idx words => exact faMaccWrite_conforms hok
  | maccRead table idx n => exact faMaccRead_conforms hok

end Bodies

/-! ### The callbacks -/

section Callbacks

variable {cls : FlowClsOffload}

/-- The rules of a part of a callback, with its own end. -/
abbrev faPart (cls : FlowClsOffload) {α : Type} (mid : Progress → α → Prop) :
    Rules Call Call.Ans Access Access.Ans Progress α :=
  ⟨(faRules cls).ok, (faRules cls).accessOk, (faRules cls).good, (faRules cls).done, mid⟩

theorem writeVerified_follows {g : Progress} {i : Slot} {table idx : Word} {row : List Word}
    (hheld : g.held = some i) (hrow : i.HasRow table idx row.length) :
    (faPart cls fun g' (_ : Bool) => g'.held = some i).Follows faSystem
      (writeVerified table idx row) g := by
  refine ⟨⟨i, hheld, hrow⟩, fun g1 ok hdone => ?_⟩
  have hheld1 : g1.held = some i := hdone.1.trans hheld
  cases ok with
  | false => exact hheld1
  | true => exact ⟨⟨i, hheld1, hrow⟩, fun g2 _ hdone2 => hdone2.1.trans hheld1⟩

theorem faFlowReplaceLive_follows (hcmd : cls.command = .replace) :
    (faRules cls).Follows faSystem (faFlowReplaceLive cls.cookie cls.rule) .fresh := by
  rw [faFlowReplaceLive]
  split
  · exact Progress.ended_of_none rfl fun _ => EOPNOTSUPP_ne
  · refine ⟨⟨hcmd, rfl, rfl⟩, ?_⟩
    rintro _ (_ | i) rfl
    · exact Progress.ended_of_none rfl fun _ => EOPNOTSUPP_ne
    · refine ⟨rfl, ?_⟩
      rintro _ fl ⟨rfl, hnh, hnf⟩
      change (faRules cls).Follows faSystem
        (writeVerified CTF_MEMACC_TBL_NH fl.nhIdx (faDecodeRule cls.rule).nhRow >>= _) _
      refine Rules.Follows.bind (writeVerified_follows rfl ⟨hnh, .inl ⟨rfl, rfl⟩⟩) ?_
      intro g ok hheld
      have hend : ∀ (g' : Progress) (ok : Bool), g'.held = some i →
          (faRules cls).Follows faSystem
            (if !ok then do faFlowFree i; return -EOPNOTSUPP else return 0 : CallProg Int) g' := by
        intro g' ok hheld'
        cases ok with
        | false =>
            refine ⟨hheld', ?_⟩
            rintro _ _ rfl
            exact Progress.ended_of_none rfl fun _ => EOPNOTSUPP_ne
        | true => exact ⟨fun _ => ⟨hcmd, rfl⟩, fun _ => by rw [hheld']; rfl⟩
      cases ok with
      | false => exact hend g false hheld
      | true =>
          exact Rules.Follows.bind (writeVerified_follows hheld ⟨hnf, .inr ⟨rfl, rfl⟩⟩) hend

theorem faFlowDestroyLive_follows (hcmd : cls.command = .destroy) :
    (faPart cls fun g (_ : Unit) => g.held = none).Follows faSystem
      (faFlowDestroyLive cls.cookie) .fresh := by
  refine ⟨⟨hcmd, rfl, rfl⟩, ?_⟩
  rintro _ (_ | i) rfl
  · rfl
  · refine ⟨rfl, ?_⟩
    rintro _ fl ⟨rfl, hnh, hnf⟩
    refine ⟨⟨i, rfl, hnf, .inr ⟨rfl, rfl⟩⟩, ?_⟩
    rintro g1 ⟨idle, words⟩ ⟨hheld, -, hlen⟩
    have hfree : ∀ g' : Progress, g'.held = some i →
        (faPart cls fun g (_ : Unit) => g.held = none).Follows faSystem (faFlowFree i) g' := by
      rintro g' hheld'
      refine ⟨hheld', ?_⟩
      rintro _ _ rfl
      rfl
    cases idle with
    | false => exact hfree g1 hheld
    | true =>
        refine ⟨⟨i, hheld, hnf, .inr ⟨rfl, by simpa [clearValid] using hlen⟩⟩, ?_⟩
        rintro g2 _ ⟨hheld2, -⟩
        exact hfree g2 (hheld2.trans hheld)

theorem faSetupBlockCb_follows (cls : FlowClsOffload) :
    (faRules cls).Follows faSystem (faSetupBlockCb true .clsflower cls) .fresh := by
  obtain ⟨command, cookie, rule⟩ := cls
  cases command with
  | replace => exact faFlowReplaceLive_follows rfl
  | destroy =>
      refine Rules.Follows.bind (faFlowDestroyLive_follows rfl) ?_
      intro g _ hheld
      exact Progress.ended_of_none hheld nofun
  | stats => exact Progress.ended_of_none rfl nofun
  | other => exact Progress.ended_of_none rfl nofun

end Callbacks

end R8000Plus.Fa

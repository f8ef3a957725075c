import R8000Plus.Effects.Prog
import R8000Plus.Effects.Runs

/-!
The antenna masks of a radio. The driver keeps no copy of them: a get reads two
iovars of the firmware and a set writes them one after the other, so the pair
is as whole as the firmware's answers let it be.
-/

namespace R8000Plus.Radio

open Effects

/-- A u32 with one bit for each chain. -/
abbrev ChainMask := BitVec 32

inductive Iovar where
  | txchain
  | rxchain
  deriving DecidableEq

inductive Fwil where
  | iovarIntGet (name : Iovar)
  | iovarIntSet (name : Iovar) (data : ChainMask)

/-- The error code, and for a get the word read, which nobody may use after an
error. -/
abbrev Fwil.Ans : Fwil → Type
  | .iovarIntGet _ => Int × ChainMask
  | .iovarIntSet _ _ => Int

/-- The return value, and what is written through `tx_ant` and `rx_ant`. -/
def brcmfCfg80211GetAntenna : Prog Fwil Fwil.Ans (Int × Option (ChainMask × ChainMask)) := do
  let (err, txchain) ← Prog.request (Fwil.iovarIntGet .txchain)
  if err ≠ 0 then return (err, none)
  else
    let (err, rxchain) ← Prog.request (Fwil.iovarIntGet .rxchain)
    if err ≠ 0 then return (err, none)
    else return (0, some (txchain, rxchain))

def brcmfCfg80211SetAntenna (txAnt rxAnt : ChainMask) : Prog Fwil Fwil.Ans Int := do
  let err ← Prog.request (Fwil.iovarIntSet .txchain txAnt)
  if err ≠ 0 then return err
  else
    let err ← Prog.request (Fwil.iovarIntSet .rxchain rxAnt)
    if err ≠ 0 then return err
    else return 0

/-! ### The firmware -/

/-- `err n` is what the firmware returns for the request after `n` others. -/
structure Firmware where
  iovar : Iovar → ChainMask
  err : Nat → Int
  served : Nat

namespace Firmware

/-- A set that fails leaves its iovar alone. -/
def perform : (o : Fwil) → Firmware → o.Ans × Firmware
  | .iovarIntGet name, fw =>
      ((fw.err fw.served, fw.iovar name), { fw with served := fw.served + 1 })
  | .iovarIntSet name data, fw =>
      (fw.err fw.served,
        { fw with
          iovar := if fw.err fw.served = 0 then Function.update fw.iovar name data else fw.iovar
          served := fw.served + 1 })

def pair (fw : Firmware) : ChainMask × ChainMask := (fw.iovar .txchain, fw.iovar .rxchain)

def getAntenna (fw : Firmware) : (Int × Option (ChainMask × ChainMask)) × Firmware :=
  brcmfCfg80211GetAntenna.run perform fw

def setAntenna (txAnt rxAnt : ChainMask) (fw : Firmware) : Int × Firmware :=
  (brcmfCfg80211SetAntenna txAnt rxAnt).run perform fw

variable {fw : Firmware}

theorem getAntenna_iovar (fw : Firmware) : fw.getAntenna.2.iovar = fw.iovar := by
  have hget : ∀ name, (Prog.request (Fwil.iovarIntGet name) : Prog Fwil Fwil.Ans _).Uses
      (fun o => ∃ name, o = .iovarIntGet name) := fun name => ⟨⟨name, rfl⟩, fun _ => trivial⟩
  have huses : brcmfCfg80211GetAntenna.Uses (fun o => ∃ name, o = .iovarIntGet name) := by
    refine (hget _).bind fun ⟨err, txchain⟩ => ?_
    dsimp only
    split
    · trivial
    · refine (hget _).bind fun ⟨err, rxchain⟩ => ?_
      dsimp only
      split <;> trivial
  refine huses.run perform (fun s => s.iovar = fw.iovar) ?_ rfl
  rintro _ s ⟨name, rfl⟩ hs
  exact hs

/-- The outputs are assigned together, after the last request that can fail. -/
theorem getAntenna_ret (fw : Firmware) :
    fw.getAntenna.1 = (0, some fw.pair) ∨ fw.getAntenna.1.1 ≠ 0 ∧ fw.getAntenna.1.2 = none := by
  by_cases hfirst : fw.err fw.served = 0
  · by_cases hsecond : fw.err (fw.served + 1) = 0
    · refine .inl ?_
      simp [getAntenna, brcmfCfg80211GetAntenna, perform, pair, hfirst, hsecond]
    · refine .inr ?_
      simp [getAntenna, brcmfCfg80211GetAntenna, perform, hfirst, hsecond]
  · refine .inr ?_
    simp [getAntenna, brcmfCfg80211GetAntenna, perform, hfirst]

section Set

variable (txAnt rxAnt : ChainMask)

theorem setAntenna_refused (htx : fw.err fw.served ≠ 0) :
    fw.setAntenna txAnt rxAnt = (fw.err fw.served, { fw with served := fw.served + 1 }) := by
  simp [setAntenna, brcmfCfg80211SetAntenna, perform, htx]

/-- The early return after the second set undoes nothing of the first. -/
theorem setAntenna_half (htx : fw.err fw.served = 0) (hrx : fw.err (fw.served + 1) ≠ 0) :
    fw.setAntenna txAnt rxAnt =
      (fw.err (fw.served + 1),
        { fw with
          iovar := Function.update fw.iovar .txchain txAnt
          served := fw.served + 1 + 1 }) := by
  simp [setAntenna, brcmfCfg80211SetAntenna, perform, htx, hrx]

theorem setAntenna_stored (htx : fw.err fw.served = 0) (hrx : fw.err (fw.served + 1) = 0) :
    (fw.setAntenna txAnt rxAnt).1 = 0 ∧ (fw.setAntenna txAnt rxAnt).2.pair = (txAnt, rxAnt) := by
  simp [setAntenna, brcmfCfg80211SetAntenna, perform, pair, htx, hrx]

end Set

end Firmware

/-! ### Runs of calls -/

inductive AntennaCall where
  | get
  | set (txAnt rxAnt : ChainMask)

structure Antenna where
  fw : Firmware
  /-- The pair of the last set that returned 0, or the one at the start. -/
  committed : ChainMask × ChainMask

namespace Antenna

def start (fw : Firmware) : Antenna := ⟨fw, fw.pair⟩

def call (s : Antenna) : AntennaCall → Antenna
  | .get => { s with fw := s.fw.getAntenna.2 }
  | .set txAnt rxAnt =>
      { fw := (s.fw.setAntenna txAnt rxAnt).2
        committed := if (s.fw.setAntenna txAnt rxAnt).1 = 0 then (txAnt, rxAnt) else s.committed }

/-- A set that fails changes neither iovar; a get that succeeds returns the
committed pair, and one that fails writes nothing. -/
def Atomic (s : Antenna) : AntennaCall → Prop
  | .get => (s.fw.getAntenna.1.1 = 0 → s.fw.getAntenna.1.2 = some s.committed) ∧
      (s.fw.getAntenna.1.1 ≠ 0 → s.fw.getAntenna.1.2 = none)
  | .set txAnt rxAnt => (s.fw.setAntenna txAnt rxAnt).1 ≠ 0 →
      (s.fw.setAntenna txAnt rxAnt).2.iovar = s.fw.iovar

/-- No set stores a new transmit mask and is then refused the receive mask. -/
def Whole (s : Antenna) : AntennaCall → Prop
  | .get => True
  | .set txAnt _ => s.fw.err s.fw.served = 0 → s.fw.err (s.fw.served + 1) ≠ 0 →
      s.fw.iovar .txchain = txAnt

def Committed (s : Antenna) : Prop := s.fw.pair = s.committed

theorem atomic_get {s : Antenna} (hs : s.Committed) : s.Atomic .get := by
  rcases s.fw.getAntenna_ret with hret | ⟨hret, hout⟩
  · rw [Atomic, hret]
    exact ⟨fun _ => congrArg some hs, fun h => absurd rfl h⟩
  · exact ⟨fun h => absurd h hret, fun _ => hout⟩

theorem atomic_set_iff (s : Antenna) (txAnt rxAnt : ChainMask) :
    s.Atomic (.set txAnt rxAnt) ↔ s.Whole (.set txAnt rxAnt) := by
  rw [Atomic, Whole]
  by_cases htx : s.fw.err s.fw.served = 0
  · by_cases hrx : s.fw.err (s.fw.served + 1) = 0
    · have hret := (Firmware.setAntenna_stored txAnt rxAnt htx hrx).1
      exact iff_of_true (fun h => absurd hret h) (fun _ h => absurd hrx h)
    · rw [Firmware.setAntenna_half txAnt rxAnt htx hrx]
      have hkept : Function.update s.fw.iovar .txchain txAnt = s.fw.iovar ↔
          s.fw.iovar .txchain = txAnt := by
        rw [Function.update_eq_self_iff, eq_comm]
      exact ⟨fun h _ _ => hkept.mp (h hrx), fun h _ => hkept.mpr (h htx hrx)⟩
  · rw [Firmware.setAntenna_refused txAnt rxAnt htx]
    exact iff_of_true (fun _ => rfl) (fun h => absurd h htx)

theorem committed_call {s : Antenna} {c : AntennaCall} (hs : s.Committed) (hc : s.Whole c) :
    (s.call c).Committed := by
  cases c with
  | get =>
      rw [Committed, call, Firmware.pair, Firmware.getAntenna_iovar]
      exact hs
  | set txAnt rxAnt =>
      rw [Committed, call]
      by_cases hret : (s.fw.setAntenna txAnt rxAnt).1 = 0
      · rw [if_pos hret]
        by_cases htx : s.fw.err s.fw.served = 0
        · by_cases hrx : s.fw.err (s.fw.served + 1) = 0
          · exact (Firmware.setAntenna_stored txAnt rxAnt htx hrx).2
          · rw [Firmware.setAntenna_half txAnt rxAnt htx hrx] at hret
            exact absurd hret hrx
        · rw [Firmware.setAntenna_refused txAnt rxAnt htx] at hret
          exact absurd hret htx
      · rw [if_neg hret, Firmware.pair, (atomic_set_iff s txAnt rxAnt).mpr hc hret]
        exact hs

/-- A run of calls treats the two iovars as one register exactly when no set of
it is cut in half. -/
theorem atomic_run_iff (fw : Firmware) (run : List AntennaCall) :
    EveryStep call Atomic (start fw) run ↔ EveryStep call Whole (start fw) run := by
  have hstart : (start fw).Committed := rfl
  refine everyStep_congr (fun s c hs => ?_) (fun s c => committed_call) hstart
  cases c with
  | get => exact iff_of_true (atomic_get hs) trivial
  | set txAnt rxAnt => exact atomic_set_iff s txAnt rxAnt

/-- Both chains were 3; the firmware takes 1 for the transmit chain and refuses
it for the receive chain. The set fails, and the next get returns (1, 3). -/
theorem atomic_run_half :
    ¬EveryStep call Atomic
      (start ⟨fun _ => 3, fun n => if n = 1 then -5 else 0, 0⟩) [.set 1 1, .get] ∧
      ((start ⟨fun _ => 3, fun n => if n = 1 then -5 else 0, 0⟩).call
        (.set 1 1)).fw.getAntenna.1 = (0, some (1, 3)) := by
  refine ⟨fun h => ?_, by decide⟩
  have hkept := congrFun (h.1 (by decide)) .txchain
  exact absurd hkept (by decide)

end Antenna

end R8000Plus.Radio

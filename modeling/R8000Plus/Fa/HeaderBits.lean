import R8000Plus.Effects.LastSet
import R8000Plus.Fa.Napt

/-!
MANGLE actions bit by bit. A masked rewrite sets some bits of a header and
leaves the others, so a list of them leaves each bit as the last one that sets
it says.
-/

namespace R8000Plus.Fa

open Effects

inductive Header where
  | eth
  | ip
  | l4
  deriving DecidableEq, Repr

/-- The header a MANGLE works on, if a TCP/IPv4 packet has it. -/
def MangleHdr.header : MangleHdr → Option Header
  | .eth => some .eth
  | .ip4 => some .ip
  | .tcp => some .l4
  | .udp => some .l4
  | .ip6 => none
  | .unspec => none

namespace Packet

def header (p : Packet) : Header → Nat → Byte
  | .eth => p.eth
  | .ip => p.ip
  | .l4 => p.l4

/-- Bit `b` of byte `k` of a header. -/
def bit (p : Packet) (h : Header) (k b : Nat) : Bool := (p.header h k).getLsbD b

theorem ext_bits {p q : Packet} (h : ∀ hdr k b, b < 8 → p.bit hdr k b = q.bit hdr k b) :
    p = q := by
  have hheader (hdr : Header) : p.header hdr = q.header hdr := by
    funext k
    exact BitVec.eq_of_getLsbD_eq fun b hb => h hdr k b hb
  obtain ⟨eth, ip, l4⟩ := p
  obtain ⟨eth', ip', l4'⟩ := q
  rw [Packet.mk.injEq]
  exact ⟨hheader .eth, hheader .ip, hheader .l4⟩

end Packet

/-- What a MANGLE sets bit `b` of byte `k` of its header to, if it sets it. -/
def Mangle.bitAt (m : Mangle) (k b : Nat) : Option Bool :=
  let i := 8 * (k - m.offset) + b
  if (m.offset ≤ k ∧ k < m.offset + 4) ∧ (m.val.getLsbD i || !m.mask.getLsbD i) = true then
    some (m.val.getLsbD i)
  else none

def FlowAction.bitAt (hdr : Header) (k b : Nat) : FlowAction → Option Bool
  | .mangle m => if m.htype.header = some hdr then m.bitAt k b else none
  | _ => none

theorem wordAt_bit (header : Nat → Byte) (offset j b : Nat) (hj : j < 4) (hb : b < 8) :
    (wordAt header offset).getLsbD (8 * j + b) = (header (offset + j)).getLsbD b := by
  simp only [wordAt, BitVec.getLsbD_append]
  interval_cases j <;> interval_cases b <;> simp

theorem putWord_bit (header : Nat → Byte) (offset : Nat) (word : Word) (k b : Nat) (hb : b < 8) :
    (putWord header offset word k).getLsbD b =
      if offset ≤ k ∧ k < offset + 4 then word.getLsbD (8 * (k - offset) + b)
      else (header k).getLsbD b := by
  rw [putWord]
  split
  · simp [hb]
  · rfl

theorem Mangle.rewrite_bit (m : Mangle) (header : Nat → Byte) (k b : Nat) (hb : b < 8) :
    (m.rewrite header k).getLsbD b = (m.bitAt k b).getD ((header k).getLsbD b) := by
  rw [Mangle.rewrite, putWord_bit _ _ _ _ _ hb, Mangle.bitAt]
  by_cases hcover : m.offset ≤ k ∧ k < m.offset + 4
  · have hword := wordAt_bit header m.offset (k - m.offset) b (by omega) hb
    rw [show m.offset + (k - m.offset) = k by omega] at hword
    simp only [hcover, and_self, if_true, true_and, Mangle.word, BitVec.getLsbD_or,
      BitVec.getLsbD_and, hword]
    cases m.val.getLsbD (8 * (k - m.offset) + b) <;>
      cases m.mask.getLsbD (8 * (k - m.offset) + b) <;> simp
  · simp only [hcover, if_false, false_and]
    rfl

namespace FlowAction

variable (act : FlowAction) (p : Packet) (hdr : Header) (k b : Nat)

theorem apply_bit (hb : b < 8) :
    (act.apply p).bit hdr k b = (act.bitAt hdr k b).getD (p.bit hdr k b) := by
  cases act with
  | mangle m =>
      obtain ⟨htype, offset, mask, val⟩ := m
      cases htype <;> cases hdr <;>
        first | rfl | exact Mangle.rewrite_bit _ _ k b hb
  | redirect dev | csum | other id => rfl

/-- What a list of actions leaves in a bit. -/
theorem foldl_apply_bit (actions : List FlowAction) (hb : b < 8) :
    (actions.foldl FlowAction.apply p).bit hdr k b =
      (lastSet (FlowAction.bitAt hdr k b) actions).getD (p.bit hdr k b) :=
  @observe_foldl _ _ _ _ (fun p => p.bit hdr k b) _ (fun p act => act.apply_bit p hdr k b hb) p
    actions

end FlowAction

end R8000Plus.Fa

import Mathlib.Data.List.Basic
import Mathlib.Algebra.Order.Ring.Nat

/-!
# Length-prefixed framing

A sequence of byte strings as one byte string: each item is preceded by its length in eight bytes,
the least significant first.
-/

namespace Framing

/-- `k` bytes of `n`, the least significant first. -/
def littleEndian : Nat → Nat → List UInt8
  | 0, _ => []
  | k + 1, n => UInt8.ofNat n :: littleEndian k (n / 256)

def frame (item : List UInt8) : List UInt8 := littleEndian 8 item.length ++ item

def frames (items : List (List UInt8)) : List UInt8 := items.flatMap frame

/-- A length that eight bytes can hold. -/
def Short (item : List UInt8) : Prop := item.length < 256 ^ 8

@[simp] theorem length_littleEndian (k n : Nat) : (littleEndian k n).length = k := by
  induction k generalizing n with
  | zero => rfl
  | succ k ih => rw [littleEndian, List.length_cons, ih]

theorem littleEndian_inj {k n m : Nat} (hn : n < 256 ^ k) (hm : m < 256 ^ k)
    (h : littleEndian k n = littleEndian k m) : n = m := by
  induction k generalizing n m with
  | zero => omega
  | succ k ih =>
      rw [littleEndian, littleEndian, List.cons.injEq] at h
      have hlow : n % 256 = m % 256 := by
        have := congrArg UInt8.toNat h.1
        rwa [UInt8.toNat_ofNat', UInt8.toNat_ofNat'] at this
      rw [Nat.pow_succ] at hn hm
      have hhigh := ih (Nat.div_lt_of_lt_mul (by omega)) (Nat.div_lt_of_lt_mul (by omega)) h.2
      omega

/-- An item is read back from the front of what follows it. -/
theorem frame_append_inj {a b r s : List UInt8} (ha : Short a) (hb : Short b)
    (h : frame a ++ r = frame b ++ s) : a = b ∧ r = s := by
  rw [frame, frame, List.append_assoc, List.append_assoc] at h
  obtain ⟨hlen, h⟩ := List.append_inj h (by simp)
  have hsame := littleEndian_inj ha hb hlen
  exact List.append_inj h hsame

theorem frames_inj {as bs : List (List UInt8)} (ha : ∀ a ∈ as, Short a) (hb : ∀ b ∈ bs, Short b)
    (h : frames as = frames bs) : as = bs := by
  have hne : ∀ (a r : List UInt8), frame a ++ r ≠ [] := by
    intro a r he
    have := congrArg List.length he
    simp [frame] at this
  induction as generalizing bs with
  | nil =>
      cases bs with
      | nil => rfl
      | cons b bs => exact absurd h.symm (hne b (frames bs))
  | cons a as ih =>
      cases bs with
      | nil => exact absurd h (hne a (frames as))
      | cons b bs =>
          rw [List.forall_mem_cons] at ha hb
          obtain ⟨rfl, hrest⟩ := frame_append_inj ha.1 hb.1 h
          rw [ih ha.2 hb.2 hrest]

end Framing

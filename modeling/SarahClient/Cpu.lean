import Mathlib.Algebra.Order.Field.Rat
import Mathlib.Tactic.Linarith
import Mathlib.Tactic.Positivity

/-!
# CPU occupancy (`cpu.c`)

The four counters of a snapshot are added as `unsigned int`, and only the sums become `long double`.

* `CpuTime`, `sarahCalCpuOccupy`: the code, with exact arithmetic after the sums;
* `occupancy`: the busy share of the time between two snapshots, as a percentage; `occupancy_range`: it is one;
* `Proportional`: the two sums wrap around as often as the shares of their changes ask for;
* **`calCpuOccupy_iff`**: the code computes the occupancy exactly then.
-/

namespace Sarah

/-- `sarah_cpu_time_t`, the counters. -/
structure CpuTime where
  user : UInt32
  nice : UInt32
  system : UInt32
  idle : UInt32
deriving DecidableEq

/-- `sarah_cal_cpu_occupy`. -/
def sarahCalCpuOccupy (s1 s2 : CpuTime) : ℚ :=
  let s1Cost : ℚ := (s1.user + s1.nice + s1.system + s1.idle).toNat
  let s2Cost : ℚ := (s2.user + s2.nice + s2.system + s2.idle).toNat
  if s2Cost - s1Cost = 0 then 0
  else
    let u1Cost : ℚ := (s1.user + s1.nice + s1.system).toNat
    let u2Cost : ℚ := (s2.user + s2.nice + s2.system).toNat
    (u2Cost - u1Cost) / (s2Cost - s1Cost) * 100

namespace CpuTime

/-- Every counter of `s2` is at least that of `s1`. -/
structure Before (s1 s2 : CpuTime) : Prop where
  user : s1.user ≤ s2.user
  nice : s1.nice ≤ s2.nice
  system : s1.system ≤ s2.system
  idle : s1.idle ≤ s2.idle

/-- The busy time between the snapshots. -/
def busyDelta (s1 s2 : CpuTime) : ℕ :=
  (s2.user.toNat - s1.user.toNat) + (s2.nice.toNat - s1.nice.toNat) + (s2.system.toNat - s1.system.toNat)

/-- The whole time between them. -/
def totalDelta (s1 s2 : CpuTime) : ℕ := busyDelta s1 s2 + (s2.idle.toNat - s1.idle.toNat)

/-- The busy share of the time between the snapshots, in percent. -/
def occupancy (s1 s2 : CpuTime) : ℚ :=
  if totalDelta s1 s2 = 0 then 0 else 100 * busyDelta s1 s2 / totalDelta s1 s2

/-- The sums that the code means. -/
def busy (s : CpuTime) : ℕ := s.user.toNat + s.nice.toNat + s.system.toNat

/-- The whole time of a snapshot. -/
def total (s : CpuTime) : ℕ := s.busy + s.idle.toNat

/-- How often an `unsigned int` wraps around between two sums. -/
def wraps (m n : ℕ) : ℕ := n / 2 ^ 32 - m / 2 ^ 32

/-- The sums wrap around in the ratio of their changes, and the sum of all counters does not return to its old value
after a busy time. -/
def Proportional (s1 s2 : CpuTime) : Prop :=
  wraps s1.busy s2.busy * totalDelta s1 s2 = wraps s1.total s2.total * busyDelta s1 s2 ∧
    (totalDelta s1 s2 = 2 ^ 32 * wraps s1.total s2.total → busyDelta s1 s2 = 0)

/-- **The property of a pair of snapshots.** -/
def Percentage (s1 s2 : CpuTime) : Prop :=
  sarahCalCpuOccupy s1 s2 = occupancy s1 s2 ∧ 0 ≤ sarahCalCpuOccupy s1 s2 ∧ sarahCalCpuOccupy s1 s2 ≤ 100

variable {s1 s2 : CpuTime}

theorem busyDelta_le (s1 s2 : CpuTime) : busyDelta s1 s2 ≤ totalDelta s1 s2 := Nat.le_add_right _ _

theorem occupancy_range (s1 s2 : CpuTime) : 0 ≤ occupancy s1 s2 ∧ occupancy s1 s2 ≤ 100 := by
  have hle : (busyDelta s1 s2 : ℚ) ≤ totalDelta s1 s2 := by exact_mod_cast busyDelta_le s1 s2
  unfold occupancy
  split_ifs with h
  · norm_num
  · have hpos : (0 : ℚ) < totalDelta s1 s2 := by exact_mod_cast Nat.pos_of_ne_zero h
    exact ⟨by positivity, (div_le_iff₀ hpos).mpr (by linarith)⟩

/-! ## The wrapped sums -/

theorem toNat_busy (s : CpuTime) : (s.user + s.nice + s.system).toNat = s.busy % 2 ^ 32 := by
  simp only [busy, UInt32.toNat_add]
  omega

theorem toNat_total (s : CpuTime) : (s.user + s.nice + s.system + s.idle).toNat = s.total % 2 ^ 32 := by
  simp only [total, busy, UInt32.toNat_add]
  omega

theorem Before.busy_eq (h : s1.Before s2) : s2.busy = s1.busy + busyDelta s1 s2 := by
  have := UInt32.le_iff_toNat_le.mp h.user
  have := UInt32.le_iff_toNat_le.mp h.nice
  have := UInt32.le_iff_toNat_le.mp h.system
  unfold busy busyDelta
  omega

theorem Before.total_eq (h : s1.Before s2) : s2.total = s1.total + totalDelta s1 s2 := by
  have := UInt32.le_iff_toNat_le.mp h.idle
  have := h.busy_eq
  unfold total totalDelta
  omega

/-- The change of a wrapped sum misses `2 ^ 32` for every time the sum wraps around. -/
theorem wrapped_change (m d : ℕ) :
    (((m + d) % 2 ^ 32 : ℕ) : ℚ) - (m % 2 ^ 32 : ℕ) = d - 2 ^ 32 * wraps m (m + d) := by
  have hnat : (m + d) % 2 ^ 32 + 2 ^ 32 * wraps m (m + d) = d + m % 2 ^ 32 := by
    unfold wraps
    omega
  have hrat : (((m + d) % 2 ^ 32 : ℕ) : ℚ) + 2 ^ 32 * wraps m (m + d) = d + (m % 2 ^ 32 : ℕ) := by
    exact_mod_cast hnat
  linarith

theorem share_eq_iff {x y a b M : ℚ} (hy : y ≠ 0) (hM : M ≠ 0) (hyb : y - M * b ≠ 0) :
    (x - M * a) / (y - M * b) * 100 = 100 * x / y ↔ a * y = b * x := by
  rw [div_mul_eq_mul_div, div_eq_div_iff hyb hy]
  constructor
  · intro h
    have : M * (a * y) = M * (b * x) := by linarith
    exact mul_left_cancel₀ hM this
  · intro h
    have : M * (a * y) = M * (b * x) := by rw [h]
    linarith

theorem calCpuOccupy_eq (h : s1.Before s2) : sarahCalCpuOccupy s1 s2 =
    if (totalDelta s1 s2 : ℚ) - 2 ^ 32 * wraps s1.total s2.total = 0 then 0
    else
      ((busyDelta s1 s2 : ℚ) - 2 ^ 32 * wraps s1.busy s2.busy) /
        ((totalDelta s1 s2 : ℚ) - 2 ^ 32 * wraps s1.total s2.total) * 100 := by
  have hbusy := wrapped_change s1.busy (busyDelta s1 s2)
  have htotal := wrapped_change s1.total (totalDelta s1 s2)
  rw [← h.busy_eq] at hbusy
  rw [← h.total_eq] at htotal
  unfold sarahCalCpuOccupy
  simp only [toNat_busy, toNat_total, hbusy, htotal]

/-- The code computes the occupancy exactly when the sums wrap around proportionally. -/
theorem calCpuOccupy_eq_occupancy_iff (h : s1.Before s2) :
    sarahCalCpuOccupy s1 s2 = occupancy s1 s2 ↔ Proportional s1 s2 := by
  rw [calCpuOccupy_eq h]
  have hle := busyDelta_le s1 s2
  unfold occupancy Proportional
  by_cases hzero : totalDelta s1 s2 = 0
  · -- nothing changed, so nothing wraps around
    have hbusy : busyDelta s1 s2 = 0 := by omega
    have hwraps : wraps s1.total s2.total = 0 := by
      have := h.total_eq
      unfold wraps
      omega
    simp [hzero, hbusy, hwraps]
  have hy : (totalDelta s1 s2 : ℚ) ≠ 0 := by exact_mod_cast hzero
  rw [if_neg hzero]
  by_cases hsame : totalDelta s1 s2 = 2 ^ 32 * wraps s1.total s2.total
  · -- the sum of all counters is back at its old value, and the code reports 0
    have hsub : (totalDelta s1 s2 : ℚ) - 2 ^ 32 * wraps s1.total s2.total = 0 := by
      rw [sub_eq_zero]
      exact_mod_cast hsame
    rw [if_pos hsub]
    constructor
    · intro heq
      have hbusy : busyDelta s1 s2 = 0 := by
        rcases div_eq_zero_iff.mp heq.symm with hx | hx
        · exact_mod_cast (mul_eq_zero.mp hx).resolve_left (by norm_num)
        · exact absurd hx hy
      have hwraps : wraps s1.busy s2.busy = 0 := by
        have := h.busy_eq
        unfold wraps
        omega
      simp [hbusy, hwraps]
    · rintro ⟨-, hbusy⟩
      simp [hbusy hsame]
  · have hyb : (totalDelta s1 s2 : ℚ) - 2 ^ 32 * wraps s1.total s2.total ≠ 0 := by
      rw [sub_ne_zero]
      exact_mod_cast hsame
    rw [if_neg hyb, share_eq_iff hy (by norm_num) hyb]
    constructor
    · exact fun heq => ⟨by exact_mod_cast heq, fun hs => absurd hs hsame⟩
    · exact fun heq => by exact_mod_cast heq.1

/-- **CPU occupancy.** Between any two snapshots with growing counters, the code computes the busy share, and so a value
from 0 to 100, exactly when its 32-bit sums wrap around in proportion. -/
theorem calCpuOccupy_iff {s1 s2 : CpuTime} (h : s1.Before s2) : Percentage s1 s2 ↔ Proportional s1 s2 := by
  constructor
  · exact fun hp => (calCpuOccupy_eq_occupancy_iff h).mp hp.1
  · intro hp
    have heq := (calCpuOccupy_eq_occupancy_iff h).mpr hp
    exact ⟨heq, heq ▸ occupancy_range s1 s2⟩

theorem Proportional.of_lt (h : s1.Before s2) (hlt : s2.total < 2 ^ 32) : Proportional s1 s2 := by
  have hbusy := h.busy_eq
  have htotal := h.total_eq
  have hle : s2.busy ≤ s2.total := Nat.le_add_right _ _
  have hwb : wraps s1.busy s2.busy = 0 := by unfold wraps; omega
  have hwt : wraps s1.total s2.total = 0 := by unfold wraps; omega
  have hd := busyDelta_le s1 s2
  refine ⟨by rw [hwb, hwt, Nat.zero_mul, Nat.zero_mul], fun hs => ?_⟩
  rw [hwt] at hs
  omega

/-- A busy quarter of the time. -/
theorem calCpuOccupy_iff_quarter : Percentage ⟨1, 2, 3, 4⟩ ⟨2, 2, 3, 7⟩ :=
  (calCpuOccupy_iff ⟨by decide, by decide, by decide, by decide⟩).mpr
    (Proportional.of_lt ⟨by decide, by decide, by decide, by decide⟩ (by decide))

/-- Ten busy ticks while the sum of the counters passes `2 ^ 32`: the code reports a negative share. -/
theorem not_calCpuOccupy : ¬ ∀ s1 s2 : CpuTime, s1.Before s2 → Percentage s1 s2 := by
  intro hall
  have hp := hall ⟨10, 0, 0, 4294967285⟩ ⟨20, 0, 0, 4294967285⟩ ⟨by decide, by decide, by decide, by decide⟩
  have hneg := hp.2.1
  revert hneg
  decide +kernel

end CpuTime

end Sarah

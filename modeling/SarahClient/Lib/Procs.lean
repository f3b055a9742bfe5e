import Mathlib.Data.Finset.Lattice.Fold
import Mathlib.Data.Finset.Insert
import Mathlib.Order.Lattice.Nat

/-!
# The child processes of one process

A table holds the children that run and those that have ended and wait to be reaped.

* `Kernel`: any choice of unused process ids, which may depend on the history and reuse ids that
  were reaped; it also says which calls of `fork` succeed;
* `fork`, `reap`, `wait`, `die`; `Owned`: the id belongs to a child;
* `Kernel.bump`: one kernel that always forks.
-/

/-- A process table; `clock` counts the calls of `fork`. -/
structure Procs where
  running : Finset ℕ
  zombie : Finset ℕ
  clock : ℕ
  deriving DecidableEq

namespace Procs

/-- The id belongs to a child. -/
def Owned (t : Procs) (p : ℕ) : Prop := p ∈ t.running ∨ p ∈ t.zombie

instance (t : Procs) (p : ℕ) : Decidable (t.Owned p) := inferInstanceAs (Decidable (_ ∨ _))

/-- The choices of the kernel. -/
structure Kernel where
  next : Procs → ℕ
  fresh : ∀ t : Procs, ¬ t.Owned (next t)
  forks : Procs → Bool
  /-- The child that `waitpid(-1)` reaps. -/
  pick : Procs → ℕ

/-- Every `fork` succeeds. -/
def Kernel.AlwaysForks (K : Kernel) : Prop := ∀ t, K.forks t = true

/-- Number the processes upwards. -/
def Kernel.bump : Kernel where
  next t := (t.running ∪ t.zombie).sup id + 1
  fresh t h := by
    have hmem : (t.running ∪ t.zombie).sup id + 1 ∈ t.running ∪ t.zombie := Finset.mem_union.mpr h
    have : (t.running ∪ t.zombie).sup id + 1 ≤ (t.running ∪ t.zombie).sup id := Finset.le_sup (f := id) hmem
    omega
  forks _ := true
  pick t := t.zombie.sup id

theorem Kernel.bump_alwaysForks : Kernel.bump.AlwaysForks := fun _ => rfl

variable (K : Kernel)

/-- A new child, or -1 (`none`). -/
def fork (t : Procs) : Option ℕ × Procs :=
  if K.forks t then (some (K.next t), { t with running := insert (K.next t) t.running, clock := t.clock + 1 })
  else (none, { t with clock := t.clock + 1 })

/-- Forget a child that has ended. -/
def reap (t : Procs) (p : ℕ) : Procs := { t with zombie := t.zombie.erase p }

/-- `waitpid` with `WNOHANG`: `none` when it reaps nobody. The id -1 stands for any child. -/
def wait (t : Procs) : Option ℕ → Option Procs
  | some p => if p ∈ t.zombie then some (t.reap p) else none
  | none => if K.pick t ∈ t.zombie then some (t.reap (K.pick t)) else none

/-- A child ends. -/
def die (t : Procs) (p : ℕ) : Procs :=
  if p ∈ t.running then { t with running := t.running.erase p, zombie := insert p t.zombie } else t

/-- Running and ended children are different. -/
def Split (t : Procs) : Prop := ∀ p, p ∈ t.running → p ∉ t.zombie

variable {K}

theorem fork_of_forks (h : K.AlwaysForks) (t : Procs) : fork K t =
    (some (K.next t), { t with running := insert (K.next t) t.running, clock := t.clock + 1 }) := if_pos (h t)

theorem wait_of_mem {t : Procs} {p : ℕ} (h : p ∈ t.zombie) : wait K t (some p) = some (t.reap p) := if_pos h

theorem wait_of_notMem {t : Procs} {p : ℕ} (h : p ∉ t.zombie) : wait K t (some p) = none := if_neg h

theorem mem_reap_zombie {t : Procs} {p q : ℕ} : q ∈ (t.reap p).zombie ↔ q ≠ p ∧ q ∈ t.zombie := Finset.mem_erase

theorem Split.reap {t : Procs} (h : t.Split) (p : ℕ) : (t.reap p).Split :=
  fun q hq hz => h q hq (mem_reap_zombie.mp hz).2

theorem wait_eq_some {t t' : Procs} {pid : Option ℕ} (h : wait K t pid = some t') :
    ∃ q ∈ t.zombie, t' = t.reap q ∧ ∀ p, pid = some p → p = q := by
  cases pid with
  | some p =>
    rw [wait] at h
    split_ifs at h with hz
    cases h
    exact ⟨p, hz, rfl, fun q hq => (Option.some.inj hq).symm⟩
  | none =>
    rw [wait] at h
    split_ifs at h with hz
    cases h
    exact ⟨K.pick t, hz, rfl, fun q hq => by cases hq⟩

theorem Split.fork {t : Procs} (h : t.Split) : (fork K t).2.Split := by
  unfold Procs.fork
  split_ifs with hforks
  · intro p hp hz
    obtain rfl | hp := Finset.mem_insert.mp hp
    · exact K.fresh t (.inr hz)
    · exact h p hp hz
  · exact h

theorem mem_fork_running {t : Procs} {p : ℕ} (h : p ∈ (fork K t).2.running) :
    p ∈ t.running ∨ (fork K t).1 = some p := by
  unfold fork at h ⊢
  split_ifs at h ⊢ with hforks
  · obtain rfl | hp := Finset.mem_insert.mp h
    · exact .inr rfl
    · exact .inl hp
  · exact .inl h

theorem mem_die_running {t : Procs} {p q : ℕ} : q ∈ (t.die p).running ↔ q ≠ p ∧ q ∈ t.running := by
  unfold die
  split_ifs with h
  · exact Finset.mem_erase
  · exact ⟨fun hq => ⟨fun he => h (he ▸ hq), hq⟩, And.right⟩

theorem mem_die_zombie {t : Procs} {p q : ℕ} :
    q ∈ (t.die p).zombie ↔ q ∈ t.zombie ∨ (q = p ∧ p ∈ t.running) := by
  unfold die
  split_ifs with h
  · rw [Finset.mem_insert, or_comm, and_iff_left h]
  · exact ⟨Or.inl, fun hq => hq.resolve_right fun hp => h hp.2⟩

theorem Owned.die {t : Procs} {q : ℕ} (h : t.Owned q) (p : ℕ) : (t.die p).Owned q := by
  rcases h with h | h
  · by_cases hq : q = p
    · exact Or.inr (mem_die_zombie.mpr (Or.inr ⟨hq, hq ▸ h⟩))
    · exact Or.inl (mem_die_running.mpr ⟨hq, h⟩)
  · exact Or.inr (mem_die_zombie.mpr (Or.inl h))

theorem Split.die {t : Procs} (h : t.Split) (p : ℕ) : (t.die p).Split := by
  intro q hq hz
  obtain ⟨hne, hrun⟩ := mem_die_running.mp hq
  rcases mem_die_zombie.mp hz with hz | hz
  · exact h q hrun hz
  · exact hne hz.1

end Procs

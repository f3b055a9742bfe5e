import Mathlib.Data.List.Basic
import Mathlib.Order.Basic

/-!
# Deterministic machines with outputs

A machine takes one operation at a time, may get stuck (`none`, undefined behaviour), and answers
each operation with an output.

* `exec`: run a list of operations and collect the outputs; `specExec`: the same for a total
  abstract machine.
* `Guarded`: a guard on the state and the next operation holds at every step of the run.
* **`exec_refines`**: a relation kept by guarded single steps is kept by guarded runs, and the
  outputs agree.
* **`exec_invariant`**, **`exec_guarded_invariant`**: an invariant kept by (guarded) single steps holds after every
  (guarded) run.
* `exists_of_not_guarded`: where along a run a guard fails.
* **`exec_of_guarded`**: guarded runs do not get stuck; **`exec_isSome_iff`**: no other run gets through, when the
  guard says which steps do.
* **`guarded_iff_of_guarded_invariant`**: guards that agree under an invariant agree along every run.
* `exec_of_stays`, **`stays_of_exec`**: runs that leave the state alone.
-/

namespace Machine

variable {S X O A : Type}

/-- Run a list of operations, collecting the outputs. -/
def exec (step : S → O → Option (S × A)) : S → List O → Option (S × List A)
  | s, [] => some (s, [])
  | s, o :: os =>
    (step s o).bind fun r => (exec step r.1 os).map fun q => (q.1, r.2 :: q.2)

/-- Run a total abstract machine. -/
def specExec (spec : X → O → X × A) : X → List O → X × List A
  | x, [] => (x, [])
  | x, o :: os => ((specExec spec (spec x o).1 os).1, (spec x o).2 :: (specExec spec (spec x o).1 os).2)

/-- The guard `G` holds at every step of the run from `s`. -/
def Guarded (step : S → O → Option (S × A)) (G : S → O → Prop) : S → List O → Prop
  | _, [] => True
  | s, o :: os => G s o ∧ ∀ r, step s o = some r → Guarded step G r.1 os

variable {step : S → O → Option (S × A)} {spec : X → O → X × A} {G : S → O → Prop}

theorem exec_cons (s : S) (o : O) (os : List O) : exec step s (o :: os) =
    (step s o).bind fun r => (exec step r.1 os).map fun q => (q.1, r.2 :: q.2) := rfl

theorem exec_cons_of_step {s : S} {o : O} {r : S × A} (h : step s o = some r) (os : List O) :
    exec step s (o :: os) = (exec step r.1 os).map fun q => (q.1, r.2 :: q.2) := by
  rw [exec_cons, h, Option.bind_some]

theorem guarded_cons {s : S} {o : O} {r : S × A} (hG : G s o) (h : step s o = some r) {os : List O}
    (hos : Guarded step G r.1 os) : Guarded step G s (o :: os) := by
  refine ⟨hG, fun r' h' => ?_⟩
  rw [h] at h'
  cases h'
  exact hos

theorem guarded_of_forall {H : O → Prop} {os : List O} (hos : ∀ o ∈ os, H o) (s : S) :
    Guarded step (fun _ o => H o) s os := by
  induction os generalizing s with
  | nil => trivial
  | cons o os ih => exact ⟨hos o List.mem_cons_self,
    fun r _ => ih (fun o' ho => hos o' (List.mem_cons_of_mem o ho)) r.1⟩

/-- Guards along a run can be tested. -/
instance decidableGuarded [∀ s o, Decidable (G s o)] : ∀ (s : S) (os : List O), Decidable (Guarded step G s os)
  | _, [] => .isTrue trivial
  | s, o :: os =>
    match h : step s o with
    | none => decidable_of_iff (G s o) ⟨fun hG => ⟨hG, fun r hr => by rw [h] at hr; cases hr⟩, And.left⟩
    | some r =>
      haveI : Decidable (Guarded step G r.1 os) := decidableGuarded r.1 os
      decidable_of_iff (G s o ∧ Guarded step G r.1 os)
        ⟨fun hG => guarded_cons hG.1 h hG.2, fun hG => ⟨hG.1, hG.2 r h⟩⟩

theorem guarded_nil (s : S) : Guarded step G s [] := trivial

theorem exec_cons_eq_some {s : S} {o : O} {os : List O} {q : S × List A} :
    exec step s (o :: os) = some q ↔
      ∃ r p, step s o = some r ∧ exec step r.1 os = some p ∧ q = (p.1, r.2 :: p.2) := by
  rw [exec_cons]
  constructor
  · intro h
    obtain ⟨r, hr, h⟩ := Option.bind_eq_some_iff.mp h
    obtain ⟨p, hp, h⟩ := Option.map_eq_some_iff.mp h
    exact ⟨r, p, hr, hp, h.symm⟩
  · rintro ⟨r, p, hr, hp, rfl⟩
    rw [hr, Option.bind_some, hp, Option.map_some]

theorem exec_append {s : S} {pre os : List O} {q : S × List A} (hpre : exec step s pre = some q) :
    exec step s (pre ++ os) = (exec step q.1 os).map fun p => (p.1, q.2 ++ p.2) := by
  induction pre generalizing s q with
  | nil =>
    cases hpre
    rw [List.nil_append]
    cases exec step s os <;> rfl
  | cons o pre ih =>
    obtain ⟨r, p, hr, hp, rfl⟩ := exec_cons_eq_some.mp hpre
    rw [List.cons_append, exec_cons_of_step hr, ih hp, Option.map_map]
    rfl

theorem exec_append_isSome {s : S} {pre os : List O} {q : S × List A} (hpre : exec step s pre = some q)
    (h : (exec step s (pre ++ os)).isSome = true) : (exec step q.1 os).isSome = true := by
  rw [exec_append hpre, Option.isSome_map] at h
  exact h

theorem guarded_append {s : S} {pre os : List O} {q : S × List A} (hpre : exec step s pre = some q)
    (h : Guarded step G s (pre ++ os)) : Guarded step G q.1 os := by
  induction pre generalizing s q with
  | nil =>
    cases hpre
    exact h
  | cons o pre ih =>
    obtain ⟨r, p, hr, hp, rfl⟩ := exec_cons_eq_some.mp hpre
    exact ih (q := p) hp (h.2 r hr)

theorem exists_of_not_guarded {s : S} {os : List O} (h : ¬ Guarded step G s os) :
    ∃ pre o post q, os = pre ++ o :: post ∧ exec step s pre = some q ∧ ¬ G q.1 o := by
  induction os generalizing s with
  | nil => exact absurd trivial h
  | cons o os ih =>
    by_cases hG : G s o
    · have hrest : ∃ r, step s o = some r ∧ ¬ Guarded step G r.1 os := by
        by_contra hc
        push Not at hc
        exact h ⟨hG, hc⟩
      obtain ⟨r, hr, hrest⟩ := hrest
      obtain ⟨pre, o', post, q, rfl, hq, hnot⟩ := ih hrest
      exact ⟨o :: pre, o', post, (q.1, r.2 :: q.2), rfl, by rw [exec_cons_of_step hr, hq]; rfl, hnot⟩
    · exact ⟨[], o, os, (s, []), rfl, rfl, hG⟩

/-- **Refinement of runs.** A relation kept by every guarded step is kept by every guarded run,
and the outputs are those of the abstract machine. -/
theorem exec_refines (R : S → X → Prop)
    (hstep : ∀ s x o, R s x → G s o → ∃ s', step s o = some (s', (spec x o).2) ∧ R s' (spec x o).1) :
    ∀ (os : List O) (s : S) (x : X), R s x → Guarded step G s os →
      ∃ s', exec step s os = some (s', (specExec spec x os).2) ∧ R s' (specExec spec x os).1
  | [], s, _, hR, _ => ⟨s, rfl, hR⟩
  | o :: os, s, x, hR, hG => by
    obtain ⟨s₁, h₁, hR₁⟩ := hstep s x o hR hG.1
    obtain ⟨s₂, h₂, hR₂⟩ := exec_refines R hstep os s₁ _ hR₁ (hG.2 _ h₁)
    exact ⟨s₂, by rw [exec_cons_of_step h₁, h₂]; rfl, hR₂⟩

/-- **Invariants of runs.** -/
theorem exec_invariant (P : S → Prop) (hstep : ∀ s o r, P s → step s o = some r → P r.1) :
    ∀ (os : List O) (s : S) (q : S × List A), P s → exec step s os = some q → P q.1
  | [], _, _, hs, h => by cases h; exact hs
  | o :: os, s, q, hs, h => by
    obtain ⟨r, p, hr, hp, rfl⟩ := exec_cons_eq_some.mp h
    exact exec_invariant P hstep os r.1 p (hstep s o r hs hr) hp

/-- **Invariants of guarded runs.** -/
theorem exec_guarded_invariant (P : S → Prop) (hstep : ∀ s o r, P s → G s o → step s o = some r → P r.1) :
    ∀ (os : List O) (s : S) (q : S × List A), P s → Guarded step G s os → exec step s os = some q → P q.1
  | [], _, _, hs, _, h => by cases h; exact hs
  | o :: os, s, q, hs, hG, h => by
    obtain ⟨r, p, hr, hp, rfl⟩ := exec_cons_eq_some.mp h
    exact exec_guarded_invariant P hstep os r.1 p (hstep s o r hs hG.1 hr) (hG.2 r hr) hp

/-- **Guarded runs do not get stuck**, when guarded steps do not under an invariant that they keep. -/
theorem exec_of_guarded (P : S → Prop) (hstep : ∀ s o, P s → G s o → ∃ r, step s o = some r ∧ P r.1) :
    ∀ (os : List O) (s : S), P s → Guarded step G s os → ∃ q, exec step s os = some q ∧ P q.1
  | [], s, hs, _ => ⟨(s, []), rfl, hs⟩
  | o :: os, s, hs, hG => by
    obtain ⟨r, hr, hP⟩ := hstep s o hs hG.1
    obtain ⟨q, hq, hP'⟩ := exec_of_guarded P hstep os r.1 hP (hG.2 r hr)
    exact ⟨(q.1, r.2 :: q.2), by rw [exec_cons_of_step hr, hq]; rfl, hP'⟩

/-- **The runs that get through** are the guarded ones, when the guard says which steps get through. -/
theorem exec_isSome_iff (P : S → Prop) (hinv : ∀ s o r, P s → step s o = some r → P r.1)
    (hG : ∀ s o, P s → ((step s o).isSome = true ↔ G s o)) :
    ∀ (os : List O) (s : S), P s → ((exec step s os).isSome = true ↔ Guarded step G s os)
  | [], _, _ => iff_of_true rfl trivial
  | o :: os, s, hs => by
    constructor
    · intro h
      obtain ⟨q, hq⟩ := Option.isSome_iff_exists.mp h
      obtain ⟨r, p, hr, hp, -⟩ := exec_cons_eq_some.mp hq
      have hrest := (exec_isSome_iff P hinv hG os r.1 (hinv s o r hs hr)).mp (by rw [hp]; rfl)
      exact guarded_cons ((hG s o hs).mp (by rw [hr]; rfl)) hr hrest
    · intro h
      obtain ⟨r, hr⟩ := Option.isSome_iff_exists.mp ((hG s o hs).mpr h.1)
      have hrest := (exec_isSome_iff P hinv hG os r.1 (hinv s o r hs hr)).mpr (h.2 r hr)
      rw [exec_cons_of_step hr, Option.isSome_map]
      exact hrest

/-- A guard that follows from another one under an invariant of the guarded steps follows along whole runs. -/
theorem guarded_of_guarded_invariant {H : S → O → Prop} (P : S → Prop)
    (hstep : ∀ s o r, P s → G s o → step s o = some r → P r.1) (hGH : ∀ s o, P s → G s o → H s o) :
    ∀ (os : List O) (s : S), P s → Guarded step G s os → Guarded step H s os
  | [], _, _, _ => trivial
  | o :: os, s, hs, hG => ⟨hGH s o hs hG.1, fun r hr =>
      guarded_of_guarded_invariant P hstep hGH os r.1 (hstep s o r hs hG.1 hr) (hG.2 r hr)⟩

theorem guarded_of_invariant {H : S → O → Prop} (P : S → Prop)
    (hstep : ∀ s o r, P s → step s o = some r → P r.1) (hGH : ∀ s o, P s → G s o → H s o)
    (os : List O) (s : S) (hs : P s) (hG : Guarded step G s os) : Guarded step H s os :=
  guarded_of_guarded_invariant P (fun s o r hs _ h => hstep s o r hs h) hGH os s hs hG

/-- **Guards along runs.** Two guards that agree wherever an invariant of the guarded steps holds agree on whole
runs. -/
theorem guarded_iff_of_guarded_invariant {H : S → O → Prop} (P : S → Prop) (Q : O → Prop)
    (hstep : ∀ s o r, P s → Q o → G s o → step s o = some r → P r.1) (hGH : ∀ s o, P s → Q o → (G s o ↔ H s o)) :
    ∀ (os : List O) (s : S), P s → (∀ o ∈ os, Q o) → (Guarded step G s os ↔ Guarded step H s os)
  | [], _, _, _ => Iff.rfl
  | o :: os, s, hs, hos => by
    have ho : Q o := hos o List.mem_cons_self
    have hrec : ∀ r, G s o → step s o = some r → (Guarded step G r.1 os ↔ Guarded step H r.1 os) := fun r hG hr =>
      guarded_iff_of_guarded_invariant P Q hstep hGH os r.1 (hstep s o r hs ho hG hr) fun o' ho' =>
        hos o' (List.mem_cons_of_mem o ho')
    constructor
    · exact fun h => ⟨(hGH s o hs ho).mp h.1, fun r hr => (hrec r h.1 hr).mp (h.2 r hr)⟩
    · intro h
      have hG := (hGH s o hs ho).mpr h.1
      exact ⟨hG, fun r hr => (hrec r hG hr).mpr (h.2 r hr)⟩

theorem guarded_iff_of_invariant {H : S → O → Prop} (P : S → Prop) (Q : O → Prop)
    (hstep : ∀ s o r, P s → Q o → step s o = some r → P r.1) (hGH : ∀ s o, P s → Q o → (G s o ↔ H s o))
    (os : List O) (s : S) (hs : P s) (hos : ∀ o ∈ os, Q o) : Guarded step G s os ↔ Guarded step H s os :=
  guarded_iff_of_guarded_invariant P Q (fun s o r hs ho _ h => hstep s o r hs ho h) hGH os s hs hos

/-! ## Runs that do not move -/

theorem exec_of_stays {f : O → A} {s : S} :
    ∀ {os : List O}, (∀ o ∈ os, step s o = some (s, f o)) → exec step s os = some (s, os.map f)
  | [], _ => rfl
  | o :: os, h => by
    rw [exec_cons_of_step (h o List.mem_cons_self), exec_of_stays fun o' ho => h o' (List.mem_cons_of_mem o ho)]
    rfl

/-- **Runs that come back.** Where a measure falls with every move, a run that ends where it began has not moved. -/
theorem stays_of_exec {W : Type} [PartialOrder W] (μ : S → W) (hle : ∀ s o r, step s o = some r → μ r.1 ≤ μ s)
    (hmove : ∀ s o r, step s o = some r → μ r.1 = μ s → r.1 = s) {s : S} :
    ∀ {os : List O} {as : List A}, exec step s os = some (s, as) → ∀ o ∈ os, ∃ a, step s o = some (s, a)
  | [], _, _ => fun o ho => absurd ho List.not_mem_nil
  | o :: os, as, h => by
    obtain ⟨r, p, hr, hp, hq⟩ := exec_cons_eq_some.mp h
    have hback : p.1 = s := (congrArg Prod.fst hq).symm
    have hrest : μ p.1 ≤ μ r.1 :=
      exec_invariant (fun s' => μ s' ≤ μ r.1) (fun s' o' r' hs' hr' => (hle s' o' r' hr').trans hs') os r.1 p le_rfl hp
    rw [hback] at hrest
    have hstay : r.1 = s := hmove s o r hr (le_antisymm (hle s o r hr) hrest)
    intro o' ho'
    rcases List.mem_cons.mp ho' with rfl | ho'
    · exact ⟨r.2, by rw [hr, ← hstay]⟩
    · rw [hstay] at hp
      have hend : exec step s os = some (s, p.2) := by rw [hp, ← hback]
      exact stays_of_exec μ hle hmove hend o' ho'

end Machine

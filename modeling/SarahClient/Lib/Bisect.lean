import Mathlib.Data.Int.Basic
import Mathlib.Order.Monotone.Basic
import Mathlib.Algebra.Order.Ring.Int

/-!
# Halving an interval of indices

`bisect probe d l h s` probes the middle of `l, ..., h`, goes to the half that the probe names, and ends at the first
probe that stops, or with `d` when no index is left. A probe may change the state `s`, and may fail (`none`).

* **`bisect_rule`**: an invariant on the interval carries a run to its result, whatever that is.
* `bisect_map`: a search whose probes answer as another's answers as that one.
* `spine n`: the indices probed from `0, ..., n` while the search goes right.
* **`bisect_spine`**: a search whose probes fail from some index on answers exactly when an index of the spine before
  that one does not send it to the right.
-/

namespace Bisect

variable {S T A B : Type}

/-- The answer of a probe. -/
inductive Move (A : Type) where
  | left
  | right
  | stop (a : A)
deriving DecidableEq

/-- The answer of a probe, mapped. -/
def Move.map (f : A → B) : Move A → Move B
  | .left => .left
  | .right => .right
  | .stop a => .stop (f a)

/-- At most `fuel` rounds of the search. -/
def bisectFrom (probe : ℤ → S → Option (Move A × S)) (d : A) : ℕ → ℤ → ℤ → S → Option (A × S)
  | 0, _, _, s => some (d, s)
  | fuel + 1, l, h, s =>
    if l ≤ h then
      match probe ((l + h) / 2) s with
      | none => none
      | some (.left, s') => bisectFrom probe d fuel l ((l + h) / 2 - 1) s'
      | some (.right, s') => bisectFrom probe d fuel ((l + h) / 2 + 1) h s'
      | some (.stop a, s') => some (a, s')
    else some (d, s)

/-- The search over `l, ..., h`. Every round drops an index. -/
def bisect (probe : ℤ → S → Option (Move A × S)) (d : A) (l h : ℤ) (s : S) : Option (A × S) :=
  bisectFrom probe d (h + 1 - l).toNat l h s

/-- What a round leaves to show: the invariant for the half it goes to, or the result. -/
def After (I : ℤ → ℤ → S → Prop) (Q : Option (A × S) → Prop) (l h m : ℤ) : Option (Move A × S) → Prop
  | none => Q none
  | some (.left, s) => I l (m - 1) s
  | some (.right, s) => I (m + 1) h s
  | some (.stop a, s) => Q (some (a, s))

variable {probe : ℤ → S → Option (Move A × S)} {d : A}

/-- **The rule of the search.** -/
theorem bisect_rule {I : ℤ → ℤ → S → Prop} {Q : Option (A × S) → Prop}
    (hround : ∀ l h s, l ≤ h → I l h s → After I Q l h ((l + h) / 2) (probe ((l + h) / 2) s))
    (hend : ∀ l h s, h < l → I l h s → Q (some (d, s))) {l h : ℤ} {s : S} (hI : I l h s) :
    Q (bisect probe d l h s) := by
  suffices hfrom : ∀ (fuel : ℕ) (l h : ℤ) (s : S), h + 1 - l ≤ fuel → I l h s → Q (bisectFrom probe d fuel l h s) from
    hfrom _ l h s (Int.self_le_toNat _) hI
  intro fuel
  induction fuel with
  | zero =>
    intro l h s hfuel hI
    exact hend l h s (by omega) hI
  | succ fuel ih =>
    intro l h s hfuel hI
    rw [bisectFrom]
    by_cases hlh : l ≤ h
    · have hafter := hround l h s hlh hI
      rw [if_pos hlh]
      match hp : probe ((l + h) / 2) s, hafter with
      | none, hafter => exact hafter
      | some (.left, s'), hafter => exact ih _ _ _ (by omega) hafter
      | some (.right, s'), hafter => exact ih _ _ _ (by omega) hafter
      | some (.stop a, s'), hafter => exact hafter
    · rw [if_neg hlh]
      exact hend l h s (by omega) hI

/-- A search that answers, and another one whose probes in its range give the same answers. -/
theorem bisect_map {probe' : ℤ → T → Option (Move B × T)} {f : A → B} {l h : ℤ}
    (hprobe : ∀ m, l ≤ m → m ≤ h → ∀ s r s', probe m s = some (r, s') → ∀ t, ∃ t', probe' m t = some (r.map f, t'))
    {s : S} {a : A} {s' : S} (hrun : bisect probe d l h s = some (a, s')) (t : T) :
    ∃ t', bisect probe' (f d) l h t = some (f a, t') := by
  unfold bisect at hrun ⊢
  generalize (h + 1 - l).toNat = fuel at hrun ⊢
  induction fuel generalizing l h s t with
  | zero =>
    cases hrun
    exact ⟨t, rfl⟩
  | succ fuel ih =>
    rw [bisectFrom] at hrun ⊢
    by_cases hlh : l ≤ h
    · rw [if_pos hlh] at hrun ⊢
      match hp : probe ((l + h) / 2) s with
      | none =>
        rw [hp] at hrun
        cases hrun
      | some (r, s₁) =>
        obtain ⟨t₁, hp'⟩ := hprobe _ (by omega) (by omega) _ _ _ hp t
        rw [hp] at hrun
        rw [hp']
        cases r with
        | left => exact ih (fun m hl hm => hprobe m hl (by omega)) t₁ hrun
        | right => exact ih (fun m hl hm => hprobe m (by omega) hm) t₁ hrun
        | stop b =>
          cases hrun
          exact ⟨t₁, rfl⟩
    · rw [if_neg hlh] at hrun ⊢
      cases hrun
      exact ⟨t, rfl⟩

/-! ## The right spine -/

/-- The indices probed from `0, ..., n` on while every probe goes right. -/
def spine (n : ℤ) : ℕ → ℤ
  | 0 => n / 2
  | i + 1 => (spine n i + 1 + n) / 2

variable {n : ℤ}

theorem spine_mem (hn : 0 ≤ n) (i : ℕ) : 0 ≤ spine n i ∧ spine n i ≤ n := by
  induction i with
  | zero => rw [spine]; omega
  | succ i ih => rw [spine]; omega

theorem spine_mono (hn : 0 ≤ n) {i j : ℕ} (h : i ≤ j) : spine n i ≤ spine n j := by
  refine monotone_nat_of_le_succ (fun k => ?_) h
  have hk := spine_mem hn k
  rw [spine]
  omega

theorem exists_spine (hn : 0 < n) : ∃ i, spine n i = n - 1 := by
  suffices hfrom : ∀ (k i : ℕ), spine n i < n → n - 1 - spine n i ≤ k → ∃ i, spine n i = n - 1 from
    hfrom n.toNat 0 (by rw [spine]; omega) (by rw [spine]; omega)
  intro k
  induction k with
  | zero =>
    intro i hi hk
    exact ⟨i, by omega⟩
  | succ k ih =>
    intro i hi hk
    by_cases hlast : spine n i = n - 1
    · exact ⟨i, hlast⟩
    · exact ih (i + 1) (by rw [spine]; omega) (by rw [spine]; omega)

section Failing

variable {ok goesRight : ℤ → Prop}

/-- After a turn at an index of the spine every index left can be probed. -/
theorem bisect_of_turn (hn : 0 ≤ n) (hdown : ∀ a b, a ≤ b → ok b → ok a) (hlast : ¬ ok n)
    (hright : ∀ m s, 0 ≤ m → ok m → goesRight m → ∃ s', probe m s = some (.right, s'))
    (hturn : ∀ m s, 0 ≤ m → ok m → ¬ goesRight m → ∃ r s', probe m s = some (r, s') ∧ r ≠ .right) {i : ℕ}
    (hok : ok (spine n i)) (hi : ¬ goesRight (spine n i)) (s : S) :
    ∃ r, bisect probe d 0 n s = some r ∧ (r.1 = d ∨ ∃ m s, 0 ≤ m ∧ ok m ∧ probe m s = some (.stop r.1, r.2)) := by
  refine bisect_rule (I := fun l h _ => 0 ≤ l ∧
      ((h = n ∧ l ≤ n ∧ ∃ j ≤ i, (l + n) / 2 = spine n j) ∨ h < spine n i))
    (Q := fun x => ∃ r, x = some r ∧ (r.1 = d ∨ ∃ m s, 0 ≤ m ∧ ok m ∧ probe m s = some (.stop r.1, r.2))) ?_ ?_
    ⟨le_rfl, .inl ⟨rfl, hn, 0, Nat.zero_le i, by rw [spine, zero_add]⟩⟩
  · rintro l h s hlh ⟨hl, hcase⟩
    have hm : 0 ≤ (l + h) / 2 := by omega
    have hokm : ok ((l + h) / 2) := by
      obtain ⟨rfl, -, j, hj, hmid⟩ | hbelow := hcase
      · rw [hmid]
        exact hdown _ _ (spine_mono hn hj) hok
      · exact hdown _ _ (by omega) hok
    by_cases hgo : goesRight ((l + h) / 2)
    · obtain ⟨s', hp⟩ := hright _ s hm hokm hgo
      rw [hp]
      refine ⟨by omega, ?_⟩
      obtain ⟨rfl, hln, j, hj, hmid⟩ | hbelow := hcase
      · have hne : j ≠ i := by
          rintro rfl
          rw [hmid] at hgo
          exact hi hgo
        have hnext : (l + h) / 2 ≠ h := by
          intro he
          rw [he] at hokm
          exact hlast hokm
        exact .inl ⟨rfl, by omega, j + 1, by omega, by rw [spine, hmid]⟩
      · exact .inr hbelow
    · obtain ⟨r, s', hp, hr⟩ := hturn _ s hm hokm hgo
      have hleft : (l + h) / 2 - 1 < spine n i := by
        obtain ⟨rfl, -, j, hj, hmid⟩ | hbelow := hcase
        · have := spine_mono hn hj
          omega
        · omega
      rw [hp]
      cases r with
      | left => exact ⟨hl, .inr hleft⟩
      | right => exact absurd rfl hr
      | stop a => exact ⟨_, rfl, .inr ⟨_, s, hm, hokm, hp⟩⟩
  · intro l h s _ _
    exact ⟨_, rfl, .inl rfl⟩

/-- **A search whose probes fail from some index on.** It answers exactly when an index of the spine that can be probed
does not send it to the right. -/
theorem bisect_spine (hn : 0 < n) (hdown : ∀ a b, a ≤ b → ok b → ok a) (hlast : ¬ ok n)
    (hfault : ∀ m s, 0 ≤ m → m ≤ n → ¬ ok m → (m = n → ok (n - 1)) → probe m s = none)
    (hright : ∀ m s, 0 ≤ m → ok m → goesRight m → ∃ s', probe m s = some (.right, s'))
    (hturn : ∀ m s, 0 ≤ m → ok m → ¬ goesRight m → ∃ r s', probe m s = some (r, s') ∧ r ≠ .right) (s : S) :
    (∃ r, bisect probe d 0 n s = some r) ↔ ∃ i, ok (spine n i) ∧ ¬ goesRight (spine n i) := by
  constructor
  · -- every probe is one of the spine until one fails
    intro hsome
    by_contra hnone
    have hgo : ∀ i, ok (spine n i) → goesRight (spine n i) := by
      intro i hi
      by_contra hturns
      exact hnone ⟨i, hi, hturns⟩
    have hrun : bisect probe d 0 n s = none := by
      refine bisect_rule (I := fun l h _ => h = n ∧ l ≤ n ∧ (l = 0 ∨ ok (l - 1)) ∧ ∃ i, (l + n) / 2 = spine n i)
        (Q := fun r => r = none) ?_ ?_ ⟨rfl, hn.le, .inl rfl, 0, by rw [spine, zero_add]⟩
      · rintro l h s hlh ⟨rfl, hl, hpast, i, hi⟩
        have hmem := spine_mem hn.le i
        rw [hi]
        by_cases hok : ok (spine h i)
        · obtain ⟨s', hp⟩ := hright _ s hmem.1 hok (hgo i hok)
          have hne : spine h i ≠ h := by
            intro he
            rw [he] at hok
            exact hlast hok
          rw [hp]
          refine ⟨rfl, by omega, .inr ?_, i + 1, rfl⟩
          rwa [add_sub_cancel_right]
        · rw [hfault _ s hmem.1 hmem.2 hok ?_]
          · rfl
          · intro he
            have hlh' : l = h := by omega
            subst hlh'
            exact hpast.resolve_left (by omega)
      · rintro l h s hlh ⟨rfl, hl, -⟩
        omega
    rw [hrun] at hsome
    obtain ⟨r, hr⟩ := hsome
    cases hr
  · rintro ⟨i, hok, hi⟩
    obtain ⟨r, hr, -⟩ := bisect_of_turn hn.le hdown hlast hright hturn hok hi s
    exact ⟨r, hr⟩

end Failing

end Bisect

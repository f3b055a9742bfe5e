import Mathlib.Data.Finmap
import Mathlib.Order.Lattice.Nat

/-!
# A heap of cells with an arbitrary allocator

Addresses are natural numbers and `0` is the null pointer. A heap is a finite map, so an access to
a cell that was never allocated or has been freed is `none`.

* `Malloc`: an allocator is any choice of an unused address; it may fail and may reuse addresses;
* `read`, `alloc`, `free`, `modify`, with what each leaves at every address;
* `Malloc.bump`, `Malloc.never`: one allocator that never fails, and one that always does; `Malloc.orBump`: an allocator
  that is helped out where it fails.
-/

/-- A finite heap of cells of type `C`. -/
abbrev Heap (C : Type) := Finmap (fun _ : ℕ => C)

namespace Heap

variable {C : Type}

/-- The cell at an address; the null pointer has none. -/
def read (h : Heap C) (a : ℕ) : Option C := if a = 0 then none else h.lookup a

/-- An allocator: in each heap it hands out an unused address other than null, or fails. -/
structure Malloc (C : Type) where
  pick : Heap C → Option ℕ
  fresh : ∀ h a, pick h = some a → a ≠ 0 ∧ a ∉ h

/-- Allocations succeed. -/
def Malloc.Total (m : Malloc C) : Prop := ∀ h, ∃ a, m.pick h = some a

/-- Hand out the address above all others. -/
def Malloc.bump : Malloc C where
  pick h := some (h.keys.sup id + 1)
  fresh h a ha := by
    cases ha
    refine ⟨Nat.succ_ne_zero _, fun hm => ?_⟩
    have : h.keys.sup id + 1 ≤ h.keys.sup id := Finset.le_sup (f := id) (Finmap.mem_keys.mpr hm)
    omega

theorem Malloc.bump_total : (Malloc.bump : Malloc C).Total := fun _ => ⟨_, rfl⟩

/-- Out of memory. -/
def Malloc.never : Malloc C where
  pick _ := none
  fresh _ _ h := by cases h

/-- The allocator, with an address from `bump` where it has none. -/
def Malloc.orBump (m : Malloc C) : Malloc C where
  pick h := (m.pick h).or (bump.pick h)
  fresh h a ha := by
    rcases Option.or_eq_some_iff.mp ha with ha | ⟨-, ha⟩
    · exact m.fresh h a ha
    · exact bump.fresh h a ha

theorem Malloc.orBump_total (m : Malloc C) : m.orBump.Total := fun h => by
  show ∃ a, (m.pick h).or (bump.pick h) = some a
  cases m.pick h
  · exact ⟨_, rfl⟩
  · exact ⟨_, rfl⟩

theorem Malloc.orBump_pick {m : Malloc C} {h : Heap C} (hm : (m.pick h).isSome = true) :
    m.orBump.pick h = m.pick h := by
  obtain ⟨a, ha⟩ := Option.isSome_iff_exists.mp hm
  show (m.pick h).or (bump.pick h) = m.pick h
  rw [ha]
  rfl

/-- Allocate a cell. -/
def alloc (m : Malloc C) (h : Heap C) (c : C) : Option (ℕ × Heap C) :=
  (m.pick h).map fun a => (a, h.insert a c)

/-- Free a cell. -/
def free (h : Heap C) (a : ℕ) : Option (Heap C) :=
  if (h.read a).isSome then some (h.erase a) else none

/-- Update a cell. -/
def modify (h : Heap C) (a : ℕ) (f : C → C) : Option (Heap C) :=
  (h.read a).map fun c => h.insert a (f c)

@[simp] theorem read_zero (h : Heap C) : h.read 0 = none := if_pos rfl

theorem read_of_ne {h : Heap C} {a : ℕ} (ha : a ≠ 0) : h.read a = h.lookup a := if_neg ha

theorem ne_zero_of_read {h : Heap C} {a : ℕ} {c : C} (hr : h.read a = some c) : a ≠ 0 := by
  rintro rfl
  rw [read_zero] at hr
  cases hr

theorem mem_of_read {h : Heap C} {a : ℕ} {c : C} (hr : h.read a = some c) : a ∈ h := by
  rw [read_of_ne (ne_zero_of_read hr)] at hr
  exact Finmap.mem_of_lookup_eq_some hr

theorem read_insert (h : Heap C) {a : ℕ} (ha : a ≠ 0) (c : C) (b : ℕ) :
    read (h.insert a c) b = if b = a then some c else h.read b := by
  by_cases hb : b = 0
  · subst hb
    rw [read_zero, read_zero, if_neg (Ne.symm ha)]
  rw [read_of_ne hb, read_of_ne hb]
  split_ifs with hba
  · subst hba
    exact Finmap.lookup_insert _
  · exact Finmap.lookup_insert_of_ne _ hba

theorem read_erase (h : Heap C) (a b : ℕ) : read (h.erase a) b = if b = a then none else h.read b := by
  by_cases hb : b = 0
  · subst hb
    rw [read_zero, read_zero, ite_self]
  rw [read_of_ne hb, read_of_ne hb]
  split_ifs with hba
  · subst hba
    exact Finmap.lookup_erase _ _
  · exact Finmap.lookup_erase_ne hba

theorem alloc_spec {m : Malloc C} (hm : m.Total) (h : Heap C) (c : C) :
    ∃ a h', alloc m h c = some (a, h') ∧ a ≠ 0 ∧ h.read a = none ∧
      ∀ b, h'.read b = if b = a then some c else h.read b := by
  obtain ⟨a, ha⟩ := hm h
  obtain ⟨h₀, hmem⟩ := m.fresh h a ha
  refine ⟨a, h.insert a c, ?_, h₀, ?_, read_insert h h₀ c⟩
  · rw [alloc, ha, Option.map_some]
  · rw [read_of_ne h₀]
    exact Finmap.lookup_eq_none.mpr hmem

theorem modify_spec {h : Heap C} {a : ℕ} {c : C} (hr : h.read a = some c) (f : C → C) :
    ∃ h', modify h a f = some h' ∧ ∀ b, h'.read b = if b = a then some (f c) else h.read b := by
  refine ⟨h.insert a (f c), ?_, read_insert h (ne_zero_of_read hr) (f c)⟩
  rw [modify, hr, Option.map_some]

theorem free_spec {h : Heap C} {a : ℕ} {c : C} (hr : h.read a = some c) :
    ∃ h', free h a = some h' ∧ ∀ b, h'.read b = if b = a then none else h.read b := by
  refine ⟨h.erase a, ?_, read_erase h a⟩
  rw [free, hr]
  exact if_pos rfl

theorem length_le_card {h : Heap C} {as : List ℕ} (hnd : as.Nodup) (hmem : ∀ a ∈ as, ∃ c, h.read a = some c) :
    as.length ≤ h.keys.card := by
  rw [← List.toFinset_card_of_nodup hnd]
  refine Finset.card_le_card fun a ha => ?_
  obtain ⟨c, hc⟩ := hmem a (List.mem_toFinset.mp ha)
  exact Finmap.mem_keys.mpr (mem_of_read hc)

end Heap

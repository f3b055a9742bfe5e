import SarahClient.Lib.Heap

/-!
# Trees of linked cells

A cell holds a payload, the address of its first child and that of its next sibling; the address `0` ends a list.

* `Forest`: what such cells represent; `Owns`: the forest from an address, with its cells in the order of a walk;
* `lastSibling`, `readForest`, `freeForest`: the walks; fuel that runs out stands for an endless walk;
* **`Owns.exists_last`**: linking a tree behind the last sibling;
* **`Owns.readForest`**, **`Owns.freeForest`**: a walk over an owned forest ends and meets each cell once.
-/

/-- A cell of a linked tree. -/
structure TCell (P : Type) where
  payload : P
  child : ℕ
  next : ℕ

/-- A forest: the payload and the children of the first tree, and the trees beside it. -/
inductive Forest (P : Type)
  | nil
  | cons (p : P) (kids rest : Forest P)
  deriving DecidableEq

namespace Forest

open Heap

variable {P : Type}

/-- The number of cells. -/
def size : Forest P → ℕ
  | nil => 0
  | cons _ kids rest => kids.size + rest.size + 1

/-- Put trees behind the others. -/
def append : Forest P → Forest P → Forest P
  | nil, g => g
  | cons p kids rest, g => cons p kids (rest.append g)

/-- The trees of a forest, each with the forest below it. -/
def trees : Forest P → List (P × Forest P)
  | nil => []
  | cons p kids rest => (p, kids) :: rest.trees

/-- The number of levels. -/
def depth : Forest P → ℕ
  | nil => 0
  | cons _ kids rest => max (kids.depth + 1) rest.depth

/-- The forest that the cells from `a` represent, and these cells. -/
def Owns (h : Heap (TCell P)) : ℕ → Forest P → List ℕ → Prop
  | a, nil, cells => a = 0 ∧ cells = []
  | a, cons p kids rest, cells => ∃ child next ck cr, h.read a = some ⟨p, child, next⟩ ∧
      Owns h child kids ck ∧ Owns h next rest cr ∧ cells = a :: (ck ++ cr)

/-- Follow `next` to the last sibling. -/
def lastSibling (h : Heap (TCell P)) : ℕ → ℕ → Option ℕ
  | 0, _ => none
  | fuel + 1, a => (h.read a).bind fun c => if c.next = 0 then some a else lastSibling h fuel c.next

/-- Read the forest from `a`. -/
def readForest (h : Heap (TCell P)) : ℕ → ℕ → Option (Forest P)
  | 0, _ => none
  | fuel + 1, a =>
    if a = 0 then some nil
    else (h.read a).bind fun c => (readForest h fuel c.child).bind fun kids =>
      (readForest h fuel c.next).map fun rest => cons c.payload kids rest

/-- Free the forest from `a`: of each cell first its children, then the cell, then its siblings. -/
def freeForest : ℕ → Heap (TCell P) → ℕ → Option (Heap (TCell P))
  | 0, _, _ => none
  | fuel + 1, h, a =>
    if a = 0 then some h
    else (h.read a).bind fun c => (freeForest fuel h c.child).bind fun h => (h.free a).bind fun h =>
      freeForest fuel h c.next

variable {h h' : Heap (TCell P)} {a : ℕ} {f : Forest P} {cells : List ℕ}

theorem append_nil (f : Forest P) : f.append nil = f := by
  induction f with
  | nil => rfl
  | cons p kids rest _ ih => rw [append, ih]

theorem append_assoc (f g k : Forest P) : (f.append g).append k = f.append (g.append k) := by
  induction f with
  | nil => rfl
  | cons p kids rest _ ih => rw [append, append, append, ih]

theorem owns_nil (h : Heap (TCell P)) : Owns h 0 nil [] := ⟨rfl, rfl⟩

theorem owns_tree {p : P} {child : ℕ} {kids : Forest P} {ck : List ℕ} (hread : h.read a = some ⟨p, child, 0⟩)
    (hkids : Owns h child kids ck) : Owns h a (cons p kids nil) (a :: ck) :=
  ⟨child, 0, ck, [], hread, hkids, owns_nil h, by rw [List.append_nil]⟩

theorem Owns.length (hown : Owns h a f cells) : cells.length = f.size := by
  induction f generalizing a cells with
  | nil =>
    rw [hown.2]
    rfl
  | cons p kids rest ihk ihr =>
    obtain ⟨child, next, ck, cr, -, hk, hr, rfl⟩ := hown
    rw [List.length_cons, List.length_append, ihk hk, ihr hr, size]

theorem Owns.live (hown : Owns h a f cells) : ∀ b ∈ cells, ∃ c, h.read b = some c := by
  induction f generalizing a cells with
  | nil =>
    rw [hown.2]
    exact fun b hb => absurd hb List.not_mem_nil
  | cons p kids rest ihk ihr =>
    obtain ⟨child, next, ck, cr, hread, hk, hr, rfl⟩ := hown
    intro b hb
    rw [List.mem_cons, List.mem_append] at hb
    obtain rfl | hb | hb := hb
    · exact ⟨_, hread⟩
    · exact ihk hk b hb
    · exact ihr hr b hb

theorem Owns.congr (hown : Owns h a f cells) (heq : ∀ b ∈ cells, h'.read b = h.read b) : Owns h' a f cells := by
  induction f generalizing a cells with
  | nil => exact hown
  | cons p kids rest ihk ihr =>
    obtain ⟨child, next, ck, cr, hread, hk, hr, rfl⟩ := hown
    refine ⟨child, next, ck, cr, ?_, ihk hk fun b hb => ?_, ihr hr fun b hb => ?_, rfl⟩
    · rw [heq a List.mem_cons_self]
      exact hread
    · exact heq b (List.mem_cons_of_mem a (List.mem_append_left cr hb))
    · exact heq b (List.mem_cons_of_mem a (List.mem_append_right ck hb))

theorem Owns.size_le (hown : Owns h a f cells) (hnd : cells.Nodup) : f.size ≤ h.keys.card := by
  rw [← hown.length]
  exact length_le_card hnd hown.live

/-- **Linking.** The walk along `next` finds the last sibling; a tree linked there stands behind the others. -/
theorem Owns.exists_last (hown : Owns h a f cells) (ha : a ≠ 0) {fuel : ℕ} (hfuel : f.size ≤ fuel) :
    ∃ l c, lastSibling h fuel a = some l ∧ l ∈ cells ∧ h.read l = some c ∧
      ∀ (h' : Heap (TCell P)) (v : ℕ) (g : Forest P) (cv : List ℕ), cells.Nodup →
        h'.read l = some { c with next := v } → (∀ b ∈ cells, b ≠ l → h'.read b = h.read b) → Owns h' v g cv →
        Owns h' a (f.append g) (cells ++ cv) := by
  induction f generalizing a cells fuel with
  | nil => exact absurd hown.1 ha
  | cons p kids rest ihk ihr =>
    obtain ⟨child, next, ck, cr, hread, hk, hr, rfl⟩ := hown
    rw [size] at hfuel
    obtain ⟨n, rfl⟩ : ∃ n, fuel = n + 1 := ⟨fuel - 1, by omega⟩
    by_cases hnext : next = 0
    · -- `a` is the last sibling
      subst hnext
      have hrest : rest = nil := by
        cases rest with
        | nil => rfl
        | cons q sub rest =>
          obtain ⟨_, _, _, _, hzero, -⟩ := hr
          rw [read_zero] at hzero
          cases hzero
      subst hrest
      rw [hr.2, List.append_nil]
      refine ⟨a, ⟨p, child, 0⟩, ?_, List.mem_cons_self, hread, fun h' v g cv hnd hl hother hg => ?_⟩
      · rw [lastSibling, hread, Option.bind_some, if_pos rfl]
      · have hck : Owns h' child kids ck := hk.congr fun b hb => by
          refine hother b (List.mem_cons_of_mem a hb) ?_
          rintro rfl
          exact (List.nodup_cons.mp hnd).1 hb
        exact ⟨child, v, ck, cv, hl, hck, hg, rfl⟩
    · have hn : rest.size ≤ n := by omega
      obtain ⟨l, c, hlast, hmem, hc, hlink⟩ := ihr hr hnext hn
      refine ⟨l, c, ?_, List.mem_cons_of_mem a (List.mem_append_right ck hmem), hc,
        fun h' v g cv hnd hl hother hg => ?_⟩
      · rw [lastSibling, hread, Option.bind_some, if_neg hnext, hlast]
      · have hnd' := List.nodup_cons.mp hnd
        have happ := List.nodup_append.mp hnd'.2
        have hla : a ≠ l := by
          rintro rfl
          exact hnd'.1 (List.mem_append_right ck hmem)
        have hread' : h'.read a = some ⟨p, child, next⟩ := by rw [hother a List.mem_cons_self hla, hread]
        have hck : Owns h' child kids ck := hk.congr fun b hb =>
          hother b (List.mem_cons_of_mem a (List.mem_append_left cr hb)) fun e => happ.2.2 b hb l hmem e
        have hcr : Owns h' next (rest.append g) (cr ++ cv) := hlink h' v g cv happ.2.1 hl
          (fun b hb hne => hother b (List.mem_cons_of_mem a (List.mem_append_right ck hb)) hne) hg
        refine ⟨child, next, ck, cr ++ cv, hread', hck, hcr, ?_⟩
        rw [List.cons_append, List.append_assoc]

/-- **Reading** ends, and gives the forest. -/
theorem Owns.readForest (hown : Owns h a f cells) {fuel : ℕ} (hfuel : f.size < fuel) :
    readForest h fuel a = some f := by
  induction f generalizing a cells fuel with
  | nil =>
    obtain ⟨n, rfl⟩ : ∃ n, fuel = n + 1 := ⟨fuel - 1, by omega⟩
    rw [Forest.readForest, if_pos hown.1]
  | cons p kids rest ihk ihr =>
    obtain ⟨child, next, ck, cr, hread, hk, hr, rfl⟩ := hown
    rw [size] at hfuel
    obtain ⟨n, rfl⟩ : ∃ n, fuel = n + 1 := ⟨fuel - 1, by omega⟩
    rw [Forest.readForest, if_neg (ne_zero_of_read hread), hread, Option.bind_some, ihk hk (by omega), Option.bind_some,
      ihr hr (by omega), Option.map_some]

/-- **Freeing** ends, frees each cell once and no other. -/
theorem Owns.freeForest (hown : Owns h a f cells) (hnd : cells.Nodup) {fuel : ℕ} (hfuel : f.size < fuel) :
    ∃ h', freeForest fuel h a = some h' ∧ ∀ b, h'.read b = if b ∈ cells then none else h.read b := by
  induction f generalizing h a cells fuel with
  | nil =>
    obtain ⟨n, rfl⟩ : ∃ n, fuel = n + 1 := ⟨fuel - 1, by omega⟩
    refine ⟨h, by rw [Forest.freeForest, if_pos hown.1], fun b => ?_⟩
    rw [hown.2, if_neg List.not_mem_nil]
  | cons p kids rest ihk ihr =>
    obtain ⟨child, next, ck, cr, hread, hk, hr, rfl⟩ := hown
    rw [size] at hfuel
    obtain ⟨n, rfl⟩ : ∃ n, fuel = n + 1 := ⟨fuel - 1, by omega⟩
    obtain ⟨ha, happ⟩ := List.nodup_cons.mp hnd
    obtain ⟨hndk, hndr, hdisj⟩ := List.nodup_append.mp happ
    rw [List.mem_append, not_or] at ha
    have hnk : kids.size < n := by omega
    have hnr : rest.size < n := by omega
    obtain ⟨h₁, hfree₁, hread₁⟩ := ihk hk hndk hnk
    have ha₁ : h₁.read a = some ⟨p, child, next⟩ := by rw [hread₁, if_neg ha.1, hread]
    obtain ⟨h₂, hfree₂, hread₂⟩ := free_spec ha₁
    have hr₂ : Owns h₂ next rest cr := hr.congr fun b hb => by
      have hne : b ≠ a := by
        rintro rfl
        exact ha.2 hb
      have hbk : b ∉ ck := fun hbk => hdisj b hbk b hb rfl
      rw [hread₂, if_neg hne, hread₁, if_neg hbk]
    obtain ⟨h₃, hfree₃, hread₃⟩ := ihr hr₂ hndr hnr
    refine ⟨h₃, ?_, fun b => ?_⟩
    · rw [Forest.freeForest, if_neg (ne_zero_of_read hread), hread, Option.bind_some, hfree₁, Option.bind_some, hfree₂,
        Option.bind_some, hfree₃]
    · rw [hread₃, hread₂, hread₁]
      simp only [List.mem_cons, List.mem_append]
      by_cases hba : b = a
      · simp [hba]
      · by_cases hbk : b ∈ ck
        · simp [hbk]
        · by_cases hbr : b ∈ cr
          · simp [hbr]
          · simp [hba, hbk, hbr]

end Forest

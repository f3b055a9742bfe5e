import SarahClient.Lib.Heap

/-!
# Singly linked chains

`next c` is the link of a cell and `data c` what it carries apart from the link.

* `Chain next data h p ns`: from the pointer `p` the heap links exactly the nodes `ns`, given by
  address and data, up to null;
* `Chain.frame`, `Chain.push`, **`Chain.unlink`**, **`Chain.update`**: a chain after the usual writes;
* `searchPrev`: walk to the first cell that satisfies a test, remembering the cell before it;
* `searchPrev_none`, `searchPrev_some`: the walk finds the first match or null.
-/

namespace Heap

variable {C D : Type} (next : C → ℕ) (data : C → D)

/-- The nodes linked from a pointer. -/
def Chain (h : Heap C) : ℕ → List (ℕ × D) → Prop
  | p, [] => p = 0
  | p, x :: ns => p = x.1 ∧ ∃ c, h.read p = some c ∧ data c = x.2 ∧ Chain h (next c) ns

/-- Walk from the cell `e`, with `prev` before it, to the first cell that satisfies the test. -/
def searchPrev (h : Heap C) (test : C → Bool) : ℕ → ℕ → ℕ → Option (ℕ × ℕ)
  | 0, _, _ => none
  | fuel + 1, prev, e =>
    if e = 0 then some (prev, 0)
    else (h.read e).bind fun c => if test c then some (prev, e) else searchPrev h test fuel e (next c)

variable {next data} {h h' : Heap C} {p : ℕ} {ns xs ys : List (ℕ × D)}

theorem Chain.data_of_mem (hc : Chain next data h p ns) {x : ℕ × D} (hx : x ∈ ns) :
    ∃ c, h.read x.1 = some c ∧ data c = x.2 := by
  induction ns generalizing p with
  | nil => cases hx
  | cons y ns ih =>
    obtain ⟨rfl, c, hr, hd, hc⟩ := hc
    rcases List.mem_cons.mp hx with rfl | hx
    · exact ⟨c, hr, hd⟩
    · exact ih hc hx

theorem Chain.frame (hc : Chain next data h p ns) (hr : ∀ x ∈ ns, h'.read x.1 = h.read x.1) :
    Chain next data h' p ns := by
  induction ns generalizing p with
  | nil => exact hc
  | cons y ns ih =>
    obtain ⟨rfl, c, hy, hd, hc⟩ := hc
    refine ⟨rfl, c, ?_, hd, ih hc fun x hx => hr x (List.mem_cons_of_mem _ hx)⟩
    rw [hr y (List.mem_cons_self ..), hy]

theorem Chain.push (hc : Chain next data h p ns) {a : ℕ} {c : C} (ha : a ∉ ns.map Prod.fst)
    (hn : next c = p) (hr : ∀ b, h'.read b = if b = a then some c else h.read b) :
    Chain next data h' a ((a, data c) :: ns) := by
  refine ⟨rfl, c, ?_, rfl, ?_⟩
  · rw [hr, if_pos rfl]
  · rw [hn]
    refine hc.frame fun x hx => ?_
    rw [hr, if_neg (ne_of_mem_of_not_mem (List.mem_map_of_mem hx) ha)]

/-- **Unlinking** the node behind `y`. -/
theorem Chain.unlink {x y : ℕ × D} (hc : Chain next data h p (xs ++ y :: x :: ys))
    (hnd : ((xs ++ y :: x :: ys).map Prod.fst).Nodup) {cy cx : C} (hy : h.read y.1 = some cy)
    (hx : h.read x.1 = some cx) {c : C} (hn : next c = next cx) (hd : data c = data cy)
    (hr : ∀ b, b ≠ x.1 → h'.read b = if b = y.1 then some c else h.read b) :
    Chain next data h' p (xs ++ y :: ys) := by
  induction xs generalizing p with
  | nil =>
    simp only [List.nil_append, List.map_cons, List.nodup_cons, List.mem_cons, not_or] at hnd
    obtain ⟨⟨hyx, hyys⟩, hxys, -⟩ := hnd
    obtain ⟨rfl, c₁, hc₁, hd₁, hx₁, c₂, hc₂, -, hc⟩ := hc
    rw [hy, Option.some.injEq] at hc₁
    rw [hx₁, hx, Option.some.injEq] at hc₂
    subst hc₁ hc₂
    refine ⟨rfl, c, ?_, by rw [hd, hd₁], ?_⟩
    · rw [hr _ hyx, if_pos rfl]
    · rw [hn]
      refine hc.frame fun z hz => ?_
      have hz' : z.1 ∈ ys.map Prod.fst := List.mem_map_of_mem hz
      rw [hr _ (ne_of_mem_of_not_mem hz' hxys), if_neg (ne_of_mem_of_not_mem hz' hyys)]
  | cons z xs ih =>
    rw [List.cons_append, List.map_cons, List.nodup_cons] at hnd
    obtain ⟨rfl, c₁, hc₁, hd₁, hc⟩ := hc
    refine ⟨rfl, c₁, ?_, hd₁, ih hc hnd.2⟩
    have hzy : z.1 ≠ y.1 := fun e => hnd.1 (by rw [e]; simp)
    have hzx : z.1 ≠ x.1 := fun e => hnd.1 (by rw [e]; simp)
    rw [hr _ hzx, if_neg hzy, hc₁]

/-- **Updating** the data of one node. -/
theorem Chain.update {x : ℕ × D} (hc : Chain next data h p (xs ++ x :: ys))
    (hnd : ((xs ++ x :: ys).map Prod.fst).Nodup) {cx c : C} (hx : h.read x.1 = some cx)
    (hn : next c = next cx) (hr : ∀ b, h'.read b = if b = x.1 then some c else h.read b) :
    Chain next data h' p (xs ++ (x.1, data c) :: ys) := by
  induction xs generalizing p with
  | nil =>
    rw [List.nil_append, List.map_cons, List.nodup_cons] at hnd
    obtain ⟨rfl, c₁, hc₁, -, hc⟩ := hc
    rw [hx, Option.some.injEq] at hc₁
    subst hc₁
    refine ⟨rfl, c, ?_, rfl, ?_⟩
    · rw [hr, if_pos rfl]
    · rw [hn]
      refine hc.frame fun z hz => ?_
      rw [hr, if_neg (ne_of_mem_of_not_mem (List.mem_map_of_mem hz) hnd.1)]
  | cons z xs ih =>
    rw [List.cons_append, List.map_cons, List.nodup_cons] at hnd
    obtain ⟨rfl, c₁, hc₁, hd₁, hc⟩ := hc
    refine ⟨rfl, c₁, ?_, hd₁, ih hc hnd.2⟩
    have hzx : z.1 ≠ x.1 := fun e => hnd.1 (by rw [e]; simp)
    rw [hr, if_neg hzx, hc₁]

theorem Chain.nodup {K : Type} (g : D → K) (hc : Chain next data h p ns)
    (hnd : (ns.map fun x => g x.2).Nodup) : (ns.map Prod.fst).Nodup := by
  have hmap : ns.map (fun x => some (g x.2)) =
      (ns.map Prod.fst).map fun a => (h.read a).map fun c => g (data c) := by
    rw [List.map_map]
    refine List.map_congr_left fun x hx => ?_
    obtain ⟨c, hr, hd⟩ := hc.data_of_mem hx
    rw [Function.comp_apply, hr, Option.map_some, hd]
  refine List.Nodup.of_map (fun a => (h.read a).map fun c => g (data c)) ?_
  rw [← hmap, ← Function.comp_def some, ← List.map_map]
  exact hnd.map (Option.some_injective K)

theorem Chain.length_le_card (hc : Chain next data h p ns) (hnd : (ns.map Prod.fst).Nodup) :
    ns.length ≤ h.keys.card := by
  rw [← List.length_map (f := Prod.fst)]
  refine Heap.length_le_card hnd fun a ha => ?_
  obtain ⟨x, hx, rfl⟩ := List.mem_map.mp ha
  obtain ⟨c, hr, -⟩ := hc.data_of_mem hx
  exact ⟨c, hr⟩

theorem searchPrev_none {test : C → Bool} (testD : D → Bool) (ht : ∀ c, test c = testD (data c)) :
    ∀ (ns : List (ℕ × D)) (fuel prev p : ℕ), Chain next data h p ns → (∀ x ∈ ns, testD x.2 = false) →
      ns.length < fuel → ∃ q, searchPrev next h test fuel prev p = some (q, 0)
  | _, 0, _, _, _, _, hf => by omega
  | [], fuel + 1, prev, p, hc, _, _ => ⟨prev, if_pos hc⟩
  | x :: ns, fuel + 1, prev, p, hc, hno, hf => by
    obtain ⟨rfl, c, hr, hd, hc⟩ := hc
    obtain ⟨q, hq⟩ := searchPrev_none testD ht ns fuel x.1 (next c) hc
      (fun y hy => hno y (List.mem_cons_of_mem _ hy)) (by rw [List.length_cons] at hf; omega)
    refine ⟨q, ?_⟩
    rw [searchPrev, if_neg (ne_zero_of_read hr), hr, Option.bind_some, ht, hd,
      hno x (List.mem_cons_self ..), if_neg (by simp), hq]

theorem searchPrev_some {test : C → Bool} (testD : D → Bool) (ht : ∀ c, test c = testD (data c))
    {x : ℕ × D} (hx : testD x.2 = true) : ∀ (xs : List (ℕ × D)) (fuel prev p : ℕ),
      Chain next data h p (xs ++ x :: ys) → (∀ y ∈ xs, testD y.2 = false) → (xs ++ x :: ys).length < fuel →
      searchPrev next h test fuel prev p = some ((xs.map Prod.fst).getLastD prev, x.1)
  | _, 0, _, _, _, _, hf => by omega
  | [], fuel + 1, prev, p, hc, _, _ => by
    obtain ⟨rfl, c, hr, hd, -⟩ := hc
    rw [searchPrev, if_neg (ne_zero_of_read hr), hr, Option.bind_some, ht, hd, hx, if_pos rfl]
    rfl
  | y :: xs, fuel + 1, prev, p, hc, hno, hf => by
    obtain ⟨rfl, c, hr, hd, hc⟩ := hc
    rw [searchPrev, if_neg (ne_zero_of_read hr), hr, Option.bind_some, ht, hd,
      hno y (List.mem_cons_self ..), if_neg (by simp),
      searchPrev_some testD ht hx xs fuel y.1 (next c) hc (fun z hz => hno z (List.mem_cons_of_mem _ hz))
        (by rw [List.cons_append, List.length_cons] at hf; omega), List.map_cons, List.getLastD_cons]

end Heap

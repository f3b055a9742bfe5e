import Mathlib.Data.List.Forall2
import Mathlib.Data.List.Pairwise
import Mathlib.Logic.Function.Basic

/-!
# Strings that a collector may free

A string is pushed on a stack and popped at once, and a pointer to its text is kept. Short strings are shared: a short
string that is live already is pushed again, and one that the rest of the program holds is never freed. Each push may
run the collector, which frees what is not on the stack.

* `TextPtr`, `Strings`, `push`: pointers, the strings, and one push; `gc` says which pushes collect;
* `Source`, `pushSource`, `pushSources`: texts that are literals of the program or strings, one after the other;
* `NoneFreed`: no string is pushed behind one that it might free;
* **`pushSources_live`**, **`noneFreed_of_live`**: then, and only then, all pointers are live at the end;
* **`deref_pushSource_pair`**: two sources among other strings.
-/

namespace StringHeap

variable {β : Type}

/-- A pointer to a text that is never freed, or to a string. -/
inductive TextPtr (β : Type)
  | static (s : List β)
  | object (p : ℕ)

/-- The text belongs to an object of the heap. -/
def TextPtr.IsObject : TextPtr β → Prop
  | .static _ => False
  | .object _ => True

/-- The strings that only the stack holds, by number; the next number; how often the collector could run. -/
structure Strings (β : Type) where
  objs : ℕ → Option (List β)
  fresh : ℕ
  ticks : ℕ

namespace Strings

/-- No strings. -/
def empty : Strings β := ⟨fun _ => none, 0, 0⟩

/-- The text behind a pointer; `none` where the string is freed. -/
def deref (h : Strings β) : TextPtr β → Option (List β)
  | .static s => some s
  | .object p => h.objs p

/-- A possible collection, with one string or none on the stack. -/
def collect (gc : ℕ → Bool) (onStack : Option ℕ) (h : Strings β) : Strings β :=
  { h with
    objs := fun p => if gc h.ticks = true ∧ onStack ≠ some p then none else h.objs p
    ticks := h.ticks + 1 }

/-- A new string. -/
def create (s : List β) (h : Strings β) : Strings β :=
  { h with objs := Function.update h.objs h.fresh (some s), fresh := h.fresh + 1 }

/-- A live string with this text. -/
def find [DecidableEq β] (s : List β) (h : Strings β) : Option ℕ :=
  (List.range h.fresh).find? fun p => h.objs p = some s

theorem deref_of_collect {gc : ℕ → Bool} {onStack : Option ℕ} {h : Strings β} {ptr : TextPtr β} {s : List β}
    (hs : (h.collect gc onStack).deref ptr = some s) : h.deref ptr = some s := by
  cases ptr with
  | static t => exact hs
  | object p =>
    have hobj : (if gc h.ticks = true ∧ onStack ≠ some p then none else h.objs p) = some s := hs
    split_ifs at hobj
    exact hobj

theorem objs_collect_self (gc : ℕ → Bool) (p : ℕ) (h : Strings β) : (h.collect gc (some p)).objs p = h.objs p :=
  if_neg fun hc => hc.2 rfl

theorem objs_collect_of_ne {h : Strings β} {onStack : Option ℕ} {p : ℕ} (hp : onStack ≠ some p) :
    (h.collect (fun _ => true) onStack).objs p = none := if_pos ⟨rfl, hp⟩

theorem objs_collect_none {gc : ℕ → Bool} {onStack : Option ℕ} {h : Strings β} {p : ℕ} (hp : h.objs p = none) :
    (h.collect gc onStack).objs p = none := by
  show (if gc h.ticks = true ∧ onStack ≠ some p then none else h.objs p) = none
  rw [hp, ite_self]

theorem objs_create_self (s : List β) (h : Strings β) : (h.create s).objs h.fresh = some s := Function.update_self ..

theorem objs_create_of_ne {s : List β} {h : Strings β} {p : ℕ} (hp : p ≠ h.fresh) : (h.create s).objs p = h.objs p :=
  Function.update_of_ne hp ..

end Strings

/-- A string that is freed, and stays so. -/
def Dead (p : ℕ) (h : Strings β) : Prop := p < h.fresh ∧ h.objs p = none

/-- There is one string. -/
def Only (p : ℕ) (s : List β) (h : Strings β) : Prop := p < h.fresh ∧ h.objs p = some s ∧ ∀ q, q ≠ p → h.objs q = none

theorem Only.collect {p : ℕ} {s : List β} {h : Strings β} (hp : Only p s h) (gc : ℕ → Bool) :
    Only p s (h.collect gc (some p)) :=
  ⟨hp.1, (Strings.objs_collect_self gc p h).trans hp.2.1, fun q hq => Strings.objs_collect_none (hp.2.2 q hq)⟩

theorem Only.create {h : Strings β} (hobjs : ∀ p, h.objs p = none) (s : List β) : Only h.fresh s (h.create s) :=
  ⟨Nat.lt_succ_self _, Strings.objs_create_self s h, fun q hq => by rw [Strings.objs_create_of_ne hq]; exact hobjs q⟩

variable [DecidableEq β] (gc : ℕ → Bool) (short held : List β → Bool)

/-- Push a string, and pop it. -/
def push (s : List β) (h : Strings β) : TextPtr β × Strings β :=
  if short s = true ∧ held s = true then (.static s, h.collect gc none)
  else
    match if short s then h.find s else none with
    | some p => (.object p, h.collect gc (some p))
    | none => (.object h.fresh, (h.create s).collect gc (some h.fresh))

/-- A literal of the program, or a string that is pushed. -/
inductive Source (β : Type)
  | literal (s : List β)
  | pushed (s : List β)

/-- The text itself. -/
def Source.text : Source β → List β
  | .literal s | .pushed s => s

/-- A pointer to the text of one source. -/
def pushSource (v : Source β) (h : Strings β) : TextPtr β × Strings β :=
  match v with
  | .literal s => (.static s, h)
  | .pushed s => push gc short held s h

/-- Pointers to texts, one after the other. -/
def pushSources : List (Source β) → Strings β → List (TextPtr β) × Strings β
  | [], h => ([], h)
  | .literal s :: rest, h => (.static s :: (pushSources rest h).1, (pushSources rest h).2)
  | .pushed s :: rest, h =>
    let r := push gc short held s h
    (r.1 :: (pushSources rest r.2).1, (pushSources rest r.2).2)

/-- A string that may be freed once it is popped. -/
def Source.Collectable (v : Source β) : Prop :=
  match v with
  | .literal _ => False
  | .pushed s => ¬ (short s = true ∧ held s = true)

/-- A pointer to the text of a source, as far as it matters whether it is a string that may be freed. -/
def Source.place (v : Source β) : TextPtr β :=
  match v with
  | .literal s => .static s
  | .pushed s => if short s = true ∧ held s = true then .static s else .object 0

/-- Behind a string that may be freed only that string is pushed, which is short then. -/
def NoneFreed (vs : List (Source β)) : Prop :=
  vs.Pairwise fun v w => v.Collectable short held → ∀ t, w = .pushed t → short t = true ∧ t = v.text

variable {gc short held}

/-! ## One push -/

theorem push_of_held {s : List β} (hs : short s = true ∧ held s = true) (h : Strings β) :
    push gc short held s h = (.static s, h.collect gc none) := if_pos hs

theorem push_of_not_held (gc : ℕ → Bool) {s : List β} (hs : ¬ (short s = true ∧ held s = true)) (h : Strings β) :
    (∃ p < h.fresh, short s = true ∧ h.objs p = some s ∧
      push gc short held s h = (.object p, h.collect gc (some p))) ∨
    ((short s = true → ∀ p < h.fresh, h.objs p ≠ some s) ∧
      push gc short held s h = (.object h.fresh, (h.create s).collect gc (some h.fresh))) := by
  rw [push, if_neg hs]
  by_cases hshort : short s = true
  · rw [if_pos hshort]
    cases hfind : h.find s with
    | some p =>
      obtain ⟨hobj, hmem⟩ := And.intro (List.find?_some hfind) (List.mem_of_find?_eq_some hfind)
      exact .inl ⟨p, List.mem_range.mp hmem, hshort, of_decide_eq_true hobj, rfl⟩
    | none =>
      refine .inr ⟨fun _ p hp hobj => ?_, rfl⟩
      exact List.find?_eq_none.mp hfind p (List.mem_range.mpr hp) (decide_eq_true hobj)
  · rw [if_neg hshort]
    exact .inr ⟨fun h => absurd h hshort, rfl⟩

theorem deref_push (gc : ℕ → Bool) (short held : List β → Bool) (s : List β) (h : Strings β) :
    (push gc short held s h).2.deref (push gc short held s h).1 = some s := by
  by_cases hs : short s = true ∧ held s = true
  · rw [push_of_held hs]
    rfl
  · rcases push_of_not_held gc hs h with ⟨p, -, -, hobj, hpush⟩ | ⟨-, hpush⟩
    · rw [hpush]
      exact (Strings.objs_collect_self gc p h).trans hobj
    · rw [hpush]
      exact (Strings.objs_collect_self gc h.fresh _).trans (Strings.objs_create_self s h)

theorem Dead.push {p : ℕ} {h : Strings β} (hp : Dead p h) (s : List β) : Dead p (push gc short held s h).2 := by
  by_cases hs : short s = true ∧ held s = true
  · rw [push_of_held hs]
    exact ⟨hp.1, Strings.objs_collect_none hp.2⟩
  · rcases push_of_not_held gc hs h with ⟨q, -, -, -, hpush⟩ | ⟨-, hpush⟩
    · rw [hpush]
      exact ⟨hp.1, Strings.objs_collect_none hp.2⟩
    · rw [hpush]
      refine ⟨Nat.lt_succ_of_lt hp.1, Strings.objs_collect_none ?_⟩
      rw [Strings.objs_create_of_ne (Nat.ne_of_lt hp.1)]
      exact hp.2

theorem Dead.pushSources {p : ℕ} {h : Strings β} (hp : Dead p h) (vs : List (Source β)) :
    Dead p (pushSources gc short held vs h).2 := by
  induction vs generalizing h with
  | nil => exact hp
  | cons v vs ih =>
    cases v with
    | literal s => exact ih hp
    | pushed s => exact ih (hp.push s)

theorem push_fresh_le (s : List β) (h : Strings β) : h.fresh ≤ (push gc short held s h).2.fresh := by
  by_cases hs : short s = true ∧ held s = true
  · rw [push_of_held hs]
    exact Nat.le_refl h.fresh
  · rcases push_of_not_held gc hs h with ⟨p, -, -, -, hpush⟩ | ⟨-, hpush⟩
    · rw [hpush]
      exact Nat.le_refl h.fresh
    · rw [hpush]
      exact Nat.le_succ h.fresh

theorem pushSources_fresh_le (vs : List (Source β)) (h : Strings β) :
    h.fresh ≤ (pushSources gc short held vs h).2.fresh := by
  induction vs generalizing h with
  | nil => exact Nat.le_refl h.fresh
  | cons v vs ih =>
    cases v with
    | literal s => exact ih h
    | pushed s => exact Nat.le_trans (push_fresh_le s h) (ih _)

/-! ## Pushes one after the other -/

omit [DecidableEq β] in
theorem Source.place_isObject (v : Source β) : (v.place short held).IsObject ↔ v.Collectable short held := by
  cases v with
  | literal s => exact Iff.rfl
  | pushed s =>
    rw [Source.place]
    by_cases hs : short s = true ∧ held s = true
    · rw [if_pos hs]
      exact iff_of_false id fun h => h hs
    · rw [if_neg hs]
      exact iff_of_true trivial hs

theorem pushSources_isObject (vs : List (Source β)) (h : Strings β) :
    List.Forall₂ (fun v ptr => ptr.IsObject ↔ v.Collectable short held) vs (pushSources gc short held vs h).1 := by
  induction vs generalizing h with
  | nil => exact List.Forall₂.nil
  | cons v vs ih =>
    cases v with
    | literal s => exact List.Forall₂.cons Iff.rfl (ih h)
    | pushed s =>
      refine List.Forall₂.cons ?_ (ih _)
      by_cases hs : short s = true ∧ held s = true
      · rw [push_of_held hs]
        exact iff_of_false id fun h => h hs
      · refine iff_of_true ?_ hs
        rcases push_of_not_held gc hs h with ⟨p, -, -, -, hpush⟩ | ⟨-, hpush⟩ <;>
          · rw [hpush]
            trivial

theorem pushSources_same {p : ℕ} {s : List β} (hs : ¬ (short s = true ∧ held s = true)) : ∀ (vs : List (Source β))
    {h : Strings β}, Only p s h → (∀ t, .pushed t ∈ vs → short t = true ∧ t = s) →
      Only p s (pushSources gc short held vs h).2 ∧
        List.Forall₂ (fun v ptr => (pushSources gc short held vs h).2.deref ptr = some v.text) vs
          (pushSources gc short held vs h).1
  | [], _, hp, _ => ⟨hp, List.Forall₂.nil⟩
  | .literal t :: vs, _, hp, hall => by
    obtain ⟨honly, hlive⟩ := pushSources_same hs vs hp fun t ht => hall t (List.mem_cons_of_mem _ ht)
    exact ⟨honly, List.Forall₂.cons rfl hlive⟩
  | .pushed t :: vs, h, hp, hall => by
    obtain ⟨hshort, rfl⟩ := hall t List.mem_cons_self
    have hpush : push gc short held t h = (.object p, h.collect gc (some p)) := by
      rcases push_of_not_held gc hs h with ⟨q, -, -, hobj, hpush⟩ | ⟨hno, -⟩
      · have hq : q = p := by
          by_contra hne
          rw [hp.2.2 q hne] at hobj
          cases hobj
        rw [hpush, hq]
      · exact absurd hp.2.1 (hno hshort p hp.1)
    obtain ⟨honly, hlive⟩ := pushSources_same hs vs (hp.collect gc) fun t ht => hall t (List.mem_cons_of_mem _ ht)
    rw [pushSources, hpush]
    exact ⟨honly, List.Forall₂.cons honly.2.1 hlive⟩

/-- **All pointers are live**, whenever the collector runs. -/
theorem pushSources_live : ∀ {vs : List (Source β)} {h : Strings β}, (∀ p, h.objs p = none) → NoneFreed short held vs →
    List.Forall₂ (fun v ptr => (pushSources gc short held vs h).2.deref ptr = some v.text) vs
      (pushSources gc short held vs h).1
  | [], _, _, _ => List.Forall₂.nil
  | .literal s :: vs, _, hobjs, hall => List.Forall₂.cons rfl (pushSources_live hobjs (List.pairwise_cons.mp hall).2)
  | .pushed s :: vs, h, hobjs, hall => by
    obtain ⟨hhead, htail⟩ := List.pairwise_cons.mp hall
    by_cases hs : short s = true ∧ held s = true
    · rw [pushSources, push_of_held hs]
      exact List.Forall₂.cons rfl (pushSources_live (fun p => Strings.objs_collect_none (hobjs p)) htail)
    · have hpush : push gc short held s h = (.object h.fresh, (h.create s).collect gc (some h.fresh)) := by
        rcases push_of_not_held gc hs h with ⟨p, -, -, hobj, -⟩ | ⟨-, hpush⟩
        · rw [hobjs p] at hobj
          cases hobj
        · exact hpush
      obtain ⟨honly, hlive⟩ := pushSources_same hs vs ((Only.create hobjs s).collect gc) fun t ht =>
        hhead _ ht hs t rfl
      rw [pushSources, hpush]
      exact List.Forall₂.cons honly.2.1 hlive

/-- A string that survives a collection at every push is the only one that is pushed. -/
theorem same_of_live {p : ℕ} {s : List β} : ∀ (vs : List (Source β)) {h : Strings β}, Only p s h →
    (pushSources (fun _ => true) short held vs h).2.objs p ≠ none → ∀ t, .pushed t ∈ vs → short t = true ∧ t = s
  | [], _, _, _, _, ht => absurd ht List.not_mem_nil
  | .literal t' :: vs, _, hp, hlive, t, ht => by
    rcases List.mem_cons.mp ht with ht | ht
    · cases ht
    · exact same_of_live vs hp hlive t ht
  | .pushed t' :: vs, h, hp, hlive, t, ht => by
    have hkilled : ¬ Dead p (push (fun _ => true) short held t' h).2 := fun hdead => hlive (hdead.pushSources vs).2
    by_cases hs : short t' = true ∧ held t' = true
    · -- nothing of ours is on the stack
      refine absurd ?_ hkilled
      rw [push_of_held hs]
      exact ⟨hp.1, Strings.objs_collect_of_ne nofun⟩
    · rcases push_of_not_held (fun _ => true) hs h with ⟨q, -, hshort, hobj, hpush⟩ | ⟨-, hpush⟩
      · have hq : q = p := by
          by_contra hne
          rw [hp.2.2 q hne] at hobj
          cases hobj
        subst hq
        obtain rfl : t' = s := Option.some.inj (hobj.symm.trans hp.2.1)
        rw [pushSources, hpush] at hlive
        rcases List.mem_cons.mp ht with ht | ht
        · cases ht
          exact ⟨hshort, rfl⟩
        · exact same_of_live vs (hp.collect fun _ => true) hlive t ht
      · -- another string is on the stack
        refine absurd ?_ hkilled
        rw [hpush]
        exact ⟨Nat.lt_succ_of_lt hp.1, Strings.objs_collect_of_ne fun h => Nat.ne_of_gt hp.1 (Option.some.inj h)⟩

theorem only_push {s : List β} (hs : ¬ (short s = true ∧ held s = true)) (h : Strings β) :
    ∃ p, (push (fun _ => true) short held s h).1 = .object p ∧ Only p s (push (fun _ => true) short held s h).2 := by
  have hlive := deref_push (fun _ => true) short held s h
  rcases push_of_not_held (fun _ => true) hs h with ⟨p, hp, -, -, hpush⟩ | ⟨-, hpush⟩
  · rw [hpush] at hlive ⊢
    exact ⟨p, rfl, hp, hlive, fun q hq => Strings.objs_collect_of_ne fun h => hq (Option.some.inj h).symm⟩
  · rw [hpush] at hlive ⊢
    exact ⟨h.fresh, rfl, Nat.lt_succ_self _, hlive,
      fun q hq => Strings.objs_collect_of_ne fun h => hq (Option.some.inj h).symm⟩

theorem Only.dead {p : ℕ} {s : List β} {h : Strings β} (hp : Only p s h) {vs : List (Source β)} {t : List β}
    (ht : .pushed t ∈ vs) (hne : t ≠ s) : Dead p (pushSources (fun _ => true) short held vs h).2 := by
  refine ⟨Nat.lt_of_lt_of_le hp.1 (pushSources_fresh_le vs h), ?_⟩
  by_contra hlive
  exact hne (same_of_live vs hp hlive t ht).2

/-- **Only such pointers are live** at the end, where every push collects. -/
theorem noneFreed_of_live : ∀ {vs : List (Source β)} {h : Strings β},
    (∀ ptr ∈ (pushSources (fun _ => true) short held vs h).1, ∃ s,
      (pushSources (fun _ => true) short held vs h).2.deref ptr = some s) → NoneFreed short held vs
  | [], _, _ => List.Pairwise.nil
  | .literal s :: vs, h, hall => List.pairwise_cons.mpr ⟨fun _ _ hv => hv.elim,
      noneFreed_of_live (h := h) fun ptr hptr => hall ptr (List.mem_cons_of_mem _ hptr)⟩
  | .pushed s :: vs, h, hall => by
    refine List.pairwise_cons.mpr ⟨fun w hw hs t ht => ?_,
      noneFreed_of_live fun ptr hptr => hall ptr (List.mem_cons_of_mem _ hptr)⟩
    subst ht
    obtain ⟨u, hu⟩ := hall _ List.mem_cons_self
    obtain ⟨p, hptr, honly⟩ := only_push hs h
    have hobj :
        (pushSources (fun _ => true) short held vs (push (fun _ => true) short held s h).2).2.deref (.object p) =
          some u := by
      rw [← hptr]
      exact hu
    exact same_of_live vs honly (fun hnone => by rw [Strings.deref, hnone] at hobj; cases hobj) t hw

theorem pushSources_cons (v : Source β) (vs : List (Source β)) (h : Strings β) :
    pushSources gc short held (v :: vs) h = ((pushSource gc short held v h).1 ::
      (pushSources gc short held vs (pushSource gc short held v h).2).1,
      (pushSources gc short held vs (pushSource gc short held v h).2).2) := by
  cases v <;> rfl

theorem deref_pushSource (v : Source β) (h : Strings β) :
    (pushSource gc short held v h).2.deref (pushSource gc short held v h).1 = some v.text := by
  cases v with
  | literal s => rfl
  | pushed s => exact deref_push gc short held s h

theorem pushSources_append (vs ws : List (Source β)) (h : Strings β) :
    pushSources gc short held (vs ++ ws) h =
      ((pushSources gc short held vs h).1 ++ (pushSources gc short held ws (pushSources gc short held vs h).2).1,
      (pushSources gc short held ws (pushSources gc short held vs h).2).2) := by
  induction vs generalizing h with
  | nil => rfl
  | cons v vs ih =>
    cases v with
    | literal s => rw [List.cons_append, pushSources, pushSources, ih, List.cons_append]
    | pushed s => rw [List.cons_append, pushSources, pushSources, ih, List.cons_append]

theorem pushSources_length (vs : List (Source β)) (h : Strings β) :
    (pushSources gc short held vs h).1.length = vs.length := (pushSources_isObject vs h).length_eq.symm

theorem noneFreed_of_live_dropLast {vs : List (Source β)} {h : Strings β}
    (hall : ∀ ptr ∈ (pushSources (fun _ => true) short held vs h).1.dropLast, ∃ s,
      (pushSources (fun _ => true) short held vs h).2.deref ptr = some s) : NoneFreed short held vs := by
  rcases vs.eq_nil_or_concat with rfl | ⟨ws, v, rfl⟩
  · exact List.Pairwise.nil
  · refine noneFreed_of_live (h := h) fun ptr hptr => ?_
    rw [List.concat_eq_append, pushSources_append, pushSources_cons] at hall hptr ⊢
    rcases List.mem_append.mp hptr with hptr | hptr
    · exact hall ptr (by rwa [pushSources, List.dropLast_concat])
    · rw [List.mem_singleton.mp hptr]
      exact ⟨v.text, deref_pushSource v _⟩

/-! ## A string and the next one -/

theorem Strings.find_eq_some_iff {s : List β} {h : Strings β} {p : ℕ} :
    h.find s = some p ↔ h.objs p = some s ∧ p < h.fresh ∧ ∀ q < p, h.objs q ≠ some s := by
  rw [Strings.find, List.find?_range_eq_some, decide_eq_true_eq, List.mem_range]
  simp only [Bool.not_eq_true', decide_eq_false_iff_not, ne_eq]

/-- The string that is found is found again, when a collection leaves it. -/
theorem Strings.find_collect {s : List β} {h : Strings β} {p : ℕ} (hfind : h.find s = some p) :
    (h.collect gc (some p)).find s = some p := by
  obtain ⟨hobj, hlt, hfirst⟩ := Strings.find_eq_some_iff.mp hfind
  refine Strings.find_eq_some_iff.mpr ⟨(Strings.objs_collect_self gc p h).trans hobj, hlt, fun q hq hobj => ?_⟩
  exact hfirst q hq (@Strings.deref_of_collect β gc (some p) h (.object q) s hobj)

theorem Strings.find_create {s : List β} {h : Strings β} (hfind : h.find s = none) :
    (h.create s).find s = some h.fresh := by
  refine Strings.find_eq_some_iff.mpr ⟨Strings.objs_create_self s h, Nat.lt_succ_self _, fun q hq hobj => ?_⟩
  rw [Strings.objs_create_of_ne (Nat.ne_of_lt hq)] at hobj
  exact List.find?_eq_none.mp hfind q (List.mem_range.mpr hq) (decide_eq_true hobj)

/-- A short string that nothing else holds is found again when it has been pushed. -/
theorem find_push {s : List β} (hs : ¬ (short s = true ∧ held s = true)) (hshort : short s = true) (h : Strings β) :
    ∃ p, (push gc short held s h).1 = .object p ∧ (push gc short held s h).2.find s = some p := by
  rw [push, if_neg hs, if_pos hshort]
  cases hfind : h.find s with
  | some p => exact ⟨p, rfl, Strings.find_collect hfind⟩
  | none => exact ⟨h.fresh, rfl, Strings.find_collect (Strings.find_create hfind)⟩

theorem find_pushSources {s : List β} (hs : ¬ (short s = true ∧ held s = true)) (hshort : short s = true) {p : ℕ} :
    ∀ (vs : List (Source β)) {h : Strings β}, h.find s = some p → (∀ t, .pushed t ∈ vs → t = s) →
      (pushSources gc short held vs h).2.find s = some p
  | [], _, hfind, _ => hfind
  | .literal t :: vs, _, hfind, hall =>
    find_pushSources hs hshort vs hfind fun t' ht => hall t' (List.mem_cons_of_mem (.literal t) ht)
  | .pushed t :: vs, h, hfind, hall => by
    obtain rfl : t = s := hall t List.mem_cons_self
    have hpush : push gc short held t h = (.object p, h.collect gc (some p)) := by
      rw [push, if_neg hs, if_pos hshort, hfind]
    rw [pushSources, hpush]
    exact find_pushSources hs hshort vs (Strings.find_collect hfind) fun t' ht => hall t' (List.mem_cons_of_mem _ ht)

omit [DecidableEq β] in
theorem noneFreed_pair {v w : Source β} : NoneFreed short held [v, w] ↔
    (v.Collectable short held → ∀ t, w = .pushed t → short t = true ∧ t = v.text) := List.pairwise_pair

/-- **The first of two pointers**, among any strings. -/
theorem deref_pushSource_pair {v w : Source β} (hkept : NoneFreed short held [v, w]) (h : Strings β) :
    (pushSource gc short held w (pushSource gc short held v h).2).2.deref (pushSource gc short held v h).1 =
      some v.text := by
  have hnext := noneFreed_pair.mp hkept
  cases v with
  | literal s => rfl
  | pushed s =>
    cases w with
    | literal t => exact deref_push gc short held s h
    | pushed t =>
      show (push gc short held t (push gc short held s h).2).2.deref (push gc short held s h).1 = some s
      by_cases hs : short s = true ∧ held s = true
      · rw [push_of_held hs]
        rfl
      · obtain ⟨hshort, rfl⟩ := hnext hs t rfl
        obtain ⟨p, hptr, hfind⟩ := @find_push β _ gc short held t hs hshort h
        have hagain : push gc short held t (push gc short held t h).2 =
            (.object p, (push gc short held t h).2.collect gc (some p)) := by
          rw [push, if_neg hs, if_pos hshort, hfind]
        have hlive := deref_push gc short held t h
        rw [hptr] at hlive
        rw [hagain, hptr]
        exact (Strings.objs_collect_self gc p _).trans hlive

/-- The first of two pointers is live only so, where every push collects. -/
theorem noneFreed_of_deref_pair {v w : Source β} {h : Strings β} {s : List β}
    (hs : (pushSource (fun _ => true) short held w (pushSource (fun _ => true) short held v h).2).2.deref
      (pushSource (fun _ => true) short held v h).1 = some s) : NoneFreed short held [v, w] := by
  refine noneFreed_of_live_dropLast (h := h) fun ptr hptr => ?_
  rw [pushSources_cons, pushSources_cons] at hptr ⊢
  rw [List.mem_singleton.mp hptr]
  exact ⟨s, hs⟩

end StringHeap

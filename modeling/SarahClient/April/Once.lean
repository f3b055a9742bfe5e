import SarahClient.April.Tree

/-!
# Each item once

* `Keeps`, `Logged`: what every run does, tidy or not;
* `logged_entry`: one entry and the entries after it;
* **`loop_logged`**, **`textBuild_logged`**: a run that adds each new item once has scanned a tidy table.
-/

namespace Sarah

open Heap Forest

/-- Live items stay live and keep their type. -/
def Keeps (h h' : Heap (TCell JsonItem)) : Prop :=
  ∀ a c, h.read a = some c → ∃ c', h'.read a = some c' ∧ c'.payload.type = c.payload.type

/-- What a run creates and adds. -/
structure Logged (b b' : Build) (value : ℕ) (new adds : List ℕ) : Prop where
  keeps : Keeps b.heap b'.heap
  created : b'.created = b.created ++ new
  added : b'.added = b.added ++ adds
  nodup : new.Nodup
  fresh : ∀ a ∈ new, b.heap.read a = none
  live : ∀ a ∈ new, ∃ c, b'.heap.read a = some c
  adds : ∀ a ∈ adds, a ≠ 0 ∧ (a = value ∨ a ∈ new)

variable {b b' b₁ b₂ b₃ : Build} {json value r : ℕ} {st : Pend}

theorem Keeps.refl (h : Heap (TCell JsonItem)) : Keeps h h := fun _ c hc => ⟨c, hc, rfl⟩

theorem Keeps.trans {h h' h'' : Heap (TCell JsonItem)} (h₁ : Keeps h h') (h₂ : Keeps h' h'') : Keeps h h'' := by
  intro a c hc
  obtain ⟨c', hc', htype⟩ := h₁ a c hc
  obtain ⟨c'', hc'', htype'⟩ := h₂ a c' hc'
  exact ⟨c'', hc'', htype'.trans htype⟩

theorem Keeps.none {h h' : Heap (TCell JsonItem)} (hk : Keeps h h') {a : ℕ} (ha : h'.read a = none) :
    h.read a = none := by
  cases hc : h.read a with
  | none => rfl
  | some c =>
    obtain ⟨c', hc', -⟩ := hk a c hc
    rw [ha] at hc'
    cases hc'

theorem keeps_of_modify {h h' : Heap (TCell JsonItem)} {a : ℕ} {f : TCell JsonItem → TCell JsonItem}
    (hmod : modify h a f = some h') (hf : ∀ c, (f c).payload.type = c.payload.type) : Keeps h h' := by
  obtain ⟨c, hc, -⟩ := Option.map_eq_some_iff.mp hmod
  obtain ⟨h₁, hmod₁, hread⟩ := modify_spec hc f
  rw [hmod, Option.some.injEq] at hmod₁
  subst hmod₁
  intro x d hd
  rw [hread]
  by_cases hx : x = a
  · subst hx
    rw [hc, Option.some.injEq] at hd
    subst hd
    exact ⟨f c, if_pos rfl, hf c⟩
  · exact ⟨d, by rw [if_neg hx, hd], rfl⟩

theorem Logged.refl (b : Build) (value : ℕ) : Logged b b value [] [] :=
  ⟨Keeps.refl b.heap, (List.append_nil _).symm, (List.append_nil _).symm, List.nodup_nil,
    fun _ ha => absurd ha List.not_mem_nil, fun _ ha => absurd ha List.not_mem_nil,
    fun _ ha => absurd ha List.not_mem_nil⟩

/-! ## One addition -/

theorem addItemToArray_logged (h : addItemToArray b json value = some b') :
    Keeps b.heap b'.heap ∧ b'.created = b.created ∧ b'.added = b.added ++ if value = 0 then [] else [value] := by
  rw [addItemToArray] at h
  split_ifs at h ⊢ with hvalue
  · cases h
    exact ⟨Keeps.refl b.heap, rfl, (List.append_nil _).symm⟩
  · obtain ⟨c, -, h⟩ := Option.bind_eq_some_iff.mp h
    split_ifs at h with hchild
    · obtain ⟨h', hmod, rfl⟩ := Option.map_eq_some_iff.mp h
      exact ⟨keeps_of_modify hmod fun _ => rfl, rfl, rfl⟩
    · obtain ⟨l, -, h⟩ := Option.bind_eq_some_iff.mp h
      obtain ⟨h', hmod, rfl⟩ := Option.map_eq_some_iff.mp h
      exact ⟨keeps_of_modify hmod fun _ => rfl, rfl, rfl⟩

/-- An addition adds the value, if there is one, where a key is known or none is needed. -/
theorem addItem_logged {isArray : Bool} {key : Option (Option (List UInt8))} {c : TCell JsonItem}
    (hjson : b.heap.read json = some c)
    (htype : c.payload.type = containerType isArray) (h : addItem b json key value = some b') :
    Keeps b.heap b'.heap ∧ b'.created = b.created ∧
      b'.added = b.added ++ if value ≠ 0 ∧ (isArray || key.isSome) = true then [value] else [] := by
  rw [addItem, hjson, Option.bind_some, htype] at h
  cases isArray with
  | true =>
    obtain ⟨hkeeps, hcreated, hadded⟩ := addItemToArray_logged h
    refine ⟨hkeeps, hcreated, hadded.trans ?_⟩
    by_cases hvalue : value = 0 <;> simp [hvalue]
  | false =>
    rw [if_neg (by decide)] at h
    cases key with
    | none =>
      cases h
      exact ⟨Keeps.refl b.heap, rfl, by simp⟩
    | some text =>
      rw [addItemToObject] at h
      split_ifs at h with hvalue
      · cases h
        exact ⟨Keeps.refl b.heap, rfl, by simp [hvalue]⟩
      · obtain ⟨s, -, h⟩ := Option.bind_eq_some_iff.mp h
        obtain ⟨h₁, hmod, h⟩ := Option.bind_eq_some_iff.mp h
        obtain ⟨hkeeps, hcreated, hadded⟩ := addItemToArray_logged h
        refine ⟨(keeps_of_modify hmod fun _ => rfl).trans hkeeps, hcreated, hadded.trans ?_⟩
        simp [hvalue]

/-! ## One entry -/

theorem live_of_entry {n₁ a₁ : List ℕ} (hlog : Logged b b₁ value n₁ a₁)
    (hlive : value ≠ 0 → ∃ c, b.heap.read value = some c) (hkeeps : Keeps b₁.heap b₂.heap) {a : ℕ}
    (ha : a = value ∨ a ∈ n₁) (hne : a ≠ 0) : ∃ c, b₂.heap.read a = some c := by
  obtain rfl | hmem := ha
  · obtain ⟨c, hc⟩ := hlive hne
    obtain ⟨c', hc', -⟩ := (hlog.keeps.trans hkeeps) a c hc
    exact ⟨c', hc'⟩
  · obtain ⟨c, hc⟩ := hlog.live a hmem
    obtain ⟨c', hc', -⟩ := hkeeps a c hc
    exact ⟨c', hc'⟩

theorem newer_of_entry {n₁ a₁ n₃ a₃ : List ℕ} (hlog₁ : Logged b b₁ value n₁ a₁)
    (hlive : value ≠ 0 → ∃ c, b.heap.read value = some c) (hkeeps : Keeps b₁.heap b₂.heap)
    (hlog₃ : Logged b₂ b₃ r n₃ a₃) : ∀ a ∈ n₃, a ≠ value ∧ a ∉ n₁ := by
  intro a ha
  have hne : a ≠ 0 := by
    obtain ⟨c, hc⟩ := hlog₃.live a ha
    exact ne_zero_of_read hc
  have hnot : ¬ (a = value ∨ a ∈ n₁) := by
    intro hor
    obtain ⟨c, hc⟩ := live_of_entry hlog₁ hlive hkeeps hor hne
    rw [hlog₃.fresh a ha] at hc
    cases hc
  rwa [not_or] at hnot

/-- Three runs in a row, the second of which creates nothing and adds at most `r`. -/
theorem Logged.append {n₁ a₁ a₂ n₃ a₃ : List ℕ} (hlog₁ : Logged b b₁ value n₁ a₁) (hkeeps : Keeps b₁.heap b₂.heap)
    (hcreated : b₂.created = b₁.created) (hadded : b₂.added = b₁.added ++ a₂) (h₂ : ∀ a ∈ a₂, a ≠ 0 ∧ a = r)
    (hr : r = value ∨ r ∈ n₁) (hnew : ∀ a ∈ n₃, a ≠ value ∧ a ∉ n₁) (hlog₃ : Logged b₂ b₃ r n₃ a₃) :
    Logged b b₃ value (n₁ ++ n₃) (a₁ ++ a₂ ++ a₃) := by
  refine ⟨hlog₁.keeps.trans (hkeeps.trans hlog₃.keeps), ?_, ?_, ?_, fun a ha => ?_, fun a ha => ?_, fun a ha => ?_⟩
  · rw [hlog₃.created, hcreated, hlog₁.created, List.append_assoc]
  · rw [hlog₃.added, hadded, hlog₁.added]
    simp only [List.append_assoc]
  · exact List.nodup_append.mpr ⟨hlog₁.nodup, hlog₃.nodup, fun a ha c hc e => (hnew c hc).2 (e ▸ ha)⟩
  · rw [List.mem_append] at ha
    obtain ha | ha := ha
    · exact hlog₁.fresh a ha
    · exact (hlog₁.keeps.trans hkeeps).none (hlog₃.fresh a ha)
  · rw [List.mem_append] at ha
    obtain ha | ha := ha
    · obtain ⟨c, hc⟩ := hlog₁.live a ha
      obtain ⟨c', hc', -⟩ := (hkeeps.trans hlog₃.keeps) a c hc
      exact ⟨c', hc'⟩
    · exact hlog₃.live a ha
  · rw [List.mem_append, List.mem_append] at ha
    rw [List.mem_append]
    obtain (ha | ha) | ha := ha
    · exact ⟨(hlog₁.adds a ha).1, (hlog₁.adds a ha).2.imp_right .inl⟩
    · obtain ⟨hne, rfl⟩ := h₂ a ha
      exact ⟨hne, hr.imp_right .inl⟩
    · obtain ⟨hne, rfl | hmem⟩ := hlog₃.adds a ha
      · exact ⟨hne, hr.imp_right .inl⟩
      · exact ⟨hne, .inr (.inr hmem)⟩

section Counts

variable {n₁ a₁ a₂ n₃ a₃ : List ℕ} (h₂ : ∀ a ∈ a₂, a ≠ 0 ∧ a = r) (hnew : ∀ a ∈ n₃, a ≠ value ∧ a ∉ n₁)
include h₂ hnew

theorem count_older (h₃ : ∀ a ∈ a₃, a ≠ 0 ∧ (a = r ∨ a ∈ n₃)) {a : ℕ} (ha : a = value ∨ a ∈ n₁) (hne : a ≠ r) :
    (a₁ ++ a₂ ++ a₃).count a = a₁.count a := by
  have hzero₂ : a₂.count a = 0 := List.count_eq_zero.mpr fun hmem => hne (h₂ a hmem).2
  have hzero₃ : a₃.count a = 0 := List.count_eq_zero.mpr fun hmem =>
    (h₃ a hmem).2.elim hne fun hn => ha.elim (hnew a hn).1 (hnew a hn).2
  rw [List.count_append, List.count_append, hzero₂, hzero₃]
  rfl

theorem count_newer (h₁ : ∀ a ∈ a₁, a ≠ 0 ∧ (a = value ∨ a ∈ n₁)) (hr : r = value ∨ r ∈ n₁) {a : ℕ} (ha : a ∈ n₃) :
    (a₁ ++ a₂ ++ a₃).count a = a₃.count a := by
  have hzero₁ : a₁.count a = 0 := List.count_eq_zero.mpr fun hmem => (h₁ a hmem).2.elim (hnew a ha).1 (hnew a ha).2
  have hzero₂ : a₂.count a = 0 := by
    refine List.count_eq_zero.mpr fun hmem => ?_
    obtain ⟨-, rfl⟩ := h₂ a hmem
    exact hr.elim (hnew a ha).1 (hnew a ha).2
  rw [List.count_append, List.count_append, hzero₁, hzero₂, Nat.zero_add]

end Counts

theorem pend_of_new {hasKey : Bool} {a₃ : List ℕ} (hr : r ≠ 0) (hwait : st ≠ .waiting)
    (hcount : (if r ≠ 0 ∧ hasKey = true then [r] else []).count r + a₃.count r = 1) :
    ∃ st₁ st₂, st.make true = some st₁ ∧ st₁.put hasKey = some st₂ ∧ (r = 0 ↔ st₂ = .fresh) ∧
      (st₂ = .waiting → a₃.count r = 1) ∧ (st₂ = .added → a₃.count r = 0) := by
  refine ⟨.waiting, if hasKey then .added else .waiting, ?_, ?_, ?_, ?_, ?_⟩
  · rw [Pend.make, if_pos rfl, if_neg hwait]
  · cases hasKey <;> rfl
  · cases hasKey <;> simp [hr]
  · cases hasKey <;> simp_all
  · cases hasKey <;> simp_all

theorem pend_of_old {hasKey : Bool} {a₃ : List ℕ} (hst : r = 0 ↔ st = .fresh)
    (hwait : st = .waiting → (if r ≠ 0 ∧ hasKey = true then [r] else []).count r + a₃.count r = 1)
    (hadd : st = .added → (if r ≠ 0 ∧ hasKey = true then [r] else []).count r + a₃.count r = 0) :
    ∃ st₁ st₂, st.make false = some st₁ ∧ st₁.put hasKey = some st₂ ∧ (r = 0 ↔ st₂ = .fresh) ∧
      (st₂ = .waiting → a₃.count r = 1) ∧ (st₂ = .added → a₃.count r = 0) := by
  cases st with
  | fresh =>
    have hr : r = 0 := hst.mpr rfl
    exact ⟨.fresh, .fresh, rfl, by cases hasKey <;> rfl, ⟨fun _ => rfl, fun _ => hr⟩,
      (fun h => by cases h), fun h => by cases h⟩
  | waiting =>
    have hr : r ≠ 0 := fun h => by cases hst.mp h
    have htotal := hwait rfl
    refine ⟨.waiting, if hasKey then .added else .waiting, rfl, ?_, ?_, ?_, ?_⟩
    · cases hasKey <;> rfl
    · cases hasKey <;> simp [hr]
    · cases hasKey <;> simp_all
    · cases hasKey <;> simp_all
  | added =>
    have hr : r ≠ 0 := fun h => by cases hst.mp h
    have htotal := hadd rfl
    cases hasKey with
    | true => simp [hr] at htotal
    | false =>
      refine ⟨.added, .added, rfl, rfl, ⟨fun h => absurd h hr, fun h => by cases h⟩, (fun h => by cases h),
        fun _ => ?_⟩
      simpa using htotal

/-- An entry makes the value `r`, a new item or the old one, then adds it; then come the other entries. -/
theorem logged_entry {supported hasKey : Bool} {n₁ a₁ n₃ a₃ : List ℕ} (hlog₁ : Logged b b₁ value n₁ a₁)
    (hentry : if supported then r ∈ n₁ ∧ ∀ a ∈ a₁, a ∈ n₁ ∧ a ≠ r else r = value ∧ n₁ = [] ∧ a₁ = [])
    (hlive : value ≠ 0 → ∃ c, b.heap.read value = some c) (hkeeps : Keeps b₁.heap b₂.heap)
    (hcreated : b₂.created = b₁.created)
    (hadded : b₂.added = b₁.added ++ if r ≠ 0 ∧ hasKey = true then [r] else []) (hlog₃ : Logged b₂ b₃ r n₃ a₃) :
    ∃ new adds, Logged b b₃ value new adds ∧ ∀ st : Pend, (value = 0 ↔ st = .fresh) →
      (∀ a ∈ new, adds.count a = 1) → (st = .waiting → adds.count value = 1) → (st = .added → adds.count value = 0) →
      (∀ a ∈ n₁, a ≠ r → a₁.count a = 1) ∧ (∀ a ∈ n₃, a₃.count a = 1) ∧
        ∃ st₁ st₂, st.make supported = some st₁ ∧ st₁.put hasKey = some st₂ ∧ (r = 0 ↔ st₂ = .fresh) ∧
          (st₂ = .waiting → a₃.count r = 1) ∧ (st₂ = .added → a₃.count r = 0) := by
  obtain ⟨a₂, ha₂⟩ : ∃ a₂, a₂ = if r ≠ 0 ∧ hasKey = true then [r] else [] := ⟨_, rfl⟩
  rw [← ha₂] at hadded
  have h₂ : ∀ a ∈ a₂, a ≠ 0 ∧ a = r := by
    intro a ha
    rw [ha₂] at ha
    split_ifs at ha with hadd
    · rw [List.mem_singleton] at ha
      exact ⟨ha ▸ hadd.1, ha⟩
    · cases ha
  have hnew := newer_of_entry hlog₁ hlive hkeeps hlog₃
  have hr : r = value ∨ r ∈ n₁ := by
    cases supported with
    | true => exact .inr hentry.1
    | false => exact .inl hentry.1
  refine ⟨n₁ ++ n₃, a₁ ++ a₂ ++ a₃, hlog₁.append hkeeps hcreated hadded h₂ hr hnew hlog₃,
    fun st hst hcount hwait hadd => ⟨fun a ha hne => ?_, fun a ha => ?_, ?_⟩⟩
  · have holder : (a₁ ++ a₂ ++ a₃).count a = a₁.count a := count_older h₂ hnew hlog₃.adds (.inr ha) hne
    rw [← holder]
    exact hcount a (List.mem_append_left n₃ ha)
  · rw [← count_newer h₂ hnew hlog₁.adds hr ha]
    exact hcount a (List.mem_append_right n₁ ha)
  · cases supported with
    | true =>
      obtain ⟨hrn, ha₁⟩ := hentry
      have hr0 : r ≠ 0 := by
        obtain ⟨c, hc⟩ := hlog₁.live r hrn
        exact ne_zero_of_read hc
      -- an old value that waits would never be added
      have hnotwait : st ≠ .waiting := by
        intro h
        have hvalue0 : value ≠ 0 := by
          rw [Ne, hst, h]
          decide
        have hvn : value ∉ n₁ := by
          intro hmem
          obtain ⟨c, hc⟩ := hlive hvalue0
          rw [hlog₁.fresh value hmem] at hc
          cases hc
        have hne : value ≠ r := fun e => hvn (e ▸ hrn)
        have htotal := hwait h
        have hzero : a₁.count value = 0 := List.count_eq_zero.mpr fun hmem => hvn (ha₁ value hmem).1
        rw [count_older h₂ hnew hlog₃.adds (.inl rfl) hne, hzero] at htotal
        cases htotal
      have htotal := hcount r (List.mem_append_left n₃ hrn)
      have hzero : a₁.count r = 0 := List.count_eq_zero.mpr fun hmem => (ha₁ r hmem).2 rfl
      rw [List.count_append, List.count_append, hzero, Nat.zero_add, ha₂] at htotal
      exact pend_of_new hr0 hnotwait htotal
    | false =>
      obtain ⟨rfl, rfl, rfl⟩ := hentry
      rw [List.nil_append, List.count_append, ha₂] at hwait hadd
      exact pend_of_old hst hwait hadd

/-! ## The loop -/

variable {malloc : Malloc (TCell JsonItem)}

theorem create_eq_some {item : JsonItem} (h : create malloc b item = some (r, b')) (value : ℕ) :
    Logged b b' value [r] [] ∧ b'.heap.read r = some ⟨item, 0, 0⟩ := by
  rw [create, alloc] at h
  cases hpick : malloc.pick b.heap with
  | none =>
    rw [hpick] at h
    cases h
  | some a =>
    rw [hpick] at h
    simp only [Option.map_some, Option.some.injEq, Prod.mk.injEq] at h
    obtain ⟨rfl, rfl⟩ := h
    obtain ⟨ha0, hmem⟩ := malloc.fresh b.heap a hpick
    have hfresh : b.heap.read a = none := by
      rw [read_of_ne ha0]
      exact Finmap.lookup_eq_none.mpr hmem
    have hread := read_insert b.heap ha0 (⟨item, 0, 0⟩ : TCell JsonItem)
    have hself : Heap.read (b.heap.insert a ⟨item, 0, 0⟩) a = some ⟨item, 0, 0⟩ := by rw [hread, if_pos rfl]
    refine ⟨⟨fun x c hc => ⟨c, ?_, rfl⟩, rfl, (List.append_nil _).symm, List.nodup_singleton a, fun x hx => ?_,
      fun x hx => ?_, fun x hx => absurd hx List.not_mem_nil⟩, hself⟩
    · dsimp only
      rw [hread, if_neg, hc]
      rintro rfl
      rw [hfresh] at hc
      cases hc
    · rw [List.mem_singleton.mp hx, hfresh]
    · rw [List.mem_singleton.mp hx]
      exact ⟨_, hself⟩

theorem nextValue_logged {v : LuaLeaf} (h : nextValue malloc b v value = some (r, b')) :
    ∃ n, Logged b b' value n [] ∧
      if (leafItem v).isSome then r ∈ n ∧ ∀ a ∈ ([] : List ℕ), a ∈ n ∧ a ≠ r else r = value ∧ n = [] ∧
        ([] : List ℕ) = [] := by
  cases hv : leafItem v with
  | none =>
    rw [nextValue, hv] at h
    cases h
    exact ⟨[], Logged.refl b value, rfl, rfl, rfl⟩
  | some item =>
    rw [nextValue, hv] at h
    exact ⟨[r], (create_eq_some h value).1, List.mem_singleton_self r, fun a ha => absurd ha List.not_mem_nil⟩

theorem Logged.cons {b₀ : Build} {c : TCell JsonItem} {n₁ a₁ : List ℕ} (hlog₀ : Logged b b₀ value [r] [])
    (hread₀ : b₀.heap.read r = some c) (hlog₁ : Logged b₀ b₁ 0 n₁ a₁) :
    r ∉ n₁ ∧ Logged b b₁ value (r :: n₁) a₁ ∧ ∀ a ∈ a₁, a ∈ r :: n₁ ∧ a ≠ r := by
  have hrn : r ∉ n₁ := by
    intro hmem
    have := hlog₁.fresh r hmem
    rw [hread₀] at this
    cases this
  have hmem₁ : ∀ a ∈ a₁, a ≠ 0 ∧ a ∈ n₁ := fun a ha =>
    ⟨(hlog₁.adds a ha).1, (hlog₁.adds a ha).2.resolve_left (hlog₁.adds a ha).1⟩
  refine ⟨hrn, ⟨hlog₀.keeps.trans hlog₁.keeps, ?_, ?_, List.nodup_cons.mpr ⟨hrn, hlog₁.nodup⟩, fun a ha => ?_,
    fun a ha => ?_, fun a ha => ?_⟩, fun a ha => ⟨List.mem_cons_of_mem r (hmem₁ a ha).2, ?_⟩⟩
  · rw [hlog₁.created, hlog₀.created, List.append_assoc, List.singleton_append]
  · rw [hlog₁.added, hlog₀.added, List.append_nil]
  · obtain rfl | hmem := List.mem_cons.mp ha
    · exact hlog₀.fresh a (List.mem_singleton_self a)
    · exact hlog₀.keeps.none (hlog₁.fresh a hmem)
  · obtain rfl | hmem := List.mem_cons.mp ha
    · obtain ⟨c', hc', -⟩ := hlog₁.keeps a _ hread₀
      exact ⟨c', hc'⟩
    · exact hlog₁.live a hmem
  · exact ⟨(hmem₁ a ha).1, .inr (List.mem_cons_of_mem r (hmem₁ a ha).2)⟩
  · rintro rfl
    exact hrn (hmem₁ a ha).2

/-- **A run of the loop**: it has room, and if it adds each new item once, the table is tidy. -/
theorem loop_logged (t : LuaTable) : ∀ {isArray : Bool} {json value : ℕ} {b b' : Build} {room : ℕ}
    {key : Option (List UInt8)} {c : TCell JsonItem}, textLoop malloc json t room key value b = some b' →
    b.heap.read json = some c → c.payload.type = containerType isArray → (value ≠ 0 → ∃ c, b.heap.read value = some c) →
    t.slots ≤ max 1 room ∧ ∃ new adds, Logged b b' value new adds ∧ ∀ st : Pend, (value = 0 ↔ st = .fresh) →
      (∀ a ∈ new, adds.count a = 1) → (st = .waiting → adds.count value = 1) → (st = .added → adds.count value = 0) →
      Scan (isArray || key.isSome) st t.marks ∧ t.SubTidy := by
  induction t with
  | nil =>
    intro isArray json value b b' room key c hrun _ _ _
    cases hrun
    refine ⟨le_max_left 1 room, [], [], Logged.refl b value, fun st _ _ hwait _ => ⟨?_, trivial⟩⟩
    intro h
    exact absurd (hwait h) (by simp)
  | leaf k v rest ih =>
    intro isArray json value b b₃ room key c hrun hjson htype hlive
    rw [textLoop] at hrun
    split_ifs at hrun with hroom
    obtain ⟨⟨r, b₁⟩, hvalue, hrun⟩ := Option.bind_eq_some_iff.mp hrun
    obtain ⟨b₂, hadd, hrun⟩ := Option.bind_eq_some_iff.mp hrun
    have hslots := Nat.not_lt.mp hroom
    obtain ⟨n₁, hlog₁, hentry⟩ := nextValue_logged hvalue
    obtain ⟨c₁, hjson₁, htype₁⟩ := hlog₁.keeps json c hjson
    obtain ⟨hkeeps, hcreated, hadded⟩ := addItem_logged hjson₁ (htype₁.trans htype) hadd
    rw [Option.isSome_map] at hadded
    obtain ⟨c₂, hjson₂, htype₂⟩ := hkeeps json c₁ hjson₁
    have hr : r = value ∨ r ∈ n₁ := by
      split_ifs at hentry
      · exact .inr hentry.1
      · exact .inl hentry.1
    have hliver : r ≠ 0 → ∃ c, b₂.heap.read r = some c := live_of_entry hlog₁ hlive hkeeps hr
    obtain ⟨hrest, n₃, a₃, hlog₃, htail⟩ := ih hrun hjson₂ (htype₂.trans (htype₁.trans htype)) hliver
    obtain ⟨new, adds, hlog, hall⟩ := logged_entry hlog₁ hentry hlive hkeeps hcreated hadded hlog₃
    refine ⟨?_, new, adds, hlog, fun st hst hcount hwait hadd => ?_⟩
    · rw [LuaTable.slots]
      exact max_le (le_max_of_le_right hslots) hrest
    · obtain ⟨-, hcount₃, st₁, st₂, hmake, hput, hst₂, hwait₂, hadd₂⟩ := hall st hst hcount hwait hadd
      obtain ⟨hscan, hsub⟩ := htail st₂ hst₂ hcount₃ hwait₂ hadd₂
      rw [keyed_or] at hput hscan
      exact ⟨⟨st₁, st₂, hmake, hput, hscan⟩, hsub⟩
  | table k t rest iht ihr =>
    intro isArray json value b b₃ room key c hrun hjson htype hlive
    have hroom : ¬ room < k.slots := by
      intro h
      rw [textLoop, if_pos h] at hrun
      cases hrun
    have htwo := k.two_le_slots
    rw [textLoop, if_neg hroom] at hrun
    obtain ⟨a, harray, hrun⟩ := Option.bind_eq_some_iff.mp hrun
    obtain ⟨⟨r, b₀⟩, hcreate, hrun⟩ := Option.bind_eq_some_iff.mp hrun
    obtain ⟨b₁, hinner, hrun⟩ := Option.bind_eq_some_iff.mp hrun
    obtain ⟨b₂, hadd, hloop⟩ := Option.bind_eq_some_iff.mp hrun
    dsimp only at hinner hadd hloop
    split_ifs at hinner with hroom'
    have hslots := Nat.not_lt.mp hroom
    have ha : a = t.isArray := by
      rw [tableIsArray] at harray
      split_ifs at harray
      exact (Option.some.inj harray).symm
    subst ha
    -- the value's own conversion
    obtain ⟨hlog₀, hread₀⟩ := create_eq_some hcreate value
    obtain ⟨hslotst, n₁, a₁, hlog₁, htail₁⟩ := iht hinner hread₀ rfl fun h => absurd rfl h
    obtain ⟨hrn, hlog, hadds⟩ := hlog₀.cons hread₀ hlog₁
    have hentry : if true then r ∈ r :: n₁ ∧ ∀ a ∈ a₁, a ∈ r :: n₁ ∧ a ≠ r else r = value ∧ r :: n₁ = [] ∧ a₁ = [] := by
      rw [if_pos rfl]
      exact ⟨List.mem_cons_self, hadds⟩
    -- its addition, and the other entries
    obtain ⟨c₁, hjson₁, htype₁⟩ := hlog.keeps json c hjson
    obtain ⟨hkeeps, hcreated, hadded⟩ := addItem_logged hjson₁ (htype₁.trans htype) hadd
    rw [Option.isSome_map] at hadded
    obtain ⟨c₂, hjson₂, htype₂⟩ := hkeeps json c₁ hjson₁
    obtain ⟨hrest, n₃, a₃, hlog₃, htail⟩ := ihr hloop hjson₂ (htype₂.trans (htype₁.trans htype))
      (live_of_entry hlog hlive hkeeps (.inr List.mem_cons_self))
    obtain ⟨new, adds, hlog', hall⟩ := logged_entry hlog hentry hlive hkeeps hcreated hadded hlog₃
    refine ⟨?_, new, adds, hlog', fun st hst hcount hwait hadd => ?_⟩
    · rw [LuaTable.slots]
      refine max_le (max_le (le_max_of_le_right hslots) (le_max_of_le_right ?_)) hrest
      omega
    · obtain ⟨hcount₁, hcount₃, st₁, st₂, hmake, hput, hst₂, hwait₂, hadd₂⟩ := hall st hst hcount hwait hadd
      obtain ⟨hscan, hsub⟩ := htail st₂ hst₂ hcount₃ hwait₂ hadd₂
      obtain ⟨hscan₁, hsub₁⟩ := htail₁ .fresh ⟨fun _ => rfl, fun _ => rfl⟩
        (fun a ha => hcount₁ a (List.mem_cons_of_mem r ha) fun e => hrn (e ▸ ha)) (fun h => by cases h)
        (fun h => by cases h)
      rw [Option.isSome_none, Bool.or_false] at hscan₁
      rw [keyed_or] at hput hscan
      exact ⟨⟨st₁, st₂, hmake, hput, hscan⟩, ⟨(scan_iff_addsOnce _ _).mp hscan₁, hsub₁⟩, hsub⟩

/-! ## The conversion -/

/-- A conversion that ends: it had room, and if it added each new item once, the table is tidy. -/
theorem textBuild_logged {room : ℕ} {h : Heap (TCell JsonItem)} {t : LuaTable}
    (hrun : textBuild malloc room h t = some (json, b)) :
    t.slots ≤ room ∧ (b.created.Nodup → b.added.Perm b.created → t.Tidy) := by
  obtain ⟨a, harray, hrun⟩ := Option.bind_eq_some_iff.mp hrun
  obtain ⟨⟨r, h₁⟩, halloc, hrun⟩ := Option.bind_eq_some_iff.mp hrun
  obtain ⟨b', hloop, heq⟩ := Option.map_eq_some_iff.mp hrun
  dsimp only at hloop heq
  obtain ⟨rfl, rfl⟩ := Prod.mk.inj heq
  have ha : a = t.isArray := by
    rw [tableIsArray] at harray
    split_ifs at harray
    exact (Option.some.inj harray).symm
  subst ha
  have hroot : h₁.read r = some ⟨newItem (containerType t.isArray), 0, 0⟩ := by
    have hcreate : create malloc ⟨h, [], []⟩ (newItem (containerType t.isArray)) = some (r, ⟨h₁, [r], []⟩) := by
      rw [create, halloc, Option.map_some]
      rfl
    exact (create_eq_some hcreate 0).2
  split_ifs at hloop with hroom
  obtain ⟨hslots, new, adds, hlog, htail⟩ := loop_logged t hloop hroot rfl fun h => absurd rfl h
  refine ⟨by omega, fun hnd hperm => ?_⟩
  have hcreated : b'.created = new := by rw [hlog.created, List.nil_append]
  have hadded : b'.added = adds := by rw [hlog.added, List.nil_append]
  rw [hcreated, hadded] at hperm
  obtain ⟨hscan, hsub⟩ := htail .fresh ⟨fun _ => rfl, fun _ => rfl⟩
    (fun a ha => by rw [hperm.count_eq, List.count_eq_one_of_mem hlog.nodup ha]) (fun h => by cases h)
    (fun h => by cases h)
  rw [Option.isSome_none, Bool.or_false] at hscan
  exact ⟨(scan_iff_addsOnce _ _).mp hscan, hsub⟩

end Sarah

import SarahClient.Lib.StackBuffer
import SarahClient.Lib.StringHeap

/-!
# Texts behind pointers, added to a buffer on the stack

A text is read when its length is taken and again when it is copied; in between the buffer may push its box, which is an
allocation that may run the collector.

* `HeapWriter`, `addText`, `addTexts`: the buffer and the strings, and additions of texts behind pointers;
* `addTexts_eq_some`: what additions do to the buffer; `addTexts_of_fits`: additions without an allocation;
* `BoxSafe`: every string fits the buffer in which it finds its place;
* **`addTexts_of_boxSafe`**, **`boxSafe_of_addTexts`**: then, and only then, the texts are added.
-/

namespace StringHeap

open StackBuffer

variable {α β : Type}

/-- The buffer, and the strings. -/
structure HeapWriter (α β : Type) where
  buf : State α β
  heap : Strings β

/-- An addition of cells; a new box is an allocation. -/
def addBytes (gc : ℕ → Bool) (bs : List β) (w : HeapWriter α β) : Option (HeapWriter α β) :=
  (add w.buf bs).map fun buf => ⟨buf, if buf.onStack = w.buf.onStack then w.heap else w.heap.collect gc none⟩

/-- An addition of the text behind a pointer. -/
def addText (gc : ℕ → Bool) (ptr : TextPtr β) (w : HeapWriter α β) : Option (HeapWriter α β) :=
  (w.heap.deref ptr).bind fun s => (addBytes gc s w).bind fun w => (w.heap.deref ptr).map fun _ => w

/-- Several additions, one after the other. -/
def addTexts (gc : ℕ → Bool) : List (TextPtr β) → HeapWriter α β → Option (HeapWriter α β)
  | [], w => some w
  | ptr :: rest, w => (addText gc ptr w).bind (addTexts gc rest)

variable {gc : ℕ → Bool}

theorem addTexts_append (ptrs rest : List (TextPtr β)) (w : HeapWriter α β) :
    addTexts gc (ptrs ++ rest) w = (addTexts gc ptrs w).bind (addTexts gc rest) := by
  induction ptrs generalizing w with
  | nil => rfl
  | cons ptr ptrs ih =>
    rw [List.cons_append, addTexts, addTexts, Option.bind_assoc]
    exact Option.bind_congr fun w' _ => ih w'

/-- What an addition does to the buffer; strings that it leaves were there before. -/
theorem addText_eq_some {ptr : TextPtr β} {w w' : HeapWriter α β} (h : addText gc ptr w = some w') :
    (∃ s, w.heap.deref ptr = some s ∧ w'.heap.deref ptr = some s ∧ add w.buf s = some w'.buf) ∧
      (w'.heap = w.heap ∧ w'.buf.onStack = w.buf.onStack ∨ w'.heap = w.heap.collect gc none) := by
  obtain ⟨s, hs, h⟩ := Option.bind_eq_some_iff.mp h
  obtain ⟨w₁, hadd, h⟩ := Option.bind_eq_some_iff.mp h
  obtain ⟨buf, hbuf, rfl⟩ := Option.map_eq_some_iff.mp hadd
  obtain ⟨t, ht, rfl⟩ := Option.map_eq_some_iff.mp h
  by_cases hon : buf.onStack = w.buf.onStack
  · rw [if_pos hon] at ht ⊢
    exact ⟨⟨s, hs, hs, hbuf⟩, .inl ⟨rfl, hon⟩⟩
  · rw [if_neg hon] at ht ⊢
    obtain rfl : s = t := Option.some.inj (hs.symm.trans (Strings.deref_of_collect ht))
    exact ⟨⟨s, hs, ht, hbuf⟩, .inr rfl⟩

theorem deref_of_addText {ptr q : TextPtr β} {w w' : HeapWriter α β} (h : addText gc ptr w = some w') {s : List β}
    (hs : w'.heap.deref q = some s) : w.heap.deref q = some s := by
  rcases (addText_eq_some h).2 with ⟨heq, -⟩ | heq
  · exact heq ▸ hs
  · rw [heq] at hs
    exact Strings.deref_of_collect hs

/-- **What additions do to the buffer.** -/
theorem addTexts_eq_some : ∀ (ptrs : List (TextPtr β)) {w w' : HeapWriter α β}, addTexts gc ptrs w = some w' →
    (∃ cs, List.Forall₂ (fun ptr c => w.heap.deref ptr = some c) ptrs cs ∧ addAll cs w.buf = some w'.buf) ∧
      ∀ q s, w'.heap.deref q = some s → w.heap.deref q = some s
  | [], w, w', h => by
    cases h
    exact ⟨⟨[], List.Forall₂.nil, rfl⟩, fun _ _ hs => hs⟩
  | ptr :: rest, w, w', h => by
    obtain ⟨w₁, hadd, h⟩ := Option.bind_eq_some_iff.mp h
    obtain ⟨⟨cs, hcs, hall⟩, hheap⟩ := addTexts_eq_some rest h
    obtain ⟨⟨s, hs, -, hbuf⟩, -⟩ := addText_eq_some hadd
    refine ⟨⟨s :: cs, List.Forall₂.cons hs ?_, ?_⟩, fun q t ht => deref_of_addText hadd (hheap q t ht)⟩
    · exact hcs.imp fun q c hq => deref_of_addText hadd hq
    · rw [addAll, hbuf, Option.bind_some, hall]

theorem exists_of_forall₂ {A B : Type} {R : A → B → Prop} {l : List A} {l' : List B} (h : List.Forall₂ R l l') {a : A}
    (ha : a ∈ l) : ∃ b ∈ l', R a b := by
  induction h with
  | nil => exact absurd ha List.not_mem_nil
  | cons hab _ ih =>
    rcases List.mem_cons.mp ha with rfl | ha
    · exact ⟨_, List.mem_cons_self, hab⟩
    · obtain ⟨b, hb, hR⟩ := ih ha
      exact ⟨b, List.mem_cons_of_mem _ hb, hR⟩

theorem deref_of_addTexts {ptrs : List (TextPtr β)} {w w' : HeapWriter α β} (h : addTexts gc ptrs w = some w')
    {ptr : TextPtr β} (hptr : ptr ∈ ptrs) : ∃ c, w.heap.deref ptr = some c := by
  obtain ⟨⟨cs, hcs, -⟩, -⟩ := addTexts_eq_some ptrs h
  obtain ⟨c, -, hc⟩ := exists_of_forall₂ hcs hptr
  exact ⟨c, hc⟩

theorem addTexts_of_fits : ∀ {ptrs : List (TextPtr β)} {cs : List (List β)} {w : HeapWriter α β},
    List.Forall₂ (fun ptr c => w.heap.deref ptr = some c) ptrs cs →
    w.buf.text.length + cs.flatten.length ≤ w.buf.size →
      addTexts gc ptrs w = some ⟨{ w.buf with text := w.buf.text ++ cs.flatten }, w.heap⟩
  | [], [], w, _, _ => by
    rw [List.flatten_nil, List.append_nil]
    rfl
  | ptr :: ptrs, c :: cs, w, .cons hc hcs, hfit => by
    rw [List.flatten_cons, List.length_append] at hfit
    have hone : addText gc ptr w = some ⟨{ w.buf with text := w.buf.text ++ c }, w.heap⟩ := by
      rw [addText, hc, Option.bind_some, addBytes, add_of_fits (by omega), Option.map_some, Option.bind_some]
      dsimp only
      rw [if_pos rfl, hc, Option.map_some]
    have hrest := @addTexts_of_fits ptrs cs ⟨{ w.buf with text := w.buf.text ++ c }, w.heap⟩ hcs
      (by dsimp only; rw [List.length_append]; omega)
    rw [addTexts, hone, Option.bind_some, hrest, List.flatten_cons, ← List.append_assoc]

/-! ## The box -/

/-- In a buffer of `size` cells that has no box yet and holds `len` of them, the strings find their places without
one. -/
def BoxSafe (size : ℕ) : ℕ → List (TextPtr β × List β) → Prop
  | _, [] => True
  | len, (ptr, s) :: rest => (ptr.IsObject → len + s.length ≤ size) ∧ BoxSafe size (len + s.length) rest

theorem boxSafe_of_static {size : ℕ} : ∀ {len : ℕ} {ps : List (TextPtr β × List β)},
    (∀ q ∈ ps, ¬ q.1.IsObject) → BoxSafe size len ps
  | _, [], _ => trivial
  | _, q :: _, hall => ⟨fun hobj => absurd hobj (hall q List.mem_cons_self),
      boxSafe_of_static fun q' hq => hall q' (List.mem_cons_of_mem _ hq)⟩

theorem BoxSafe.static {size : ℕ} : ∀ {len : ℕ} {ps : List (TextPtr β × List β)}, BoxSafe size len ps → size < len →
    ∀ q ∈ ps, ¬ q.1.IsObject
  | _, [], _, _ => fun _ hq => absurd hq List.not_mem_nil
  | len, (ptr, s) :: rest, h, hlen => by
    intro q hq hobj
    rcases List.mem_cons.mp hq with rfl | hq
    · have := h.1 hobj
      omega
    · exact h.2.static (by omega) q hq hobj

theorem deref_static {h h' : Strings β} {ptr : TextPtr β} (hptr : ¬ ptr.IsObject) : h'.deref ptr = h.deref ptr := by
  cases ptr with
  | static s => rfl
  | object p => exact absurd trivial hptr

/-- An addition to a buffer with its box on top allocates nothing if the box is there or the text fits, and else it
pushes the box. -/
theorem addBytes_of_boxOnTop (gc : ℕ → Bool) {w : HeapWriter α β} (hbox : BoxOnTop w.buf)
    (hle : w.buf.text.length ≤ w.buf.size)
    (s : List β) : ∃ buf, add w.buf s = some buf ∧ BoxOnTop buf ∧ buf.text = w.buf.text ++ s ∧
      buf.text.length ≤ buf.size ∧
      (w.buf.onStack = true ∧ buf.onStack = true ∧ addBytes gc s w = some ⟨buf, w.heap⟩ ∨
        w.buf.onStack = false ∧ buf.onStack = false ∧ buf.size = w.buf.size ∧
          w.buf.text.length + s.length ≤ w.buf.size ∧ addBytes gc s w = some ⟨buf, w.heap⟩ ∨
        w.buf.onStack = false ∧ buf.onStack = true ∧ w.buf.size < w.buf.text.length + s.length ∧
          addBytes gc s w = some ⟨buf, w.heap.collect gc none⟩) := by
  obtain ⟨buf, hadd, hbox', hle', hstack, hfits⟩ := hbox.addAll hle [s]
  rw [addAll, Option.bind_eq_some_iff] at hadd
  obtain ⟨buf', hadd, hnil⟩ := hadd
  cases hnil
  rw [List.flatten_singleton] at hfits
  have hcall : addBytes gc s w =
      some ⟨buf, if buf.onStack = w.buf.onStack then w.heap else w.heap.collect gc none⟩ := by
    rw [addBytes, hadd, Option.map_some]
  refine ⟨buf, hadd, hbox', (add_eq_some hadd).1, hle', ?_⟩
  rcases hstack with ⟨-, hon⟩ | ⟨hoff, -, hon⟩
  · rw [if_pos hon] at hcall
    cases hw : w.buf.onStack with
    | true => exact .inl ⟨rfl, hon.trans hw, hcall⟩
    | false =>
      have hfit := hfits (hon.trans hw)
      have hsize : buf = { w.buf with text := w.buf.text ++ s } := Option.some.inj (hadd.symm.trans (add_of_fits hfit))
      exact .inr (.inl ⟨rfl, hon.trans hw, by rw [hsize], hfit, hcall⟩)
  · rw [if_neg (by rw [hon, hoff]; decide)] at hcall
    refine .inr (.inr ⟨hoff, hon, ?_, hcall⟩)
    by_contra hfit
    have hsame : buf = { w.buf with text := w.buf.text ++ s } :=
      Option.some.inj (hadd.symm.trans (add_of_fits (Nat.not_lt.mp hfit)))
    rw [hsame] at hon
    exact Bool.false_ne_true (hoff.symm.trans hon)

/-- **Strings that find their places** are added, whenever the collector runs. -/
theorem addTexts_of_boxSafe : ∀ (ps : List (TextPtr β × List β)) {w : HeapWriter α β}, BoxOnTop w.buf →
    w.buf.text.length ≤ w.buf.size → (∀ q ∈ ps, w.heap.deref q.1 = some q.2) →
    (w.buf.onStack = true ∨ BoxSafe w.buf.size w.buf.text.length ps) →
      ∃ w', addTexts gc (ps.map Prod.fst) w = some w' ∧ addAll (ps.map Prod.snd) w.buf = some w'.buf
  | [], w, _, _, _, _ => ⟨w, rfl, rfl⟩
  | (ptr, s) :: ps, w, hbox, hle, hlive, hsafe => by
    have hs : w.heap.deref ptr = some s := hlive _ List.mem_cons_self
    have hrest : ∀ q ∈ ps, w.heap.deref q.1 = some q.2 := fun q hq => hlive q (List.mem_cons_of_mem _ hq)
    obtain ⟨buf, hadd, hbox', htext, hle', hcases⟩ := addBytes_of_boxOnTop gc hbox hle s
    have hlen : buf.text.length = w.buf.text.length + s.length := by rw [htext, List.length_append]
    -- the heap behind the first addition, where its text and the others are still live
    obtain ⟨heap, hcall, hptr, hothers, hsafe'⟩ : ∃ heap, addBytes gc s w = some ⟨buf, heap⟩ ∧ heap.deref ptr = some s ∧
        (∀ q ∈ ps, heap.deref q.1 = some q.2) ∧ (buf.onStack = true ∨ BoxSafe buf.size buf.text.length ps) := by
      rcases hcases with ⟨-, hon, hcall⟩ | ⟨hoff, -, hsize, -, hcall⟩ | ⟨hoff, hon, hgrow, hcall⟩
      · exact ⟨w.heap, hcall, hs, hrest, .inl hon⟩
      · refine ⟨w.heap, hcall, hs, hrest, .inr ?_⟩
        rw [hsize, hlen]
        exact (hsafe.resolve_left fun hon => Bool.false_ne_true (hoff.symm.trans hon)).2
      · have hbs : BoxSafe w.buf.size w.buf.text.length ((ptr, s) :: ps) :=
          hsafe.resolve_left fun hon => Bool.false_ne_true (hoff.symm.trans hon)
        have hstatic := hbs.2.static hgrow
        refine ⟨_, hcall, ?_, fun q hq => ?_, .inl hon⟩
        · rw [deref_static (h := w.heap) fun hobj => absurd (hbs.1 hobj) (Nat.not_le.mpr hgrow)]
          exact hs
        · rw [deref_static (h := w.heap) (hstatic q hq)]
          exact hrest q hq
    obtain ⟨w', hw', hbuf'⟩ := @addTexts_of_boxSafe ps ⟨buf, heap⟩ hbox' hle' hothers hsafe'
    refine ⟨w', ?_, ?_⟩
    · rw [List.map_cons, addTexts, addText, hs, Option.bind_some, hcall, Option.bind_some, hptr, Option.map_some,
        Option.bind_some, hw']
    · rw [List.map_cons, addAll, hadd, Option.bind_some, hbuf']

/-- Nothing is live behind a collection at every allocation but what is never freed. -/
theorem static_of_collected {h : Strings β} {ptr : TextPtr β} {s : List β}
    (hs : (h.collect (fun _ => true) none).deref ptr = some s) : ¬ ptr.IsObject := by
  cases ptr with
  | static t => exact id
  | object p =>
    have hnone : (h.collect (fun _ => true) none).objs p = none := Strings.objs_collect_of_ne (by exact nofun)
    exact absurd (hnone.symm.trans hs) nofun

/-- **Texts that are added** under a collection at every allocation find their places. -/
theorem boxSafe_of_addTexts : ∀ (ps : List (TextPtr β × List β)) {w w' : HeapWriter α β}, BoxOnTop w.buf →
    w.buf.text.length ≤ w.buf.size → w.buf.onStack = false → (∀ q ∈ ps, w.heap.deref q.1 = some q.2) →
    addTexts (fun _ => true) (ps.map Prod.fst) w = some w' → BoxSafe w.buf.size w.buf.text.length ps
  | [], _, _, _, _, _, _, _ => trivial
  | (ptr, s) :: ps, w, w', hbox, hle, hoff, hlive, h => by
    have hs : w.heap.deref ptr = some s := hlive _ List.mem_cons_self
    obtain ⟨w₁, hone, hrest⟩ := Option.bind_eq_some_iff.mp h
    obtain ⟨⟨t, ht, ht', hbuf⟩, -⟩ := addText_eq_some hone
    obtain rfl : s = t := Option.some.inj (hs.symm.trans ht)
    obtain ⟨buf, hadd, hbox', htext, hle', hcases⟩ := addBytes_of_boxOnTop (fun _ => true) hbox hle s
    have hw₁ : ∀ {heap}, addBytes (fun _ => true) s w = some ⟨buf, heap⟩ → w₁ = ⟨buf, heap⟩ := by
      intro heap hcall
      rw [addText, hs, Option.bind_some, hcall, Option.bind_some] at hone
      obtain ⟨u, -, hu⟩ := Option.map_eq_some_iff.mp hone
      exact hu.symm
    have hlen : buf.text.length = w.buf.text.length + s.length := by rw [htext, List.length_append]
    rcases hcases with ⟨hon, -⟩ | ⟨-, hoff', hsize, hfit, hcall⟩ | ⟨-, -, hgrow, hcall⟩
    · exact absurd (hoff.symm.trans hon) Bool.false_ne_true
    · have heq := hw₁ hcall
      subst heq
      have htail := @boxSafe_of_addTexts ps ⟨buf,
        w.heap⟩ w' hbox' hle' hoff' (fun q hq => hlive q (List.mem_cons_of_mem _ hq)) hrest
      dsimp only at htail
      rw [hsize, hlen] at htail
      exact ⟨fun _ => hfit, htail⟩
    · -- the box was pushed, and every string freed
      have heq := hw₁ hcall
      subst heq
      refine boxSafe_of_static fun q hq => ?_
      rcases List.mem_cons.mp hq with rfl | hq
      · exact static_of_collected ht'
      · obtain ⟨c, hc⟩ := deref_of_addTexts hrest (List.mem_map_of_mem hq)
        exact static_of_collected hc

/-! ## Finished buffers -/

/-- Texts that are never freed. -/
def staticPieces (cs : List (List β)) : List (TextPtr β × List β) := cs.map fun c => (.static c, c)

theorem staticPieces_fst (cs : List (List β)) : (staticPieces cs).map Prod.fst = cs.map .static := by
  rw [staticPieces, List.map_map]
  rfl

theorem staticPieces_snd (cs : List (List β)) : (staticPieces cs).map Prod.snd = cs := by
  rw [staticPieces, List.map_map]
  exact List.map_id cs

theorem staticPieces_static {cs : List (List β)} : ∀ q ∈ staticPieces cs, ¬ q.1.IsObject := by
  intro q hq
  obtain ⟨c, -, rfl⟩ := List.mem_map.mp hq
  exact id

theorem deref_staticPieces {cs : List (List β)} (h : Strings β) : ∀ q ∈ staticPieces cs, h.deref q.1 = some q.2 := by
  intro q hq
  obtain ⟨c, -, rfl⟩ := List.mem_map.mp hq
  rfl

theorem boxSafe_append_static {size : ℕ} {ps : List (TextPtr β × List β)} (hps : ∀ q ∈ ps, ¬ q.1.IsObject) :
    ∀ (qs : List (TextPtr β × List β)) {len : ℕ}, BoxSafe size len (qs ++ ps) ↔ BoxSafe size len qs
  | [], _ => iff_of_true (boxSafe_of_static hps) trivial
  | (_, _) :: qs, _ => and_congr_right fun _ => boxSafe_append_static hps qs

theorem boxSafe_congr {size : ℕ} {ps qs : List (TextPtr β × List β)}
    (h : List.Forall₂ (fun p q => (p.1.IsObject ↔ q.1.IsObject) ∧ p.2 = q.2) ps qs) :
    ∀ {len : ℕ}, BoxSafe size len ps ↔ BoxSafe size len qs := by
  induction h with
  | nil => exact Iff.rfl
  | @cons p q ps qs hpq _ ih =>
    intro len
    obtain ⟨ptr, s⟩ := p
    obtain ⟨ptr', s'⟩ := q
    obtain ⟨hobj, rfl⟩ : (ptr.IsObject ↔ ptr'.IsObject) ∧ s = s' := hpq
    exact and_congr (imp_congr_left hobj) ih

theorem finish_of_addAll {w w' : HeapWriter α β} {cs : List (List β)} (hbox : BoxOnTop w.buf)
    (hle : w.buf.text.length ≤ w.buf.size) (hall : addAll cs w.buf = some w'.buf) :
    (pushResult w'.buf).map Prod.fst = some (w.buf.text ++ cs.flatten) := by
  obtain ⟨buf, hadd, hbox', -⟩ := hbox.addAll hle cs
  obtain rfl : buf = w'.buf := Option.some.inj (hadd.symm.trans hall)
  obtain ⟨buf', hresult⟩ := hbox'.pushResult
  rw [hresult, Option.map_some, (size_of_addAll cs hall).1]

/-- **Strings that find their places** end up in the finished text. -/
theorem finish_of_boxSafe (gc : ℕ → Bool) (ps : List (TextPtr β × List β)) {w : HeapWriter α β} (hbox : BoxOnTop w.buf)
    (hle : w.buf.text.length ≤ w.buf.size) (hlive : ∀ q ∈ ps, w.heap.deref q.1 = some q.2)
    (hsafe : w.buf.onStack = true ∨ BoxSafe w.buf.size w.buf.text.length ps) :
    ((addTexts gc (ps.map Prod.fst) w).bind fun w => (pushResult w.buf).map Prod.fst) =
      some (w.buf.text ++ (ps.map Prod.snd).flatten) := by
  obtain ⟨w', hw', hall⟩ := @addTexts_of_boxSafe _ _ gc ps _ hbox hle hlive hsafe
  rw [hw', Option.bind_some, finish_of_addAll hbox hle hall]

theorem objs_of_addTexts {ptrs : List (TextPtr β)} {w w' : HeapWriter α β} (h : addTexts gc ptrs w = some w')
    (hobjs : ∀ p, w.heap.objs p = none) (p : ℕ) : w'.heap.objs p = none := by
  cases hp : w'.heap.objs p with
  | none => rfl
  | some s =>
    have hbefore := (addTexts_eq_some ptrs h).2 (.object p) s hp
    cases (hobjs p).symm.trans hbefore

end StringHeap

import Mathlib.Data.List.Basic

/-!
# A growing buffer whose storage lives on a stack

The buffer starts in a fixed block. When it outgrows the block it pushes a box on the stack of its caller, and from
then on it expects this box on top whenever it grows, and when it is finished.

* `State`, `add`, `addAll`, `pushResult`;
* `addAll_of_fits`, `addAll_grow`, `addAll_boxed`, `addAll_stuck`: what an addition does;
* `BoxOnTop`: the buffer can grow and be finished; `BoxOnTop.add`, `BoxOnTop.addAll`, `BoxOnTop.pushResult`;
* `Lost`: the buffer needs a box that is no longer on the stack; **`Lost.pushResult`**: it cannot be finished;
* `Kept`: what a caller keeps that adds admissible texts and pops and pushes values;
* `capacity`: the size after additions.
-/

namespace StackBuffer

/-- A place of the stack. -/
inductive Slot (α : Type)
  | val (a : α)
  | box
  deriving DecidableEq

/-- The stack, its top first, and the buffer. -/
structure State (α β : Type) where
  stack : List (Slot α)
  text : List β
  size : ℕ
  onStack : Bool

variable {α β : Type}

/-- Make room for `sz` more cells. -/
def prepare (st : State α β) (sz : ℕ) : Option (State α β) :=
  if st.size - st.text.length < sz then
    let newsize := if st.size * 2 - st.text.length < sz then st.text.length + sz else st.size * 2
    if st.onStack then
      match st.stack with
      | .box :: _ => some { st with size := newsize }
      | _ => none
    else some { st with stack := .box :: st.stack, size := newsize, onStack := true }
  else some st

/-- `luaL_addlstring`. -/
def add (st : State α β) (bs : List β) : Option (State α β) :=
  if bs.length = 0 then some st else (prepare st bs.length).map fun st => { st with text := st.text ++ bs }

/-- Additions one after the other. -/
def addAll : List (List β) → State α β → Option (State α β)
  | [], st => some st
  | bs :: rest, st => (add st bs).bind (addAll rest)

/-- The text of the finished buffer; the box is removed from the stack. -/
def pushResult (st : State α β) : Option (List β × State α β) :=
  if st.onStack then
    match st.stack with
    | .box :: rest => some (st.text, { st with stack := rest })
    | _ => none
  else some (st.text, st)

/-- A value is pushed. -/
def State.push (st : State α β) (a : α) : State α β := { st with stack := .val a :: st.stack }

/-- `lua_pop`. -/
def State.pop (st : State α β) (k : ℕ) : State α β := { st with stack := st.stack.drop k }

/-- The size after room for `sz` more cells has been made. -/
def newSize (size len sz : ℕ) : ℕ :=
  if size - len < sz then if size * 2 - len < sz then len + sz else size * 2 else size

/-! ## Additions -/

theorem add_of_fits {st : State α β} {bs : List β} (h : st.text.length + bs.length ≤ st.size) :
    add st bs = some { st with text := st.text ++ bs } := by
  unfold add
  by_cases h0 : bs.length = 0
  · rw [if_pos h0, List.length_eq_zero_iff.mp h0, List.append_nil]
  · rw [if_neg h0, prepare, if_neg (by omega)]
    rfl

theorem addAll_of_fits : ∀ (pieces : List (List β)) {st : State α β},
    st.text.length + pieces.flatten.length ≤ st.size →
      addAll pieces st = some { st with text := st.text ++ pieces.flatten }
  | [], st, _ => by rw [List.flatten_nil, List.append_nil]; rfl
  | bs :: rest, st, h => by
    rw [List.flatten_cons, List.length_append] at h
    have hrest : (st.text ++ bs).length + rest.flatten.length ≤ st.size := by
      rw [List.length_append]
      omega
    rw [addAll, add_of_fits (by omega), Option.bind_some, addAll_of_fits rest hrest, List.flatten_cons,
      List.append_assoc]

theorem length_append_le_newsize {text : List β} {size : ℕ} (bs : List β) (h : text.length ≤ size) :
    (text ++ bs).length ≤ if size * 2 - text.length < bs.length then text.length + bs.length else size * 2 := by
  rw [List.length_append]
  split_ifs <;> omega

theorem addAll_boxed : ∀ (pieces : List (List β)) (rest : List (Slot α)) {text : List β} {size : ℕ},
    text.length ≤ size →
    ∃ size', addAll pieces ⟨.box :: rest, text, size, true⟩ = some ⟨.box :: rest, text ++ pieces.flatten, size', true⟩ ∧
      text.length + pieces.flatten.length ≤ size' ∧ (text.length + pieces.flatten.length ≤ size → size' = size)
  | [], rest, text, size, hle => ⟨size, by rw [List.flatten_nil, List.append_nil]; rfl, hle, fun _ => rfl⟩
  | bs :: pieces, rest, text, size, hle => by
    rw [List.flatten_cons, List.length_append]
    by_cases hfit : text.length + bs.length ≤ size
    · obtain ⟨size', h, hroom, hsize⟩ := addAll_boxed pieces rest
        (show (text ++ bs).length ≤ size by rw [List.length_append]; exact hfit)
      rw [List.length_append] at hroom hsize
      refine ⟨size', ?_, by omega, fun hle => hsize (by omega)⟩
      have hone : add (⟨.box :: rest, text, size, true⟩ : State α β) bs = some ⟨.box :: rest, text ++ bs, size, true⟩ :=
        add_of_fits hfit
      rw [addAll, hone, Option.bind_some, h, List.append_assoc]
    · obtain ⟨size', h, hroom, -⟩ := addAll_boxed pieces rest (length_append_le_newsize bs hle)
      rw [List.length_append] at hroom
      refine ⟨size', ?_, by omega, fun hle => by omega⟩
      have hone : add (⟨.box :: rest, text, size, true⟩ : State α β) bs = some ⟨.box :: rest, text ++ bs,
          if size * 2 - text.length < bs.length then text.length + bs.length else size * 2, true⟩ := by
        rw [add, if_neg (by omega), prepare, if_pos (show size - text.length < bs.length by omega)]
        rfl
      rw [addAll, hone, Option.bind_some, h, List.append_assoc]

/-- The first time the buffer grows it pushes its box; it doubles when that is enough. -/
theorem addAll_grow : ∀ (pieces : List (List β)) (stack : List (Slot α)) {text : List β} {size : ℕ},
    text.length ≤ size → size < text.length + pieces.flatten.length →
      ∃ size', addAll pieces ⟨stack, text, size, false⟩ = some ⟨.box :: stack, text ++ pieces.flatten, size', true⟩ ∧
        text.length + pieces.flatten.length ≤ size' ∧
        (text.length + pieces.flatten.length ≤ 2 * size → size' = 2 * size)
  | [], _, _, _, _, h => by
    rw [List.flatten_nil, List.length_nil] at h
    omega
  | bs :: pieces, stack, text, size, hle, h => by
    rw [List.flatten_cons, List.length_append] at h ⊢
    by_cases hfit : text.length + bs.length ≤ size
    · obtain ⟨size', hall, hroom, hsize⟩ := addAll_grow pieces stack
        (show (text ++ bs).length ≤ size by rw [List.length_append]; exact hfit)
        (by rw [List.length_append]; omega)
      rw [List.length_append] at hroom hsize
      refine ⟨size', ?_, by omega, fun hle => hsize (by omega)⟩
      have hone : add (⟨stack, text, size, false⟩ : State α β) bs = some ⟨stack, text ++ bs, size, false⟩ :=
        add_of_fits hfit
      rw [addAll, hone, Option.bind_some, hall, List.append_assoc]
    · obtain ⟨size', hall, hroom, hsize⟩ := addAll_boxed pieces stack (length_append_le_newsize bs hle)
      rw [List.length_append] at hroom hsize
      refine ⟨size', ?_, by omega, fun hle => ?_⟩
      · have hone : add (⟨stack, text, size, false⟩ : State α β) bs = some ⟨.box :: stack, text ++ bs,
            if size * 2 - text.length < bs.length then text.length + bs.length else size * 2, true⟩ := by
          rw [add, if_neg (by omega), prepare, if_pos (show size - text.length < bs.length by omega)]
          rfl
        rw [addAll, hone, Option.bind_some, hall, List.append_assoc]
      · rw [if_neg (by omega)] at hsize
        rw [hsize (by omega), Nat.mul_comm]

theorem addAll_stuck : ∀ (pieces : List (List β)) {st : State α β}, st.onStack = true →
    st.stack.head? ≠ some .box → st.size < st.text.length + pieces.flatten.length → st.text.length ≤ st.size →
      addAll pieces st = none
  | [], st, _, _, h, hle => by
    rw [List.flatten_nil, List.length_nil] at h
    omega
  | bs :: pieces, st, hon, htop, h, hle => by
    rw [List.flatten_cons, List.length_append] at h
    by_cases hfit : st.text.length + bs.length ≤ st.size
    · rw [addAll, add_of_fits hfit, Option.bind_some]
      exact addAll_stuck pieces hon htop (by rw [List.length_append]; dsimp only; omega)
        (by rw [List.length_append]; exact hfit)
    · have hnone : prepare st bs.length = none := by
        rw [prepare, if_pos (by omega)]
        dsimp only
        rw [if_pos hon]
        split
        · rename_i hstack
          rw [hstack] at htop
          exact absurd rfl htop
        · rfl
      rw [addAll, add, if_neg (by omega), hnone]
      rfl

/-! ## The box on top -/

/-- The box, if there is one, is on top of the stack. -/
def BoxOnTop (st : State α β) : Prop := st.onStack = true → st.stack.head? = some .box

theorem BoxOnTop.prepare {st : State α β} (h : BoxOnTop st) (sz : ℕ) :
    ∃ st', prepare st sz = some st' ∧ st'.text = st.text ∧ BoxOnTop st' := by
  unfold StackBuffer.prepare
  dsimp only
  by_cases hroom : st.size - st.text.length < sz
  · rw [if_pos hroom]
    by_cases hon : st.onStack = true
    · obtain ⟨rest, hstack⟩ := List.head?_eq_some_iff.mp (h hon)
      rw [if_pos hon, hstack]
      exact ⟨_, rfl, rfl, fun _ => rfl⟩
    · rw [if_neg hon]
      exact ⟨_, rfl, rfl, fun _ => rfl⟩
  · rw [if_neg hroom]
    exact ⟨st, rfl, rfl, h⟩

theorem BoxOnTop.add {st : State α β} (h : BoxOnTop st) (bs : List β) :
    ∃ st', add st bs = some st' ∧ st'.text = st.text ++ bs ∧ BoxOnTop st' := by
  unfold StackBuffer.add
  by_cases h0 : bs.length = 0
  · rw [if_pos h0, List.length_eq_zero_iff.mp h0, List.append_nil]
    exact ⟨st, rfl, rfl, h⟩
  · obtain ⟨st', hst', htext, htop⟩ := h.prepare bs.length
    rw [if_neg h0, hst']
    refine ⟨_, rfl, ?_, htop⟩
    dsimp only
    rw [htext]

theorem BoxOnTop.pushResult {st : State α β} (h : BoxOnTop st) : ∃ st', pushResult st = some (st.text, st') := by
  unfold StackBuffer.pushResult
  by_cases hon : st.onStack = true
  · obtain ⟨rest, hstack⟩ := List.head?_eq_some_iff.mp (h hon)
    rw [if_pos hon, hstack]
    exact ⟨_, rfl⟩
  · rw [if_neg hon]
    exact ⟨_, rfl⟩

/-! ## Lost boxes -/

/-- The box is needed, and gone. -/
def Lost (st : State α β) : Prop := st.onStack = true ∧ .box ∉ st.stack

/-- **A buffer that has lost its box cannot be finished.** -/
theorem Lost.pushResult {st : State α β} (h : Lost st) : pushResult st = none := by
  rw [StackBuffer.pushResult, if_pos h.1]
  split
  · rename_i hstack
    exact absurd (hstack ▸ List.mem_cons_self) h.2
  · rfl

/-- A property that additions of admissible texts keep, and changes of the stack that bring no box. -/
structure Kept (ok : List β → Prop) (P : State α β → Prop) : Prop where
  add : ∀ st bs st', ok bs → P st → add st bs = some st' → P st'
  stack : ∀ st stack, (.box ∈ stack → .box ∈ st.stack) → P st → P { st with stack := stack }

theorem Kept.addAll {ok : List β → Prop} {P : State α β → Prop} (hP : Kept ok P) : ∀ (pieces : List (List β))
    {st st' : State α β}, (∀ bs ∈ pieces, ok bs) → P st → addAll pieces st = some st' → P st'
  | [], _, _, _, hst, h => by cases h; exact hst
  | bs :: rest, st, st', hok, hst, h => by
    obtain ⟨st₁, h₁, h⟩ := Option.bind_eq_some_iff.mp h
    exact hP.addAll rest (fun bs' hbs => hok bs' (List.mem_cons_of_mem _ hbs))
      (hP.add st bs st₁ (hok bs List.mem_cons_self) hst h₁) h

theorem Kept.push {ok : List β → Prop} {P : State α β → Prop} (hP : Kept ok P) {st : State α β} (hst : P st) (a : α) :
    P (st.push a) :=
  hP.stack st _ (fun h => (List.mem_cons.mp h).resolve_left nofun) hst

theorem Kept.pop {ok : List β → Prop} {P : State α β → Prop} (hP : Kept ok P) {st : State α β} (hst : P st) (k : ℕ) :
    P (st.pop k) := hP.stack st _ (fun h => List.mem_of_mem_drop h) hst

theorem add_eq_some {st st' : State α β} {bs : List β} (h : add st bs = some st') : st'.text = st.text ++ bs ∧
    st'.size = newSize st.size st.text.length bs.length ∧
      (st.onStack = true → st'.onStack = true ∧ st'.stack = st.stack) := by
  unfold add at h
  by_cases h0 : bs.length = 0
  · rw [if_pos h0] at h
    cases h
    rw [List.length_eq_zero_iff.mp h0, List.append_nil, newSize, List.length_nil, if_neg (Nat.not_lt_zero _)]
    exact ⟨rfl, rfl, fun hon => ⟨hon, rfl⟩⟩
  · rw [if_neg h0] at h
    obtain ⟨st₁, hprep, rfl⟩ := Option.map_eq_some_iff.mp h
    unfold prepare at hprep
    dsimp only at hprep
    by_cases hroom : st.size - st.text.length < bs.length
    · rw [if_pos hroom] at hprep
      rw [newSize, if_pos hroom]
      by_cases hon : st.onStack = true
      · rw [if_pos hon] at hprep
        split at hprep
        · cases hprep
          exact ⟨rfl, rfl, fun _ => ⟨hon, rfl⟩⟩
        · cases hprep
      · rw [if_neg hon] at hprep
        cases hprep
        exact ⟨rfl, rfl, fun h => absurd h hon⟩
    · rw [if_neg hroom] at hprep
      cases hprep
      rw [newSize, if_neg hroom]
      exact ⟨rfl, rfl, fun hon => ⟨hon, rfl⟩⟩

theorem kept_lost (ok : List β → Prop) : Kept ok (fun st : State α β => Lost st) where
  add := fun _ _ _ _ hst h => by
    obtain ⟨hon, hstack⟩ := (add_eq_some h).2.2 hst.1
    exact ⟨hon, hstack ▸ hst.2⟩
  stack := fun _ _ hbox hst => ⟨hst.1, fun h => hst.2 (hbox h)⟩

theorem kept_text (bad : β) : Kept (fun bs => bad ∉ bs) (fun st : State α β => bad ∉ st.text) where
  add := fun st bs st' hok hst h => by
    rw [(add_eq_some h).1, List.mem_append, not_or]
    exact ⟨hst, hok⟩
  stack := fun _ _ _ hst => hst

/-! ## The size of the buffer -/

/-- The size after some texts have been added. -/
def capacity : ℕ → ℕ → List (List β) → ℕ
  | size, _, [] => size
  | size, len, bs :: rest => capacity (newSize size len bs.length) (len + bs.length) rest

theorem size_of_addAll : ∀ (pieces : List (List β)) {st st' : State α β}, addAll pieces st = some st' →
    st'.text = st.text ++ pieces.flatten ∧ st'.size = capacity st.size st.text.length pieces
  | [], st, st', h => by
    cases h
    rw [List.flatten_nil, List.append_nil]
    exact ⟨rfl, rfl⟩
  | bs :: rest, st, st', h => by
    obtain ⟨st₁, hadd, hrest⟩ := Option.bind_eq_some_iff.mp h
    obtain ⟨htext, hsize⟩ := size_of_addAll rest hrest
    obtain ⟨htext₁, hsize₁, -⟩ := add_eq_some hadd
    rw [htext₁, List.append_assoc] at htext
    rw [htext₁, hsize₁, List.length_append] at hsize
    exact ⟨htext, hsize⟩

/-- **Additions with the box on top** do not get stuck; the box is pushed when the texts do not fit. -/
theorem BoxOnTop.addAll {st : State α β} (h : BoxOnTop st) (hle : st.text.length ≤ st.size) (pieces : List (List β)) :
    ∃ st', StackBuffer.addAll pieces st = some st' ∧ BoxOnTop st' ∧ st'.text.length ≤ st'.size ∧
      (st'.stack = st.stack ∧ st'.onStack = st.onStack ∨
        st.onStack = false ∧ st'.stack = .box :: st.stack ∧ st'.onStack = true) ∧
      (st'.onStack = false → st.text.length + pieces.flatten.length ≤ st.size) := by
  by_cases hfits : st.text.length + pieces.flatten.length ≤ st.size
  · exact ⟨_, addAll_of_fits pieces hfits, h, by rw [List.length_append]; exact hfits, .inl ⟨rfl, rfl⟩, fun _ => hfits⟩
  · obtain ⟨stack, text, size, on⟩ := st
    cases on with
    | false =>
      obtain ⟨size', hadd, hroom, -⟩ := addAll_grow pieces stack hle (Nat.not_le.mp hfits)
      exact ⟨_, hadd, fun _ => rfl, by rw [List.length_append]; exact hroom, .inr ⟨rfl, rfl, rfl⟩, nofun⟩
    | true =>
      obtain ⟨rest, hstack⟩ := List.head?_eq_some_iff.mp (h rfl)
      dsimp only at hstack
      subst hstack
      obtain ⟨size', hadd, hroom, -⟩ := addAll_boxed pieces rest hle
      exact ⟨_, hadd, fun _ => rfl, by rw [List.length_append]; exact hroom, .inl ⟨rfl, rfl⟩, nofun⟩

end StackBuffer

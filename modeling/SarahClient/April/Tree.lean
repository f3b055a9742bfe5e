import SarahClient.April.Tidy

/-!
# The conversion builds a tree

* `textLoop`, `textBuild`: the conversion with the texts of the keys in the place of pointers to them;
* `LuaTable.forest`: the children that a table becomes;
* `LoopInv`, `Grows`: the loop's invariant, and what a part of a run does to the heap;
* `addItemToArray_owns`, `addItem_builds`: one addition;
* **`loop_builds`**: the loop builds `LuaTable.forest` where no item is added twice, and adds each new item once where
  none is lost.
-/

namespace Sarah

open Heap Forest

/-- The variable `key` after an entry's key. -/
def LuaKey.name (k : LuaKey) (key : Option (List UInt8)) : Option (List UInt8) :=
  match k with
  | .integer i => some (decimalInt i.toInt)
  | .number d => some (decimalInt (luaToInteger d))
  | .string s => some (cstr s)
  | .other => key

/-! ## Keys that are texts -/

section Model

variable (malloc : Malloc (TCell JsonItem))

/-- `tableToJsonLoop` where the variable `key` is a text. -/
def textLoop (json : ℕ) : LuaTable → ℕ → Option (List UInt8) → ℕ → Build → Option Build
  | .nil, _, _, _, b => some b
  | .leaf k v rest, room, key, value, b =>
    if room < k.slots then none
    else
      (nextValue malloc b v value).bind fun r => (addItem r.2 json ((k.name key).map some) r.1).bind fun b =>
        textLoop json rest room (k.name key) r.1 b
  | .table k t rest, room, key, _, b =>
    if room < k.slots then none
    else
      (tableIsArray (room - 2) t).bind fun isArray => (create malloc b (newItem (containerType isArray))).bind fun r =>
        (if room - 2 < 1 then none else textLoop r.1 t (room - 2) none 0 r.2).bind fun b =>
          (addItem b json ((k.name key).map some) r.1).bind fun b => textLoop json rest room (k.name key) r.1 b

/-- `jsonBuild` where the keys are texts. -/
def textBuild (room : ℕ) (h : Heap (TCell JsonItem)) (t : LuaTable) : Option (ℕ × Build) :=
  (tableIsArray room t).bind fun isArray => (alloc malloc h ⟨newItem (containerType isArray), 0, 0⟩).bind fun r =>
    (if room < 1 then none else textLoop malloc r.1 t room none 0 ⟨r.2, [], []⟩).map fun b => (r.1, b)

end Model

/-- The pending value is added under the key, if there is one; else it waits. -/
def place (isArray : Bool) (key : Option (List UInt8)) (pend : Option (JsonItem × Forest JsonItem))
    (rest : Option (JsonItem × Forest JsonItem) → Forest JsonItem) : Forest JsonItem :=
  match pend with
  | none => rest none
  | some (item, sub) =>
    if isArray then .cons item sub (rest none)
    else
      match key with
      | none => rest (some (item, sub))
      | some s => .cons { item with string := some s } sub (rest none)

/-- The children that the entries become, from the variable `key` and a value that waits. -/
def LuaTable.forest (isArray : Bool) : LuaTable → Option (List UInt8) → Option (JsonItem × Forest JsonItem) →
    Forest JsonItem
  | .nil, _, _ => .nil
  | .leaf k v rest, key, pend =>
    place isArray (k.name key) (((leafItem v).map fun item => (item, .nil)).or pend) (rest.forest isArray (k.name key))
  | .table k t rest, key, _ =>
    place isArray (k.name key) (some (newItem (containerType t.isArray), t.forest t.isArray none none))
      (rest.forest isArray (k.name key))

/-! ## The invariant -/

/-- The variable `value`: `NULL`, the root of a tree of its own, or an item that is added already. -/
def Pending (h : Heap (TCell JsonItem)) (value : ℕ) (st : Pend) (pend : Option (JsonItem × Forest JsonItem))
    (cells : List ℕ) : Prop :=
  match st with
  | .fresh => value = 0 ∧ pend = none ∧ cells = []
  | .waiting => ∃ item sub, pend = some (item, sub) ∧ Owns h value (.cons item sub .nil) cells
  | .added => pend = none ∧ cells = []

/-- At the head of the loop `json` has the children `kids`; `cells` are theirs, those of a value that waits, and those
that were lost. -/
structure LoopInv (isArray : Bool) (json : ℕ) (pj : JsonItem) (next : ℕ) (b : Build) (value : ℕ) (st : Pend)
    (pend : Option (JsonItem × Forest JsonItem)) (kids : Forest JsonItem) (cells lost : List ℕ) : Prop where
  type : pj.type = containerType isArray
  owns : ∃ child ck cv, b.heap.read json = some ⟨pj, child, next⟩ ∧ Owns b.heap child kids ck ∧
    Pending b.heap value st pend cv ∧ cells.Perm (ck ++ (cv ++ lost))
  lost : ∀ a ∈ lost, ∃ c, b.heap.read a = some c
  nodup : (json :: cells).Nodup

/-- A part of a run: what it creates and adds, and that other items stay as they are. -/
structure Grows (json : ℕ) (cells : List ℕ) (b b' : Build) (new adds : List ℕ) : Prop where
  created : b'.created = b.created ++ new
  added : b'.added = b.added ++ adds
  nodup : new.Nodup
  fresh : ∀ a ∈ new, b.heap.read a = none
  frame : ∀ a, a ≠ json → a ∉ cells → a ∉ new → b'.heap.read a = b.heap.read a

/-- A value that is not added yet. -/
def roots (st : Pend) (value : ℕ) : List ℕ := if st = .waiting then [value] else []

variable {isArray : Bool} {json : ℕ} {pj : JsonItem} {next : ℕ} {b b' : Build} {value : ℕ} {st : Pend}
  {pend : Option (JsonItem × Forest JsonItem)} {kids : Forest JsonItem} {cells lost : List ℕ}

theorem Pending.live {cv : List ℕ} (h : Pending b.heap value st pend cv) : ∀ a ∈ cv, ∃ c, b.heap.read a = some c := by
  cases st with
  | fresh =>
    rw [h.2.2]
    exact fun a ha => absurd ha List.not_mem_nil
  | waiting =>
    obtain ⟨item, sub, -, hown⟩ := h
    exact hown.live
  | added =>
    rw [h.2]
    exact fun a ha => absurd ha List.not_mem_nil

theorem Pending.congr {h h' : Heap (TCell JsonItem)} {cv : List ℕ} (hp : Pending h value st pend cv)
    (heq : ∀ a ∈ cv, h'.read a = h.read a) : Pending h' value st pend cv := by
  cases st with
  | fresh => exact hp
  | waiting =>
    obtain ⟨item, sub, hpend, hown⟩ := hp
    exact ⟨item, sub, hpend, hown.congr heq⟩
  | added => exact hp

theorem Pending.none {h : Heap (TCell JsonItem)} {cv : List ℕ} (hp : Pending h value st pend cv)
    (hst : st ≠ .waiting) : pend = none ∧ cv = [] := by
  cases st with
  | fresh => exact hp.2
  | waiting => exact absurd rfl hst
  | added => exact hp

theorem LoopInv.live (hinv : LoopInv isArray json pj next b value st pend kids cells lost) :
    ∀ a ∈ json :: cells, ∃ c, b.heap.read a = some c := by
  obtain ⟨child, ck, cv, hread, hown, hpend, hperm⟩ := hinv.owns
  intro a ha
  rw [List.mem_cons, hperm.mem_iff, List.mem_append, List.mem_append] at ha
  obtain rfl | ha | ha | ha := ha
  · exact ⟨_, hread⟩
  · exact hown.live a ha
  · exact hpend.live a ha
  · exact hinv.lost a ha

theorem LoopInv.push (hinv : LoopInv isArray json pj next b value st pend kids cells lost) {n cv l : List ℕ} {r : ℕ}
    {item : JsonItem} {sub : Forest JsonItem} (hfresh : ∀ a ∈ n, b.heap.read a = none) (hnd : n.Nodup)
    (hframe : ∀ a, a ∉ n → b'.heap.read a = b.heap.read a) (hown : Owns b'.heap r (.cons item sub .nil) cv)
    (hl : ∀ a ∈ l, ∃ c, b'.heap.read a = some c) (hperm : n.Perm (cv ++ l)) :
    ∃ lost', LoopInv isArray json pj next b' r .waiting (some (item, sub)) kids (cells ++ n) lost' ∧
      (st ≠ .waiting → l = [] → lost' = lost) := by
  have hout : ∀ a ∈ json :: cells, a ∉ n := by
    intro a ha hn
    obtain ⟨c, hc⟩ := hinv.live a ha
    rw [hfresh a hn] at hc
    cases hc
  have hkeep : ∀ a ∈ json :: cells, b'.heap.read a = b.heap.read a := fun a ha => hframe a (hout a ha)
  obtain ⟨child, ck, cv₀, hread, hkids, hpend, hcells⟩ := hinv.owns
  have hmem : ∀ a ∈ ck ++ (cv₀ ++ lost), b'.heap.read a = b.heap.read a := fun a ha =>
    hkeep a (List.mem_cons_of_mem json (hcells.mem_iff.mpr ha))
  refine ⟨cv₀ ++ lost ++ l, ⟨hinv.type, ⟨child, ck, cv, ?_, ?_, ⟨item, sub, rfl, hown⟩, ?_⟩, fun a ha => ?_, ?_⟩,
    fun hst hnil => ?_⟩
  · rw [hkeep json List.mem_cons_self, hread]
  · exact hkids.congr fun a ha => hmem a (List.mem_append_left _ ha)
  · refine (hcells.append hperm).trans (List.perm_iff_count.mpr fun a => ?_)
    simp only [List.count_append]
    omega
  · rcases List.mem_append.mp ha with ha | ha
    · rw [hmem a (List.mem_append_right ck ha)]
      exact (List.mem_append.mp ha).elim (hpend.live a) (hinv.lost a)
    · exact hl a ha
  · rw [← List.cons_append]
    exact List.nodup_append.mpr ⟨hinv.nodup, hnd, fun a ha b hb e => hout a ha (e ▸ hb)⟩
  · rw [(hpend.none hst).2, hnil, List.nil_append, List.append_nil]

theorem Grows.refl (json : ℕ) (cells : List ℕ) (b : Build) : Grows json cells b b [] [] :=
  ⟨(List.append_nil _).symm, (List.append_nil _).symm, List.nodup_nil, fun _ ha => absurd ha List.not_mem_nil,
    fun _ _ _ _ => rfl⟩

theorem Grows.trans {b₁ b₂ : Build} {n₁ n₂ a₁ a₂ : List ℕ} (h₁ : Grows json cells b b₁ n₁ a₁)
    (h₂ : Grows json (cells ++ n₁) b₁ b₂ n₂ a₂) (hlive : ∀ a ∈ json :: (cells ++ n₁), ∃ c, b₁.heap.read a = some c) :
    Grows json cells b b₂ (n₁ ++ n₂) (a₁ ++ a₂) := by
  have hout : ∀ a ∈ json :: (cells ++ n₁), a ∉ n₂ := by
    intro a ha hn
    obtain ⟨c, hc⟩ := hlive a ha
    rw [h₂.fresh a hn] at hc
    cases hc
  refine ⟨?_, ?_, ?_, fun a ha => ?_, fun a hj hcells hn => ?_⟩
  · rw [h₂.created, h₁.created, List.append_assoc]
  · rw [h₂.added, h₁.added, List.append_assoc]
  · refine List.nodup_append.mpr ⟨h₁.nodup, h₂.nodup, fun a ha c hc e => ?_⟩
    exact hout a (List.mem_cons_of_mem json (List.mem_append_right cells ha)) (e ▸ hc)
  · rw [List.mem_append] at ha
    obtain ha | ha := ha
    · exact h₁.fresh a ha
    · have hnot : a ∉ json :: (cells ++ n₁) := fun hmem => hout a hmem ha
      rw [List.mem_cons, List.mem_append, not_or, not_or] at hnot
      rw [← h₁.frame a hnot.1 hnot.2.1 hnot.2.2]
      exact h₂.fresh a ha
  · rw [List.mem_append, not_or] at hn
    have hnot : a ∉ cells ++ n₁ := by
      rw [List.mem_append, not_or]
      exact ⟨hcells, hn.1⟩
    rw [h₂.frame a hj hnot hn.2, h₁.frame a hj hcells hn.1]

/-! ## One addition -/

theorem addItemToArray_owns {child : ℕ} {ck cv : List ℕ} {item : JsonItem} {sub : Forest JsonItem}
    (hread : b.heap.read json = some ⟨pj, child, next⟩) (hkids : Owns b.heap child kids ck)
    (hvalue : Owns b.heap value (.cons item sub .nil) cv) (hnd : (json :: (ck ++ cv)).Nodup) :
    ∃ h' child', addItemToArray b json value = some { b with heap := h', added := b.added ++ [value] } ∧
      h'.read json = some ⟨pj, child', next⟩ ∧ Owns h' child' (kids.append (.cons item sub .nil)) (ck ++ cv) ∧
      ∀ a, a ≠ json → a ∉ ck → h'.read a = b.heap.read a := by
  obtain ⟨hjson, happ⟩ := List.nodup_cons.mp hnd
  obtain ⟨hndk, -, hdisj⟩ := List.nodup_append.mp happ
  rw [List.mem_append, not_or] at hjson
  have hvalue0 : value ≠ 0 := by
    obtain ⟨_, _, _, _, hread, -⟩ := hvalue
    exact ne_zero_of_read hread
  rw [addItemToArray, if_neg hvalue0, hread, Option.bind_some]
  dsimp only
  by_cases hchild : child = 0
  · -- the first child
    subst hchild
    have hnil : kids = .nil ∧ ck = [] := by
      cases kids with
      | nil => exact ⟨rfl, hkids.2⟩
      | cons p sub rest =>
        obtain ⟨_, _, _, _, hzero, -⟩ := hkids
        rw [read_zero] at hzero
        cases hzero
    obtain ⟨rfl, rfl⟩ := hnil
    obtain ⟨h', hmod, hread'⟩ := modify_spec hread fun c => { c with child := value }
    refine ⟨h', value, ?_, ?_, hvalue.congr fun a ha => ?_, fun a ha _ => ?_⟩
    · rw [if_pos rfl, hmod, Option.map_some]
    · rw [hread', if_pos rfl]
    · rw [hread', if_neg]
      rintro rfl
      exact hjson.2 ha
    · rw [hread', if_neg ha]
  · obtain ⟨l, c, hlast, hmem, hc, hlink⟩ := hkids.exists_last hchild
      (Nat.le_succ_of_le (hkids.size_le hndk))
    obtain ⟨h', hmod, hread'⟩ := modify_spec hc fun c => { c with next := value }
    have hlj : json ≠ l := by
      rintro rfl
      exact hjson.1 hmem
    refine ⟨h', child, ?_, ?_, ?_, fun a ha hck => ?_⟩
    · rw [if_neg hchild, hlast, Option.bind_some, hmod, Option.map_some]
    · rw [hread', if_neg hlj, hread]
    · refine hlink h' value _ cv hndk (by rw [hread', if_pos rfl]) (fun a _ ha => by rw [hread', if_neg ha]) ?_
      refine hvalue.congr fun a ha => ?_
      rw [hread', if_neg]
      rintro rfl
      exact hdisj a hmem a ha rfl
    · rw [hread', if_neg]
      rintro rfl
      exact hck hmem

theorem setString_owns {h : Heap (TCell JsonItem)} {cv : List ℕ} {item : JsonItem} {sub : Forest JsonItem}
    (hvalue : Owns h value (.cons item sub .nil) cv) (hnd : cv.Nodup) (s : List UInt8) :
    ∃ h', modify h value (fun c => { c with payload := { c.payload with string := some s } }) = some h' ∧
      Owns h' value (.cons { item with string := some s } sub .nil) cv ∧ value ∈ cv ∧
      ∀ a, a ≠ value → h'.read a = h.read a := by
  obtain ⟨child, next, ck, cr, hread, hsub, hrest, rfl⟩ := hvalue
  obtain ⟨hzero, rfl⟩ := hrest
  subst hzero
  rw [List.append_nil] at hnd ⊢
  obtain ⟨h', hmod, hread'⟩ := modify_spec hread fun c => { c with payload := { c.payload with string := some s } }
  refine ⟨h', hmod, owns_tree (by rw [hread', if_pos rfl]) (hsub.congr fun a ha => ?_), List.mem_cons_self,
    fun a ha => by rw [hread', if_neg ha]⟩
  rw [hread', if_neg]
  rintro rfl
  exact (List.nodup_cons.mp hnd).1 ha

/-- **One addition.** -/
theorem addItem_builds (hinv : LoopInv isArray json pj next b value st pend kids cells lost) {key : Option (List UInt8)}
    {st' : Pend} (hput : st.put (isArray || key.isSome) = some st') :
    ∃ b' kids' pend' adds, addItem b json (key.map some) value = some b' ∧
      LoopInv isArray json pj next b' value st' pend' kids' cells lost ∧ Grows json cells b b' [] adds ∧
      (adds ++ roots st' value) = roots st value ∧
      ∀ rest, kids.append (place isArray key pend rest) = kids'.append (rest pend') := by
  obtain ⟨child, ck, cv, hread, hkids, hpend, hcells⟩ := hinv.owns
  have hall : (json :: (ck ++ (cv ++ lost))).Nodup := (List.Perm.nodup_iff (hcells.cons json)).mp hinv.nodup
  have hnd : (json :: (ck ++ cv)).Nodup := by
    rw [← List.append_assoc] at hall
    exact hall.sublist ((List.sublist_append_left (ck ++ cv) lost).cons_cons json)
  have hlost : ∀ a ∈ lost, a ≠ json ∧ a ∉ ck ++ cv := by
    rw [← List.append_assoc, ← List.cons_append] at hall
    intro a ha
    have hout : a ∉ json :: (ck ++ cv) := fun hmem => (List.nodup_append.mp hall).2.2 a hmem a ha rfl
    rwa [List.mem_cons, not_or] at hout
  have hstay : ∀ {h' : Heap (TCell JsonItem)}, (∀ a, a ≠ json → a ∉ ck ++ cv → h'.read a = b.heap.read a) →
      ∀ a ∈ lost, ∃ c, h'.read a = some c := fun hother a ha => by
    rw [hother a (hlost a ha).1 (hlost a ha).2]
    exact hinv.lost a ha
  have hframe : ∀ {h' : Heap (TCell JsonItem)}, (∀ a, a ≠ json → a ∉ ck ++ cv → h'.read a = b.heap.read a) →
      Grows json cells b { b with heap := h', added := b.added ++ [value] } [] [value] := fun hother =>
    ⟨(List.append_nil _).symm, rfl, List.nodup_nil, fun _ ha => absurd ha List.not_mem_nil, fun a hj hc _ =>
      hother a hj fun hm => hc (hcells.mem_iff.mpr ((List.mem_append.mp hm).elim (List.mem_append_left _)
        fun hm => List.mem_append_right ck (List.mem_append_left lost hm)))⟩
  have hlinked : cells.Perm (ck ++ cv ++ ([] ++ lost)) := by
    rw [List.nil_append, List.append_assoc]
    exact hcells
  have hkeep : st' = st → place isArray key pend = (fun rest => rest pend) →
      addItem b json (key.map some) value = some b →
      ∃ b' kids' pend' adds, addItem b json (key.map some) value = some b' ∧
        LoopInv isArray json pj next b' value st' pend' kids' cells lost ∧ Grows json cells b b' [] adds ∧
        (adds ++ roots st' value) = roots st value ∧
        ∀ rest, kids.append (place isArray key pend rest) = kids'.append (rest pend') := by
    rintro rfl hplace hadd
    exact ⟨b, kids, pend, [], hadd, hinv, Grows.refl json cells b, rfl, fun rest => by rw [hplace]⟩
  have htype : pj.type = .array ↔ isArray = true := by
    rw [hinv.type]
    cases isArray <;> simp [containerType]
  cases isArray with
  | true =>
    have hcall : addItem b json (key.map some) value = addItemToArray b json value := by
      rw [addItem, hread, Option.bind_some, if_pos (htype.mpr rfl)]
    cases st with
    | fresh =>
      obtain ⟨rfl, rfl, -⟩ := hpend
      exact hkeep (Option.some.inj hput).symm rfl (by rw [hcall, addItemToArray, if_pos rfl])
    | waiting =>
      obtain ⟨item, sub, rfl, hvalue⟩ := hpend
      cases hput
      obtain ⟨h', child', hadd, hread', hkids', hother⟩ := addItemToArray_owns hread hkids hvalue hnd
      have hsame : ∀ a, a ≠ json → a ∉ ck ++ cv → h'.read a = b.heap.read a := fun a hj hm =>
        hother a hj fun hck => hm (List.mem_append_left cv hck)
      refine ⟨_, kids.append (.cons item sub .nil), none, [value], hcall.trans hadd,
        ⟨hinv.type, ⟨child', ck ++ cv, [], hread', hkids', ⟨rfl, rfl⟩, hlinked⟩, hstay hsame, hinv.nodup⟩,
          hframe hsame, rfl,
        fun rest => ?_⟩
      rw [append_assoc]
      rfl
    | added => cases hput
  | false =>
    have hcall : addItem b json (key.map some) value = addItemToObject b json (key.map some) value := by
      rw [addItem, hread, Option.bind_some, if_neg fun h => Bool.false_ne_true (htype.mp h)]
    cases key with
    | none =>
      refine hkeep (Option.some.inj hput).symm ?_ (by rw [hcall, Option.map_none, addItemToObject])
      cases pend <;> rfl
    | some s =>
      cases st with
      | fresh =>
        obtain ⟨rfl, rfl, -⟩ := hpend
        exact hkeep (Option.some.inj hput).symm rfl (by rw [hcall, Option.map_some, addItemToObject, if_pos rfl])
      | waiting =>
        obtain ⟨item, sub, rfl, hvalue⟩ := hpend
        cases hput
        obtain ⟨hjson, happ⟩ := List.nodup_cons.mp hnd
        obtain ⟨-, hndv, hdisj⟩ := List.nodup_append.mp happ
        have hvalue0 : value ≠ 0 := by
          obtain ⟨_, _, _, _, hread, -⟩ := hvalue
          exact ne_zero_of_read hread
        obtain ⟨h₁, hmod, hvalue₁, hmem, hother₁⟩ := setString_owns hvalue hndv s
        have hjson₁ : json ≠ value := by
          rintro rfl
          exact hjson (List.mem_append_right ck hmem)
        have hkids₁ : Owns h₁ child kids ck := hkids.congr fun a ha => hother₁ a fun e => hdisj a ha value hmem e
        obtain ⟨h', child', hadd, hread', hkids', hother⟩ := addItemToArray_owns (b := { b with heap := h₁ })
          (by rw [hother₁ json hjson₁]; exact hread) hkids₁ hvalue₁ hnd
        have hsame : ∀ a, a ≠ json → a ∉ ck ++ cv → h'.read a = b.heap.read a := by
          intro a hj hm
          rw [List.mem_append, not_or] at hm
          rw [hother a hj hm.1]
          exact hother₁ a fun e => hm.2 (e ▸ hmem)
        refine ⟨_, kids.append (.cons { item with string := some s } sub .nil), none, [value], ?_,
          ⟨hinv.type, ⟨child', ck ++ cv, [], hread', hkids', ⟨rfl, rfl⟩, hlinked⟩, hstay hsame, hinv.nodup⟩,
            hframe hsame,
          rfl, fun rest => ?_⟩
        · rw [hcall, Option.map_some, addItemToObject, if_neg hvalue0, Option.bind_some, hmod, Option.bind_some]
          exact hadd
        · rw [append_assoc]
          rfl
      | added => cases hput

/-! ## The loop -/

theorem keyed_or (isArray : Bool) (k : LuaKey) (key : Option (List UInt8)) :
    (isArray || (k.name key).isSome) = (isArray || key.isSome || k.keyed) := by
  cases k <;> simp [LuaKey.name, LuaKey.keyed]

theorem tableIsArray_of_le {room : ℕ} {t : LuaTable} (h : t.slots ≤ room) : tableIsArray room t = some t.isArray := by
  rw [tableIsArray, if_neg (Nat.not_lt.mpr (t.visitSlots_le_slots.trans h))]
  rfl

/-- A new container `r`, filled by the loop over its own table, becomes the value. -/
theorem LoopInv.push_table (hinv : LoopInv isArray json pj next b value st pend kids cells lost) {r : ℕ}
    {h₁ : Heap (TCell JsonItem)} {item : JsonItem} {isArray' : Bool} {sub : Forest JsonItem} {n₁ adds₁ lost₁ : List ℕ}
    (hfresh : b.heap.read r = none) (hread₁ : ∀ a, h₁.read a = if a = r then some ⟨item, 0, 0⟩ else b.heap.read a)
    (hinv₁ : LoopInv isArray' r item 0 b' 0 .added none sub n₁ lost₁)
    (hgrows₁ : Grows r [] { b with heap := h₁, created := b.created ++ [r] } b' n₁ adds₁) :
    ∃ lost', LoopInv isArray json pj next b' r .waiting (some (item, sub)) kids (cells ++ r :: n₁) lost' ∧
      Grows json cells b b' (r :: n₁) adds₁ ∧ (st ≠ .waiting → lost₁ = [] → lost' = lost) := by
  have hrn : r ∉ n₁ := (List.nodup_cons.mp hinv₁.nodup).1
  have hnew : ∀ a ∈ r :: n₁, b.heap.read a = none := by
    intro a ha
    obtain rfl | hmem := List.mem_cons.mp ha
    · exact hfresh
    · have hne : a ≠ r := by
        rintro rfl
        exact hrn hmem
      have := hgrows₁.fresh a hmem
      dsimp only at this
      rwa [hread₁, if_neg hne] at this
  have hframe : ∀ a, a ∉ r :: n₁ → b'.heap.read a = b.heap.read a := by
    intro a ha
    rw [List.mem_cons, not_or] at ha
    rw [hgrows₁.frame a ha.1 List.not_mem_nil ha.2]
    dsimp only
    rw [hread₁, if_neg ha.1]
  obtain ⟨child, ck, cv, hread, hkids, ⟨-, rfl⟩, hcells⟩ := hinv₁.owns
  obtain ⟨lost', hpush, hlost'⟩ := hinv.push hnew hinv₁.nodup hframe (owns_tree hread hkids) hinv₁.lost (hcells.cons r)
  refine ⟨lost', hpush, ⟨?_, hgrows₁.added, hinv₁.nodup, hnew, fun a _ _ ha => hframe a ha⟩, hlost'⟩
  rw [hgrows₁.created, List.append_assoc, List.singleton_append]

variable {malloc : Malloc (TCell JsonItem)} (hmalloc : malloc.Total)
include hmalloc

theorem create_spec (b : Build) (item : JsonItem) : ∃ r h', create malloc b item =
    some (r, { b with heap := h', created := b.created ++ [r] }) ∧ b.heap.read r = none ∧
      ∀ a, h'.read a = if a = r then some ⟨item, 0, 0⟩ else b.heap.read a := by
  obtain ⟨r, h', halloc, -, hfresh, hread⟩ := alloc_spec hmalloc b.heap ⟨item, 0, 0⟩
  exact ⟨r, h', by rw [create, halloc, Option.map_some], hfresh, hread⟩

theorem nextValue_builds (hinv : LoopInv isArray json pj next b value st pend kids cells lost) (v : LuaLeaf) :
    ∃ r b' new lost', nextValue malloc b v value = some (r, b') ∧
      LoopInv isArray json pj next b' r (st.next (leafItem v).isSome)
        (((leafItem v).map fun item => (item, Forest.nil)).or pend) kids (cells ++ new) lost' ∧
      Grows json cells b b' new [] ∧ ((st.make (leafItem v).isSome).isSome →
        lost' = lost ∧ roots (st.next (leafItem v).isSome) r = roots st value ++ new) := by
  cases hv : leafItem v with
  | none =>
    refine ⟨value, b, [], lost, by rw [nextValue, hv], ?_, Grows.refl json cells b, fun _ =>
      ⟨rfl, (List.append_nil _).symm⟩⟩
    rw [List.append_nil]
    exact hinv
  | some item =>
    obtain ⟨r, h', hcreate, hfresh, hread⟩ := create_spec hmalloc b item
    let made : Build := { b with heap := h', created := b.created ++ [r] }
    have hframe : ∀ a, a ∉ [r] → made.heap.read a = b.heap.read a := fun a ha =>
      (hread a).trans (if_neg (List.ne_of_not_mem_cons ha))
    have hnew : ∀ a ∈ [r], b.heap.read a = none := fun a ha => by rw [List.mem_singleton.mp ha, hfresh]
    obtain ⟨lost', hpush, hlost'⟩ := hinv.push hnew (List.nodup_singleton r) hframe
      (owns_tree ((hread r).trans (if_pos rfl)) (owns_nil h')) (fun a ha => absurd ha List.not_mem_nil)
      (List.Perm.refl [r])
    refine ⟨r, made, [r], lost', by rw [nextValue, hv]; exact hcreate, hpush,
      ⟨rfl, (List.append_nil _).symm, List.nodup_singleton r, hnew, fun a _ _ ha => hframe a ha⟩, fun hmake => ?_⟩
    have hst : st ≠ .waiting := by
      rintro rfl
      cases hmake
    refine ⟨hlost' hst rfl, ?_⟩
    rw [Option.isSome_some, Pend.next, if_pos rfl, roots, roots, if_pos rfl, if_neg hst, List.nil_append]

/-- **The loop builds `LuaTable.forest`** under `json`; where no item is lost, it adds each new item once. -/
theorem loop_builds (t : LuaTable) : ∀ {isArray json pj next b value st pend kids cells lost} {room : ℕ}
    {key : Option (List UInt8)}, t.slots ≤ room → t.SubSteady → ScanOnce (isArray || key.isSome) st t.marks →
    LoopInv isArray json pj next b value st pend kids cells lost →
    ∃ b' new adds lost', textLoop malloc json t room key value b = some b' ∧
      LoopInv isArray json pj next b' 0 .added none (kids.append (t.forest isArray key pend)) (cells ++ new) lost' ∧
      Grows json cells b b' new adds ∧
      (t.SubTidy → Scan (isArray || key.isSome) st t.marks → lost' = lost ∧ adds.Perm (roots st value ++ new)) := by
  induction t with
  | nil =>
    intro isArray json pj next b value st pend kids cells lost room key _ _ _ hinv
    obtain ⟨child, ck, cv, hread, hkids, hpend, hcells⟩ := hinv.owns
    refine ⟨b, [], [], cv ++ lost, rfl, ?_, Grows.refl json cells b, fun _ hscan => ?_⟩
    · rw [LuaTable.forest, append_nil, List.append_nil]
      refine ⟨hinv.type, ⟨child, ck, [], hread, hkids, ⟨rfl, rfl⟩, hcells⟩, fun a ha => ?_, hinv.nodup⟩
      exact (List.mem_append.mp ha).elim (hpend.live a) (hinv.lost a)
    · rw [(hpend.none hscan).2, roots, if_neg hscan]
      exact ⟨rfl, List.Perm.refl []⟩
  | leaf k v rest ih =>
    intro isArray json pj next b value st pend kids cells lost room key hroom hsub hscan hinv
    rw [LuaTable.slots, max_le_iff] at hroom
    obtain ⟨st₂, hput, hscan'⟩ := hscan
    rw [← keyed_or] at hput hscan'
    obtain ⟨r, b₁, n₁, lost₁, hvalue, hinv₁, hgrows₁, hstrict₁⟩ := nextValue_builds hmalloc hinv v
    obtain ⟨b₂, kids₂, pend₂, adds₂, hadd, hinv₂, hgrows₂, hroots₂, hplace⟩ := addItem_builds hinv₁ hput
    obtain ⟨b₃, n₃, adds₃, lost₃, hloop, hinv₃, hgrows₃, hstrict₃⟩ := ih hroom.2 hsub hscan' hinv₂
    have hgrows := hgrows₁.trans hgrows₂ hinv₁.live
    rw [List.append_nil, List.nil_append] at hgrows
    refine ⟨b₃, n₁ ++ n₃, adds₂ ++ adds₃, lost₃, ?_, ?_, hgrows.trans hgrows₃ hinv₂.live, fun htidy hscan => ?_⟩
    · rw [textLoop, if_neg (Nat.not_lt.mpr hroom.1), hvalue, Option.bind_some, hadd, Option.bind_some]
      exact hloop
    · rw [LuaTable.forest, hplace, ← List.append_assoc]
      exact hinv₃
    · obtain ⟨st₁, st₂', hmake, hput', hscan''⟩ := hscan
      obtain rfl := Pend.next_of_make hmake
      rw [← keyed_or] at hput' hscan''
      obtain rfl : st₂ = st₂' := Option.some.inj (hput.symm.trans hput')
      obtain ⟨rfl, hroots₁⟩ := hstrict₁ (Option.isSome_of_mem hmake)
      obtain ⟨rfl, hperm⟩ := hstrict₃ htidy hscan''
      refine ⟨rfl, (List.Perm.append_left adds₂ hperm).trans ?_⟩
      rw [← List.append_assoc, ← List.append_assoc, hroots₂, hroots₁]
  | table k t rest iht ihr =>
    intro isArray json pj next b value st pend kids cells lost room key hroom hsub hscan hinv
    rw [LuaTable.slots, max_le_iff, max_le_iff] at hroom
    obtain ⟨⟨hk, ht⟩, hrest⟩ := hroom
    obtain ⟨⟨hsteady, hsubt⟩, hsubr⟩ := hsub
    obtain ⟨st₂, hput, hscan'⟩ := hscan
    rw [← keyed_or] at hput hscan'
    -- the value's own conversion
    obtain ⟨r, h₁, hcreate, hfresh, hread₁⟩ := create_spec hmalloc b (newItem (containerType t.isArray))
    have hinner : LoopInv t.isArray r (newItem (containerType t.isArray)) 0
        { b with heap := h₁, created := b.created ++ [r] } 0 .fresh none .nil [] [] :=
      ⟨rfl, ⟨0, [], [], by dsimp only; rw [hread₁, if_pos rfl], owns_nil h₁, ⟨rfl, rfl, rfl⟩, List.Perm.refl []⟩,
        fun a ha => absurd ha List.not_mem_nil, List.nodup_singleton r⟩
    have hroom₁ : t.slots ≤ room - 2 := by omega
    have hplain : (t.isArray || (none : Option (List UInt8)).isSome) = t.isArray := by
      rw [Option.isSome_none, Bool.or_false]
    have hscan₁ : ScanOnce (t.isArray || (none : Option (List UInt8)).isSome) .fresh t.marks := by
      rw [hplain]
      exact (scanOnce_iff_noneTwice _ _).mpr hsteady
    obtain ⟨b₁, n₁, adds₁, lost₁, hloop₁, hinv₁, hgrows₁, hstrict₁⟩ := iht hroom₁ hsubt hscan₁ hinner
    rw [List.nil_append] at hinv₁
    obtain ⟨lost₂, hinv₁', hgrows₁', hlost₂⟩ := hinv.push_table hfresh hread₁
      (show LoopInv t.isArray r _ 0 b₁ 0 .added none (t.forest t.isArray none none) n₁ lost₁ from hinv₁) hgrows₁
    -- its addition, and the other entries
    obtain ⟨b₂, kids₂, pend₂, adds₂, hadd, hinv₂, hgrows₂, hroots₂, hplace⟩ := addItem_builds hinv₁' hput
    obtain ⟨b₃, n₃, adds₃, lost₃, hloop, hinv₃, hgrows₃, hstrict₃⟩ := ihr hrest hsubr hscan' hinv₂
    have hgrows := hgrows₁'.trans hgrows₂ hinv₁'.live
    rw [List.append_nil] at hgrows
    refine ⟨b₃, (r :: n₁) ++ n₃, (adds₁ ++ adds₂) ++ adds₃, lost₃, ?_, ?_, hgrows.trans hgrows₃ hinv₂.live,
      fun htidy hscan => ?_⟩
    · have hone := t.one_le_slots
      rw [textLoop, if_neg (Nat.not_lt.mpr hk), tableIsArray_of_le (by omega), Option.bind_some, hcreate,
        Option.bind_some, if_neg (by omega)]
      dsimp only
      rw [hloop₁, Option.bind_some, hadd, Option.bind_some]
      exact hloop
    · rw [LuaTable.forest, hplace, ← List.append_assoc]
      exact hinv₃
    · obtain ⟨st₁, st₂', hmake, hput', hscan''⟩ := hscan
      rw [← keyed_or] at hput' hscan''
      have hst : st ≠ .waiting := by
        rintro rfl
        cases hmake
      obtain rfl : st₁ = .waiting := Pend.next_of_make hmake
      obtain rfl : st₂ = st₂' := Option.some.inj (hput.symm.trans hput')
      obtain ⟨rfl, hperm₁⟩ := hstrict₁ htidy.1.2 (by rw [hplain]; exact (scan_iff_addsOnce _ _).mpr htidy.1.1)
      obtain rfl := hlost₂ hst rfl
      obtain ⟨rfl, hperm⟩ := hstrict₃ htidy.2 hscan''
      rw [roots, if_neg (by decide), List.nil_append] at hperm₁
      rw [roots, roots, if_pos rfl] at hroots₂
      rw [roots, if_neg hst, List.nil_append]
      refine ⟨rfl, ?_⟩
      calc (adds₁ ++ adds₂ ++ adds₃).Perm (n₁ ++ adds₂ ++ (roots st₂ r ++ n₃)) :=
            (hperm₁.append_right adds₂).append hperm
        _ = n₁ ++ (adds₂ ++ roots st₂ r) ++ n₃ := by simp only [List.append_assoc]
        _ = n₁ ++ [r] ++ n₃ := by rw [← hroots₂]; rfl
        List.Perm _ (r :: n₁ ++ n₃) := (List.perm_append_singleton r n₁).append_right n₃

/-- **The whole conversion.** With room on the stack a table that adds no value twice becomes the tree of
`LuaTable.forest`; the items of a tidy one are those created, each added once. -/
theorem textBuild_builds {room : ℕ} {t : LuaTable} (hslots : t.slots ≤ room) (hsteady : t.Steady)
    (h : Heap (TCell JsonItem)) : ∃ json b cells, textBuild malloc room h t = some (json, b) ∧
      Owns b.heap json (.cons (newItem (containerType t.isArray)) (t.forest t.isArray none none) .nil) cells ∧
      cells.Nodup ∧ (t.Tidy → cells.Perm (json :: b.created) ∧ b.added.Perm b.created) := by
  obtain ⟨json, h₁, halloc, -, -, hread⟩ := alloc_spec hmalloc h ⟨newItem (containerType t.isArray), 0, 0⟩
  have hinv : LoopInv t.isArray json (newItem (containerType t.isArray)) 0 ⟨h₁, [], []⟩ 0 .fresh none .nil [] [] :=
    ⟨rfl, ⟨0, [], [], by dsimp only; rw [hread, if_pos rfl], owns_nil h₁, ⟨rfl, rfl, rfl⟩, List.Perm.refl []⟩,
      fun a ha => absurd ha List.not_mem_nil, List.nodup_singleton json⟩
  have hplain : (t.isArray || (none : Option (List UInt8)).isSome) = t.isArray := by
    rw [Option.isSome_none, Bool.or_false]
  have hscan : ScanOnce (t.isArray || (none : Option (List UInt8)).isSome) .fresh t.marks := by
    rw [hplain]
    exact (scanOnce_iff_noneTwice _ _).mpr hsteady.1
  obtain ⟨b, new, adds, lost, hloop, hinv', hgrows, hstrict⟩ := loop_builds hmalloc t hslots hsteady.2 hscan hinv
  obtain ⟨child, ck, cv, hroot, hkids, ⟨-, rfl⟩, hcells⟩ := hinv'.owns
  rw [List.nil_append, List.nil_append] at hcells
  have hnodup : (json :: (ck ++ lost)).Nodup :=
    (hcells.cons json).nodup_iff.mp (by rw [← List.nil_append new]; exact hinv'.nodup)
  refine ⟨json, b, json :: ck, ?_, owns_tree hroot hkids, ?_, fun htidy => ?_⟩
  · have hone := t.one_le_slots
    rw [textBuild, tableIsArray_of_le hslots, Option.bind_some, halloc, Option.bind_some, if_neg (by omega)]
    dsimp only
    rw [hloop, Option.map_some]
  · exact hnodup.sublist ((List.sublist_append_left ck lost).cons_cons json)
  · obtain ⟨rfl, hperm⟩ := hstrict htidy.2 (by rw [hplain]; exact (scan_iff_addsOnce _ _).mpr htidy.1)
    have hcreated : b.created = new := by rw [hgrows.created, List.nil_append]
    rw [List.append_nil] at hcells
    rw [hcreated, hgrows.added, List.nil_append]
    exact ⟨hcells.symm.cons json, hperm⟩

end Sarah

import SarahClient.April.Once

/-!
# The keys of the conversion are pointers

The variable `key` points to a string of the table, or to the text of a number that was pushed and popped; a push may
free the latter, and a table that is a value pushes its own numbers before the key is read.

* `KeyText`, `LuaTable.KeysLive`: what is behind the variable, and that it is live where an item is added;
* `Behind`: the variable and the strings; `nextKey_behind`: an entry's key;
* **`tableToJsonLoop_eq`**: with live keys the conversion is that with texts;
* **`keysLive_of_loop`**: a conversion that ends has live keys, where the collector always runs;
* `BuildsTree`, **`buildsTree_iff`**; **`not_buildsTree`**: a function behind a number.
-/

namespace Sarah

open Heap Forest StringHeap

/-- What is behind the variable `key`: a string that is held, a text that was pushed and popped, or one that may be
freed. -/
inductive KeyText
  | none
  | kept (s : List UInt8)
  | popped (s : List UInt8)
  | freed (s : List UInt8)
  deriving DecidableEq

/-- The number texts that a key pushes. -/
def LuaKey.pushes : LuaKey → List (List UInt8)
  | .integer i => [decimalInt i.toInt]
  | .number d => [decimalInt (luaToInteger d)]
  | _ => []

/-- The number texts that the conversion of a table pushes. -/
def LuaTable.pushes : LuaTable → List (List UInt8)
  | .nil => []
  | .leaf k _ rest => k.pushes ++ rest.pushes
  | .table k t rest => k.pushes ++ (t.pushes ++ rest.pushes)

namespace KeyText

/-- The bytes that are read through the pointer, up to the first NUL. -/
def text : KeyText → Option (List UInt8)
  | none => .none
  | kept s | popped s | freed s => some (cstr s)

/-- A number text that is pushed. -/
def ofNumber (held : List UInt8 → Bool) (s : List UInt8) : KeyText := if held s then kept s else popped s

/-- The variable after an entry's key. -/
def next (held : List UInt8 → Bool) (k : LuaKey) (ks : KeyText) : KeyText :=
  match k with
  | .integer i => ofNumber held (decimalInt i.toInt)
  | .number d => ofNumber held (decimalInt (luaToInteger d))
  | .string s => kept s
  | .other => ks

/-- Behind other pushes: the same text is shared. -/
def after (texts : List (List UInt8)) : KeyText → KeyText
  | popped s => if ∀ t ∈ texts, t = s then popped s else freed s
  | ks => ks

/-- Not freed. -/
def Live : KeyText → Prop
  | freed _ => False
  | _ => True

end KeyText

/-- Wherever an item is added to an object, its key is live; `present` says that the variable `value` is not `NULL`. -/
def LuaTable.KeysLive (held : List UInt8 → Bool) : LuaTable → Bool → KeyText → Bool → Prop
  | .nil, _, _, _ => True
  | .leaf k v rest, isArray, ks, present =>
    (isArray = false → (present || (leafItem v).isSome) = true → (ks.next held k).Live) ∧
      rest.KeysLive held isArray (ks.next held k) (present || (leafItem v).isSome)
  | .table k t rest, isArray, ks, _ =>
    t.KeysLive held t.isArray .none false ∧ (isArray = false → ((ks.next held k).after t.pushes).Live) ∧
      rest.KeysLive held isArray ((ks.next held k).after t.pushes) true

/-- The keys of a whole conversion. -/
def LuaTable.KeysKept (held : List UInt8 → Bool) (t : LuaTable) : Prop := t.KeysLive held t.isArray .none false

/-! ## The variable and the strings -/

section Behind

variable {gc : ℕ → Bool} {held : List UInt8 → Bool} {live : ℕ → List UInt8 → Strings UInt8 → Prop}
  {dead : ℕ → Strings UInt8 → Prop} {ks : KeyText} {key : Option (TextPtr UInt8)} {strs : Strings UInt8}

/-- The variable as a pointer: `live` says that a string is there, `dead` that it is freed. -/
def Behind (held : List UInt8 → Bool) (live : ℕ → List UInt8 → Strings UInt8 → Prop) (dead : ℕ → Strings UInt8 → Prop)
    (ks : KeyText) (key : Option (TextPtr UInt8)) (strs : Strings UInt8) : Prop :=
  match ks with
  | .none => key = none
  | .kept s => key = some (.static s)
  | .popped s => (shortString s = true ∧ held s = false) ∧ ∃ p, key = some (.object p) ∧ live p s strs
  | .freed _ => ∃ p, key = some (.object p) ∧ dead p strs

/-- The strings behind pushes of texts. -/
def pushAll (gc : ℕ → Bool) (held : List UInt8 → Bool) (texts : List (List UInt8)) (strs : Strings UInt8) :
    Strings UInt8 := (pushSources gc shortString held (texts.map Source.pushed) strs).2

theorem pushAll_append (texts texts' : List (List UInt8)) (strs : Strings UInt8) :
    pushAll gc held (texts ++ texts') strs = pushAll gc held texts' (pushAll gc held texts strs) := by
  rw [pushAll, List.map_append, pushSources_append]
  rfl

theorem pushAll_singleton (s : List UInt8) (strs : Strings UInt8) :
    pushAll gc held [s] strs = (push gc shortString held s strs).2 := rfl

theorem mem_map_pushed {texts : List (List UInt8)} {t : List UInt8} :
    Source.pushed t ∈ texts.map Source.pushed ↔ t ∈ texts := by
  constructor
  · intro h
    obtain ⟨t', ht', heq⟩ := List.mem_map.mp h
    cases heq
    exact ht'
  · exact fun h => List.mem_map_of_mem h

theorem nextKey_behind (hpush : ∀ s strs, shortString s = true → held s = false → ∃ p,
      (push gc shortString held s strs).1 = .object p ∧ live p s (push gc shortString held s strs).2)
    (hks : Behind held live dead ks key strs) (k : LuaKey) {room : ℕ} (hroom : k.slots ≤ room) :
    ∃ key', nextKey gc held room k key strs = some (key', pushAll gc held k.pushes strs) ∧
      Behind held live dead (ks.next held k) key' (pushAll gc held k.pushes strs) := by
  have hnumber : ∀ n : ℤ, -2 ^ 63 ≤ n → n < 2 ^ 63 → 3 ≤ room → ∃ key',
      pushNumber gc held room n strs = some (key', pushAll gc held [decimalInt n] strs) ∧
        Behind held live dead (KeyText.ofNumber held (decimalInt n)) key' (pushAll gc held [decimalInt n] strs) := by
    intro n h₁ h₂ hthree
    have hshort := shortString_decimalInt h₁ h₂
    refine ⟨some (push gc shortString held (decimalInt n) strs).1, ?_, ?_⟩
    · rw [pushNumber, if_neg (by omega), pushAll_singleton]
    · rw [KeyText.ofNumber, pushAll_singleton]
      cases hheld : held (decimalInt n) with
      | true =>
        rw [push_of_held ⟨hshort, hheld⟩]
        exact rfl
      | false =>
        obtain ⟨p, hptr, hlive⟩ := hpush (decimalInt n) strs hshort hheld
        exact ⟨⟨hshort, hheld⟩, p, congrArg some hptr, hlive⟩
  cases k with
  | integer i => exact hnumber i.toInt i.le_toInt i.toInt_lt hroom
  | number d => exact hnumber _ (luaToInteger_range d).1 (luaToInteger_range d).2 hroom
  | string s => exact ⟨_, rfl, rfl⟩
  | other => exact ⟨key, rfl, hks⟩

theorem nextKey_of_lt {k : LuaKey} {room : ℕ} (htwo : ¬ room < 2) (hroom : room < k.slots) :
    nextKey gc held room k key strs = none := by
  cases k with
  | integer i => exact if_pos hroom
  | number d => exact if_pos hroom
  | string s => exact absurd hroom htwo
  | other => exact absurd hroom htwo

theorem text_next (held : List UInt8 → Bool) (k : LuaKey) (ks : KeyText) : (ks.next held k).text = k.name ks.text := by
  have hnumber : ∀ n : ℤ, (KeyText.ofNumber held (decimalInt n)).text = some (decimalInt n) := by
    intro n
    have hcut := congrArg some (cstr_of_notMem (zero_notMem_decimalInt n))
    unfold KeyText.ofNumber
    split_ifs <;> exact hcut
  cases k with
  | integer i => exact hnumber _
  | number d => exact hnumber _
  | string s => rfl
  | other => rfl

theorem text_after (texts : List (List UInt8)) (ks : KeyText) : (ks.after texts).text = ks.text := by
  cases ks with
  | popped s =>
    rw [KeyText.after]
    split_ifs <;> rfl
  | _ => rfl

/-- A string that the next push of its text finds. -/
def Found (p : ℕ) (s : List UInt8) (strs : Strings UInt8) : Prop := strs.find s = some p

theorem Behind.after_found (hks : Behind held Found (fun _ _ => True) ks key strs) (texts : List (List UInt8)) :
    Behind held Found (fun _ _ => True) (ks.after texts) key (pushAll gc held texts strs) := by
  cases ks with
  | popped s =>
    obtain ⟨⟨hshort, hheld⟩, p, hkey, hfind⟩ := hks
    have hs : ¬ (shortString s = true ∧ held s = true) := fun h => by rw [hheld] at h; cases h.2
    rw [KeyText.after]
    split_ifs with hsame
    · refine ⟨⟨hshort, hheld⟩, p, hkey, find_pushSources hs hshort _ hfind fun t ht => ?_⟩
      exact hsame t (mem_map_pushed.mp ht)
    · exact ⟨p, hkey, trivial⟩
  | _ => exact hks

theorem Behind.after_only (hks : Behind held (fun p s strs => Only p s strs) (fun p strs => Dead p strs) ks key strs)
    (texts : List (List UInt8)) :
    Behind held (fun p s strs => Only p s strs) (fun p strs => Dead p strs) (ks.after texts) key
      (pushAll (fun _ => true) held texts strs) := by
  cases ks with
  | popped s =>
    obtain ⟨⟨hshort, hheld⟩, p, hkey, honly⟩ := hks
    have hs : ¬ (shortString s = true ∧ held s = true) := fun h => by rw [hheld] at h; cases h.2
    rw [KeyText.after]
    split_ifs with hsame
    · refine ⟨⟨hshort, hheld⟩, p, hkey, (pushSources_same hs _ honly fun t ht => ?_).1⟩
      obtain rfl := hsame t (mem_map_pushed.mp ht)
      exact ⟨hshort, rfl⟩
    · rw [not_forall] at hsame
      obtain ⟨t, ht⟩ := hsame
      rw [Classical.not_imp] at ht
      exact ⟨p, hkey, honly.dead (mem_map_pushed.mpr ht.1) ht.2⟩
  | freed s =>
    obtain ⟨p, hkey, hdead⟩ := hks
    exact ⟨p, hkey, hdead.pushSources _⟩
  | _ => exact hks

theorem push_found (s : List UInt8) (strs : Strings UInt8) (hshort : shortString s = true) (hheld : held s = false) :
    ∃ p, (push gc shortString held s strs).1 = .object p ∧ Found p s (push gc shortString held s strs).2 :=
  find_push (fun h => by rw [hheld] at h; cases h.2) hshort strs

theorem push_only (s : List UInt8) (strs : Strings UInt8) (_ : shortString s = true) (hheld : held s = false) :
    ∃ p, (push (fun _ => true) shortString held s strs).1 = .object p ∧
      Only p s (push (fun _ => true) shortString held s strs).2 :=
  only_push (fun h => by rw [hheld] at h; cases h.2) strs

end Behind

/-! ## One addition -/

section Add

variable {held : List UInt8 → Bool} {isArray : Bool} {b b' : Build} {json value : ℕ} {c : TCell JsonItem} {ks : KeyText}
  {key : Option (TextPtr UInt8)} {strs : Strings UInt8}

theorem addItem_keyText (hjson : b.heap.read json = some c) (htype : c.payload.type = containerType isArray)
    (hks : Behind held Found (fun _ _ => True) ks key strs) (hlive : isArray = false → value ≠ 0 → ks.Live) :
    addItem b json (keyText strs key) value = addItem b json (ks.text.map some) value := by
  rw [addItem, addItem, hjson, Option.bind_some, Option.bind_some, htype]
  cases isArray with
  | true => rfl
  | false =>
    have hobject : containerType false ≠ .array := by decide
    rw [if_neg hobject, if_neg hobject]
    cases ks with
    | none =>
      obtain rfl : key = none := hks
      rfl
    | kept s =>
      obtain rfl : key = some (.static s) := hks
      rfl
    | popped s =>
      obtain ⟨-, p, rfl, hfind⟩ := hks
      have hobj : strs.deref (.object p) = some s := (Strings.find_eq_some_iff.mp hfind).1
      rw [keyText, Option.map_some, hobj]
      rfl
    | freed s =>
      obtain ⟨p, rfl, -⟩ := hks
      have hvalue : value = 0 := by
        by_contra hne
        exact hlive rfl hne
      subst hvalue
      rfl

theorem live_of_addItem (hjson : b.heap.read json = some c) (htype : c.payload.type = containerType isArray)
    (hks : Behind held (fun p s strs => Only p s strs) (fun p strs => Dead p strs) ks key strs)
    (hadd : addItem b json (keyText strs key) value = some b') : isArray = false → value ≠ 0 → ks.Live := by
  rintro rfl hvalue
  have hobject : containerType false ≠ .array := by decide
  rw [addItem, hjson, Option.bind_some, htype, if_neg hobject] at hadd
  cases ks with
  | freed s =>
    obtain ⟨p, rfl, hdead⟩ := hks
    have hobj : strs.deref (.object p) = none := hdead.2
    rw [keyText, Option.map_some, hobj, addItemToObject, if_neg hvalue] at hadd
    cases hadd
  | _ => trivial

end Add

/-! ## The loop -/

section Loop

variable {malloc : Malloc (TCell JsonItem)} {held : List UInt8 → Bool}

theorem isArray_of_tableIsArray {room : ℕ} {t : LuaTable} {a : Bool} (h : tableIsArray room t = some a) :
    a = t.isArray := by
  rw [tableIsArray] at h
  split_ifs at h
  exact (Option.some.inj h).symm

theorem present_of_nextValue {b b' : Build} {v : LuaLeaf} {value r : ℕ} {present : Bool}
    (hv : nextValue malloc b v value = some (r, b')) (hpresent : value ≠ 0 ↔ present = true) :
    r ≠ 0 ↔ (present || (leafItem v).isSome) = true := by
  obtain ⟨n, hlog, hentry⟩ := nextValue_logged hv
  cases hitem : (leafItem v).isSome with
  | false =>
    rw [hitem, if_neg Bool.false_ne_true] at hentry
    rw [hentry.1, Bool.or_false, hpresent]
  | true =>
    rw [hitem, if_pos rfl] at hentry
    obtain ⟨c, hc⟩ := hlog.live r hentry.1
    rw [Bool.or_true]
    exact iff_of_true (ne_zero_of_read hc) rfl

/-- **With live keys the conversion is that with texts**, whenever the collector runs. -/
theorem tableToJsonLoop_eq (gc : ℕ → Bool) (t : LuaTable) : ∀ {isArray : Bool} {json value room : ℕ} {b : Build}
    {c : TCell JsonItem} {ks : KeyText} {key : Option (TextPtr UInt8)} {present : Bool} {strs : Strings UInt8},
    b.heap.read json = some c → c.payload.type = containerType isArray → (value ≠ 0 ↔ present = true) →
    t.KeysLive held isArray ks present → Behind held Found (fun _ _ => True) ks key strs →
    tableToJsonLoop malloc gc held json t room key value b strs =
      (textLoop malloc json t room ks.text value b).map fun b => (b, pushAll gc held t.pushes strs) := by
  induction t with
  | nil =>
    intro isArray json value room b c ks key present strs _ _ _ _ _
    rfl
  | leaf k v rest ih =>
    intro isArray json value room b c ks key present strs hjson htype hpresent hkeys hks
    rw [tableToJsonLoop, textLoop]
    have hslots := k.two_le_slots
    by_cases hroom : room < k.slots
    · rw [if_pos hroom]
      by_cases htwo : room < 2
      · rw [if_pos htwo]
        rfl
      · rw [if_neg htwo, nextKey_of_lt htwo hroom]
        rfl
    obtain ⟨key', hkey, hks'⟩ := nextKey_behind push_found hks k (Nat.not_lt.mp hroom)
    rw [if_neg (by omega), if_neg hroom, hkey, Option.bind_some]
    cases hv : nextValue malloc b v value with
    | none => rfl
    | some q =>
      obtain ⟨r, b₁⟩ := q
      have hpresent' := present_of_nextValue hv hpresent
      obtain ⟨n, hlog, -⟩ := nextValue_logged hv
      obtain ⟨c₁, hjson₁, htype₁⟩ := hlog.keeps json c hjson
      rw [htype] at htype₁
      rw [Option.bind_some, Option.bind_some]
      dsimp only
      rw [addItem_keyText hjson₁ htype₁ hks' fun harray hne => hkeys.1 harray (hpresent'.mp hne), text_next]
      cases hadd : addItem b₁ json ((k.name ks.text).map some) r with
      | none => rfl
      | some b₂ =>
        obtain ⟨c₂, hjson₂, htype₂⟩ := (addItem_logged hjson₁ htype₁ hadd).1 json c₁ hjson₁
        rw [Option.bind_some, Option.bind_some, ← text_next held, LuaTable.pushes, pushAll_append]
        exact ih hjson₂ (htype₂.trans htype₁) hpresent' hkeys.2 hks'
  | table k t rest iht ihr =>
    intro isArray json value room b c ks key present strs hjson htype hpresent hkeys hks
    obtain ⟨hinside, hlive, hrest⟩ := hkeys
    rw [tableToJsonLoop, textLoop]
    have hslots := k.two_le_slots
    by_cases hroom : room < k.slots
    · rw [if_pos hroom]
      by_cases htwo : room < 2
      · rw [if_pos htwo]
        rfl
      · rw [if_neg htwo, nextKey_of_lt htwo hroom]
        rfl
    obtain ⟨key', hkey, hks'⟩ := nextKey_behind push_found hks k (Nat.not_lt.mp hroom)
    rw [if_neg (by omega), if_neg hroom, hkey, Option.bind_some]
    cases harray : tableIsArray (room - 2) t with
    | none => rfl
    | some a =>
      obtain rfl := isArray_of_tableIsArray harray
      rw [Option.bind_some, Option.bind_some]
      cases hcreate : create malloc b (newItem (containerType t.isArray)) with
      | none => rfl
      | some q =>
        obtain ⟨r, b₀⟩ := q
        obtain ⟨hlog₀, hread₀⟩ := create_eq_some hcreate value
        rw [Option.bind_some, Option.bind_some]
        dsimp only
        by_cases hdown : room - 2 < 1
        · rw [if_pos hdown, if_pos hdown]
          rfl
        rw [if_neg hdown, if_neg hdown,
          iht hread₀ rfl (iff_of_false (fun h => h rfl) Bool.false_ne_true) hinside (show none = none from rfl)]
        cases hloop : textLoop malloc r t (room - 2) none 0 b₀ with
        | none =>
          rw [KeyText.text, hloop]
          rfl
        | some b₁ =>
          -- the table's own conversion leaves `json` as it is, and pushes its numbers
          obtain ⟨-, n₁, a₁, hlog₁, -⟩ := loop_logged t hloop hread₀ rfl fun h => absurd rfl h
          obtain ⟨hrn, hlog, -⟩ := hlog₀.cons hread₀ hlog₁
          obtain ⟨c₁, hjson₁, htype₁⟩ := hlog.keeps json c hjson
          rw [htype] at htype₁
          have hks₁ := @Behind.after_found gc held _ _ _ hks' t.pushes
          rw [KeyText.text, hloop, Option.map_some, Option.bind_some, Option.bind_some]
          dsimp only
          rw [addItem_keyText hjson₁ htype₁ hks₁ fun harray _ => hlive harray, text_after, text_next]
          cases hadd : addItem b₁ json ((k.name ks.text).map some) r with
          | none => rfl
          | some b₂ =>
            obtain ⟨c₂, hjson₂, htype₂⟩ := (addItem_logged hjson₁ htype₁ hadd).1 json c₁ hjson₁
            have hr : r ≠ 0 := ne_zero_of_read hread₀
            rw [Option.bind_some, Option.bind_some, ← text_next held, ← text_after t.pushes, LuaTable.pushes,
              pushAll_append, pushAll_append]
            exact ihr hjson₂ (htype₂.trans htype₁) (iff_of_true hr rfl) hrest hks₁

/-- **A conversion that ends has live keys**, where the collector always runs. -/
theorem keysLive_of_loop (t : LuaTable) : ∀ {isArray : Bool} {json value room : ℕ} {b : Build} {c : TCell JsonItem}
    {ks : KeyText} {key : Option (TextPtr UInt8)} {present : Bool} {strs : Strings UInt8} {u : Build × Strings UInt8},
    b.heap.read json = some c → c.payload.type = containerType isArray → (value ≠ 0 ↔ present = true) →
    Behind held (fun p s strs => Only p s strs) (fun p strs => Dead p strs) ks key strs →
    tableToJsonLoop malloc (fun _ => true) held json t room key value b strs = some u →
    t.KeysLive held isArray ks present := by
  induction t with
  | nil =>
    intro isArray json value room b c ks key present strs u _ _ _ _ _
    trivial
  | leaf k v rest ih =>
    intro isArray json value room b c ks key present strs u hjson htype hpresent hks hrun
    rw [tableToJsonLoop] at hrun
    split_ifs at hrun with htwo
    obtain ⟨q, hq, hrun⟩ := Option.bind_eq_some_iff.mp hrun
    have hroom : k.slots ≤ room := by
      by_contra hlt
      rw [nextKey_of_lt htwo (Nat.not_le.mp hlt)] at hq
      cases hq
    obtain ⟨key', hkey, hks'⟩ := nextKey_behind push_only hks k hroom
    obtain rfl := Option.some.inj (hkey.symm.trans hq)
    obtain ⟨⟨r, b₁⟩, hv, hrun⟩ := Option.bind_eq_some_iff.mp hrun
    obtain ⟨b₂, hadd, hrun⟩ := Option.bind_eq_some_iff.mp hrun
    dsimp only at hadd hrun
    have hpresent' := present_of_nextValue hv hpresent
    obtain ⟨n, hlog, -⟩ := nextValue_logged hv
    obtain ⟨c₁, hjson₁, htype₁⟩ := hlog.keeps json c hjson
    rw [htype] at htype₁
    obtain ⟨c₂, hjson₂, htype₂⟩ := (addItem_logged hjson₁ htype₁ hadd).1 json c₁ hjson₁
    refine ⟨fun harray hp => live_of_addItem hjson₁ htype₁ hks' hadd harray (hpresent'.mpr hp), ?_⟩
    exact ih hjson₂ (htype₂.trans htype₁) hpresent' hks' hrun
  | table k t rest iht ihr =>
    intro isArray json value room b c ks key present strs u hjson htype hpresent hks hrun
    have htwo : ¬ room < 2 := by
      intro h
      rw [tableToJsonLoop, if_pos h] at hrun
      cases hrun
    rw [tableToJsonLoop, if_neg htwo] at hrun
    obtain ⟨q, hq, hrun⟩ := Option.bind_eq_some_iff.mp hrun
    have hroom : k.slots ≤ room := by
      by_contra hlt
      rw [nextKey_of_lt htwo (Nat.not_le.mp hlt)] at hq
      cases hq
    obtain ⟨key', hkey, hks'⟩ := nextKey_behind push_only hks k hroom
    obtain rfl := Option.some.inj (hkey.symm.trans hq)
    obtain ⟨a, harray, hrun⟩ := Option.bind_eq_some_iff.mp hrun
    obtain rfl := isArray_of_tableIsArray harray
    obtain ⟨⟨r, b₀⟩, hcreate, hrun⟩ := Option.bind_eq_some_iff.mp hrun
    obtain ⟨w, hinner, hrun⟩ := Option.bind_eq_some_iff.mp hrun
    obtain ⟨b₂, hadd, hrun⟩ := Option.bind_eq_some_iff.mp hrun
    dsimp only at hinner hadd hrun
    split_ifs at hinner with hdown
    obtain ⟨hlog₀, hread₀⟩ := create_eq_some hcreate value
    have hnull : (0 : ℕ) ≠ 0 ↔ false = true := iff_of_false (fun h => h rfl) Bool.false_ne_true
    have hinside := iht hread₀ rfl hnull (show Behind held _ _ .none none _ from rfl) hinner
    -- the table's own conversion is the one with texts
    rw [tableToJsonLoop_eq _ t hread₀ rfl hnull hinside (show Behind held _ _ .none none _ from rfl)] at hinner
    obtain ⟨b₁, hloop, rfl⟩ := Option.map_eq_some_iff.mp hinner
    obtain ⟨-, n₁, a₁, hlog₁, -⟩ := loop_logged t hloop hread₀ rfl fun h => absurd rfl h
    obtain ⟨hrn, hlog, -⟩ := hlog₀.cons hread₀ hlog₁
    obtain ⟨c₁, hjson₁, htype₁⟩ := hlog.keeps json c hjson
    rw [htype] at htype₁
    obtain ⟨c₂, hjson₂, htype₂⟩ := (addItem_logged hjson₁ htype₁ hadd).1 json c₁ hjson₁
    have hks₁ := hks'.after_only t.pushes
    have hr : r ≠ 0 := ne_zero_of_read hread₀
    refine ⟨hinside, fun harray => live_of_addItem hjson₁ htype₁ hks₁ hadd harray hr, ?_⟩
    exact ihr hjson₂ (htype₂.trans htype₁) (iff_of_true hr rfl) hks₁ hrun

end Loop

/-! ## The conversion -/

section Conversion

variable {malloc : Malloc (TCell JsonItem)} {elsewhere : List UInt8 → Bool} {room : ℕ} {h : Heap (TCell JsonItem)}
  {t : LuaTable}

theorem read_of_alloc {item : JsonItem} {r : ℕ} {h' : Heap (TCell JsonItem)}
    (halloc : alloc malloc h ⟨item, 0, 0⟩ = some (r, h')) : h'.read r = some ⟨item, 0, 0⟩ := by
  have hcreate : create malloc ⟨h, [], []⟩ item = some (r, ⟨h', [r], []⟩) := by
    rw [create, halloc, Option.map_some]
    rfl
  exact (create_eq_some hcreate 0).2

theorem jsonBuild_eq (gc : ℕ → Bool) (hkeys : t.KeysKept (conversionHeld elsewhere t)) :
    jsonBuild malloc gc elsewhere room h t = textBuild malloc room h t := by
  rw [jsonBuild, textBuild]
  cases harray : tableIsArray room t with
  | none => rfl
  | some a =>
    obtain rfl := isArray_of_tableIsArray harray
    rw [Option.bind_some, Option.bind_some]
    cases halloc : alloc malloc h ⟨newItem (containerType t.isArray), 0, 0⟩ with
    | none => rfl
    | some q =>
      obtain ⟨r, h₁⟩ := q
      rw [Option.bind_some, Option.bind_some, tableToJson]
      dsimp only
      split_ifs with hroom
      · rfl
      · rw [tableToJsonLoop_eq gc t (read_of_alloc halloc) rfl (iff_of_false (fun h => h rfl) Bool.false_ne_true) hkeys
          (show none = none from rfl), Option.map_map]
        rfl

theorem keysKept_of_jsonBuild {r : ℕ × Build} (hrun : jsonBuild malloc (fun _ => true) elsewhere room h t = some r) :
    t.KeysKept (conversionHeld elsewhere t) := by
  obtain ⟨a, harray, hrun⟩ := Option.bind_eq_some_iff.mp hrun
  obtain rfl := isArray_of_tableIsArray harray
  obtain ⟨⟨json, h₁⟩, halloc, hrun⟩ := Option.bind_eq_some_iff.mp hrun
  obtain ⟨u, hloop, -⟩ := Option.map_eq_some_iff.mp hrun
  rw [tableToJson] at hloop
  split_ifs at hloop with hroom
  exact keysLive_of_loop t (read_of_alloc halloc) rfl (iff_of_false (fun h => h rfl) Bool.false_ne_true)
    (show none = none from rfl) hloop

/-- The conversion ends with a finite tree whose cells are the root and the items created, each added once; printing
it ends with the tree, and deleting it frees each of its cells once and no other. -/
def BuildsTree (malloc : Malloc (TCell JsonItem)) (gc : ℕ → Bool) (elsewhere : List UInt8 → Bool) (room : ℕ)
    (h : Heap (TCell JsonItem)) (t : LuaTable) : Prop :=
  ∃ json b root kids cells h', jsonBuild malloc gc elsewhere room h t = some (json, b) ∧
    Owns b.heap json (.cons root kids .nil) cells ∧ cells.Nodup ∧
    cells.Perm (json :: b.created) ∧ b.added.Perm b.created ∧
    readForest b.heap (b.heap.keys.card + 1) json = some (.cons root kids .nil) ∧
    cjsonDelete b.heap json = some h' ∧ ∀ a, h'.read a = if a ∈ cells then none else b.heap.read a

/-- A tree is built only from a tidy table whose keys are kept, where the collector always runs. -/
theorem tidy_of_buildsTree (hbuilds : BuildsTree malloc (fun _ => true) elsewhere room h t) :
    t.slots ≤ room ∧ t.Tidy ∧ t.KeysKept (conversionHeld elsewhere t) := by
  obtain ⟨json, b, root, kids, cells, h', hrun, -, hnd, hcells, hadded, -⟩ := hbuilds
  have hkeys := keysKept_of_jsonBuild hrun
  rw [jsonBuild_eq _ hkeys] at hrun
  obtain ⟨hslots, htidy⟩ := textBuild_logged hrun
  exact ⟨hslots, htidy (List.nodup_cons.mp (hcells.nodup_iff.mp hnd)).2 hadded, hkeys⟩

/-- **The conversion builds a tree**, whenever the collector runs, exactly from the tidy tables that the stack has room
for and whose keys are kept. -/
theorem buildsTree_iff (hmalloc : malloc.Total) (elsewhere : List UInt8 → Bool) (room : ℕ) (h : Heap (TCell JsonItem))
    (t : LuaTable) : (∀ gc, BuildsTree malloc gc elsewhere room h t) ↔
      t.slots ≤ room ∧ t.Tidy ∧ t.KeysKept (conversionHeld elsewhere t) := by
  refine ⟨fun hall => tidy_of_buildsTree (hall _), fun ⟨hslots, htidy, hkeys⟩ gc => ?_⟩
  obtain ⟨json, b, cells, hrun, hown, hnd, hstrict⟩ := textBuild_builds hmalloc hslots htidy.steady h
  obtain ⟨hcells, hadded⟩ := hstrict htidy
  have hsize := Nat.lt_succ_of_le (hown.size_le hnd)
  obtain ⟨h', hdelete, hread⟩ := hown.freeForest hnd hsize
  rw [← jsonBuild_eq gc hkeys] at hrun
  exact ⟨json, b, _, _, cells, h', hrun, hown, hnd, hcells, hadded, hown.readForest hsize, hdelete, hread⟩

/-- An object with a number, a nested array and, before its first key, a function; the collector runs all the time. -/
theorem buildsTree_iff_object : BuildsTree Malloc.bump (fun _ => true) (fun _ => false) 20 ∅ (.leaf .other .other
    (.leaf (.string (lit "a")) (.integer 5) (.table (.string (lit "b")) (.leaf (.integer 1) (.boolean true) .nil)
      .nil))) := by
  refine (buildsTree_iff Malloc.bump_total _ 20 ∅ _).mpr ⟨by decide, ⟨?_, ?_⟩, ?_⟩ _
  · exact .inl ⟨by decide, by decide⟩
  · exact ⟨⟨.inl ⟨by decide, by decide⟩, trivial⟩, trivial⟩
  · exact ⟨fun _ h => absurd h (by decide), fun _ _ => trivial, ⟨fun h => absurd h (by decide), trivial⟩,
      fun _ => trivial, trivial⟩

/-- A number and a function in an array: the number is added again, and the list of children is a cycle. -/
theorem not_buildsTree : ¬ ∀ (gc : ℕ → Bool) (elsewhere : List UInt8 → Bool) (t : LuaTable),
    BuildsTree Malloc.bump gc elsewhere 20 ∅ t := by
  intro hall
  have htidy := (tidy_of_buildsTree (hall _ (fun _ => false)
    (.leaf (.integer 1) (.integer 5) (.leaf (.integer 2) .other .nil)))).2.1
  obtain ⟨-, hpair⟩ | ⟨hcount, -⟩ := htidy.1
  · exact absurd hpair (by decide)
  · exact absurd hcount (by decide)

end Conversion

end Sarah

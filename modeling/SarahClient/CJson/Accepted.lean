import SarahClient.April.StackLimit
import SarahClient.CJson.RoundTrip

/-!
# The trees that the parser accepts

* `exists_text`: a printable tree has a text;
* `Accepted`: a printable tree of limited nesting, which is what a reader sees of it where its numbers are finite;
* `parseValue_yields`: the parser builds such trees, by induction on the nesting that is left;
* **`cJSONParse_accepted`**: so does `cJSON_Parse`.
-/

namespace Sarah.JsonText

open Stdio

theorem exists_text {f : Forest JsonItem} (hprint : Printable f) (format object : Bool) (depth : ℕ) :
    ∃ t, text format f object depth = some t := by
  induction f generalizing object depth with
  | nil => exact ⟨[], rfl⟩
  | cons item kids f ihk ihf =>
    obtain ⟨more, hmore⟩ := ihf hprint.2 object depth
    have hvalue : ∃ v, valueText format item depth (text format kids) = some v := by
      obtain ⟨hitem, -⟩ := hprint
      unfold valueText leafText
      cases htype : item.type with
      | array =>
        rw [htype] at hitem
        obtain ⟨u, hu⟩ := ihk hitem false (depth + 1)
        exact ⟨_, Option.map_eq_some_iff.mpr ⟨u, hu, rfl⟩⟩
      | object =>
        rw [htype] at hitem
        obtain ⟨u, hu⟩ := ihk hitem true (depth + 1)
        exact ⟨_, Option.map_eq_some_iff.mpr ⟨u, hu, rfl⟩⟩
      | number =>
        rw [htype] at hitem
        cases hd : item.valuedouble with
        | none => exact ⟨_, rfl⟩
        | some d =>
          cases d with
          | fin q =>
            obtain ⟨p, -, -, hq, -⟩ := printNumber_fin (hitem _ hd)
            exact ⟨_, hq⟩
          | ninf | pinf => exact ⟨_, rfl⟩
      | null | false | true | string => exact ⟨_, rfl⟩
      | raw | invalid =>
        rw [htype] at hitem
        exact hitem.elim
    obtain ⟨v, hv⟩ := hvalue
    rw [text, hv, Option.bind_some, hmore, Option.map_some]
    exact ⟨_, rfl⟩

/-- Every number is finite. -/
def FiniteNumbers : Forest JsonItem → Prop
  | .nil => True
  | .cons item kids rest =>
    (item.type = .number → ∃ q, item.valuedouble = some (.fin q)) ∧ FiniteNumbers kids ∧ FiniteNumbers rest

/-- A tree that the parser may build: the items have names or none, and arrays and objects are nested `limit` times. -/
structure Accepted (limit : ℕ) (named : Bool) (f : Forest JsonItem) : Prop where
  printable : Printable f
  nesting : nesting f ≤ limit
  parsed : Parsed f
  wire : FiniteNumbers f → wire f named = f

namespace Accepted

variable {limit : ℕ} {named : Bool} {item : JsonItem} {kids rest : Forest JsonItem}

theorem nil : Accepted limit named .nil := ⟨trivial, Nat.zero_le _, trivial, fun _ => rfl⟩

theorem cons (h : Accepted limit named (.cons item kids .nil)) (hrest : Accepted limit named rest) :
    Accepted limit named (.cons item kids rest) := by
  refine ⟨⟨h.printable.1, hrest.printable⟩, ?_, ⟨h.parsed.1, hrest.parsed⟩, fun hfin => ?_⟩
  · have hone := h.nesting
    rw [JsonText.nesting, JsonText.nesting, Nat.max_zero] at hone
    exact Nat.max_le.mpr ⟨hone, hrest.nesting⟩
  · have hone := h.wire ⟨hfin.1, hfin.2.1, trivial⟩
    rw [JsonText.wire] at hone ⊢
    injection hone with hitem hkids
    rw [hitem, hkids, hrest.wire hfin.2.2]

theorem leaf (hprint : Printable (.cons item .nil .nil)) (hparsed : Parsed (.cons item .nil .nil))
    (harray : item.type ≠ .array) (hobject : item.type ≠ .object)
    (hitem : FiniteNumbers (.cons item .nil .nil) → wireValue item = item) :
      Accepted limit false (.cons item .nil .nil) := by
  have hinside := leaf_inside harray hobject (JsonText.wire .nil) (JsonText.nesting .nil)
  refine ⟨hprint, ?_, hparsed, fun hfin => ?_⟩
  · rw [JsonText.nesting, hinside.2]
    exact Nat.zero_le _
  · rw [JsonText.wire, hinside.1, wireItem_false, hitem hfin]
    rfl

theorem name (h : Accepted limit false (.cons item kids .nil)) {s : List UInt8} (hs : 0 ∉ s) :
    Accepted limit true (.cons { item with string := some s } kids .nil) := by
  refine ⟨h.printable, h.nesting, h.parsed, fun hfin => ?_⟩
  have hone := h.wire hfin
  rw [JsonText.wire, wireItem_false] at hone
  injection hone with hitem hkids
  have hvalue : wireItem true { item with string := some s } = { item with string := some s } := by
    show { wireValue item with string := some (cstr s) } = _
    rw [hitem, cstr_of_notMem hs]
  rw [JsonText.wire, hvalue]
  exact congrArg₂ _ hkids rfl

theorem brackets {object : Bool} (h : Accepted limit object kids) :
    Accepted (limit + 1) false (.cons (newItem (if object then .object else .array)) kids .nil) := by
  cases object with
  | false =>
    refine ⟨⟨h.printable, trivial⟩, ?_, ⟨h.parsed, trivial⟩, fun hfin => ?_⟩
    · exact Nat.max_le.mpr ⟨Nat.succ_le_succ h.nesting, Nat.zero_le _⟩
    · have hkids := h.wire hfin.2.1
      rw [JsonText.wire]
      exact congrArg (fun f => Forest.cons (newItem .array) f .nil) hkids
  | true =>
    refine ⟨⟨h.printable, trivial⟩, ?_, ⟨h.parsed, trivial⟩, fun hfin => ?_⟩
    · exact Nat.max_le.mpr ⟨Nat.succ_le_succ h.nesting, Nat.zero_le _⟩
    · have hkids := h.wire hfin.2.1
      rw [JsonText.wire]
      exact congrArg (fun f => Forest.cons (newItem .object) f .nil) hkids

end Accepted

/-! ## What the parser builds -/

/-- What a parsing function finds. -/
def Yields {α : Type} (P : α → Prop) (r : Outcome α) : Prop := ∀ a o, r = .ok a o → P a

section Yields

variable {α β : Type} {P : α → Prop} {Q : β → Prop}

theorem Yields.ok {a : α} (h : P a) (o : ℕ) : Yields P (.ok a o) := by
  rintro _ _ ⟨⟩
  exact h

theorem Yields.fail (o : ℕ) : Yields P (.fail o) := fun _ _ h => by cases h

theorem Yields.fault : Yields P .fault := fun _ _ h => by cases h

theorem Yields.bind {r : Outcome α} {f : α → ℕ → Outcome β} (h : Yields P r) (hf : ∀ a o, P a → Yields Q (f a o)) :
    Yields Q (r.bind f) := by
  cases r with
  | fault => exact .fault
  | fail o => exact .fail o
  | ok a o => exact hf a o (h a o rfl)

end Yields

/-- An accepted value. -/
def AcceptedNode (limit : ℕ) (named : Bool) (v : Node) : Prop := Accepted limit named (.cons v.1 v.2 .nil)

variable {content : List UInt8} {limit : ℕ}

theorem parseNumber_yields (limit offset : ℕ) : Yields (AcceptedNode limit false) (parseNumber content offset) := by
  unfold parseNumber
  dsimp only
  generalize ((content.drop offset).take 63).takeWhile numberChar = text
  cases hread : strtod text with
  | none => exact .fail _
  | some r =>
    obtain ⟨d, after⟩ := r
    have hbinary : d.Binary64 := by
      unfold strtod at hread
      dsimp only at hread
      split at hread
      · cases hread
      · cases hread
        exact Double.round_binary64 _
    refine .ok (.leaf ⟨fun d' hd => ?_, trivial⟩ ⟨rfl, trivial⟩ (fun h => by cases h)
      (fun h => by cases h) fun hfin => ?_) _
    · cases hd
      exact hbinary
    · obtain ⟨q, hq⟩ := hfin.1 rfl
      obtain rfl : d = .fin q := Option.some.inj hq
      rfl

theorem parseString_yields {named : Bool} {v : List UInt8 → Node} (h : ∀ s, AcceptedNode limit named (v s))
    (offset : ℕ) :
    Yields (AcceptedNode limit named) ((parseString content offset).bind fun s o => .ok (v s) o) :=
  Yields.bind (P := fun _ => True) (fun _ _ _ => trivial) fun s o _ => .ok (h s) o

section Entries

variable {named : Bool} {entry : ℕ → Outcome Node} {close : UInt8}

theorem parseEntries_yields (hentry : ∀ o, Yields (AcceptedNode limit named) (entry o)) (fuel offset : ℕ) :
    Yields (Accepted limit named) (parseEntries content close entry fuel offset) := by
  induction fuel generalizing offset with
  | zero => exact .fault
  | succ fuel ih =>
    rw [parseEntries]
    refine (hentry _).bind fun v o hv => ?_
    dsimp only
    split_ifs
    · exact (ih _).bind fun rest p hrest => .ok (hv.cons hrest) p
    · exact Yields.ok (P := Accepted limit named) hv _
    · exact .fail _

theorem parseBrackets_yields (object : Bool) (hentry : ∀ o, Yields (AcceptedNode limit object) (entry o)) (offset : ℕ) :
    Yields (AcceptedNode (limit + 1) false)
      (parseBrackets content (if object then .object else .array) close entry offset) := by
  have hbrackets : ∀ kids, Accepted limit object kids →
      AcceptedNode (limit + 1) false (newItem (if object then .object else .array), kids) := fun kids h => h.brackets
  unfold parseBrackets
  dsimp only
  generalize bufferSkipWhitespace content (offset + 1) = o
  by_cases hend : content[o]? = some close
  · rw [if_pos hend]
    exact Yields.ok (hbrackets .nil .nil) _
  · rw [if_neg hend]
    by_cases hnone : content[o]? = none
    · rw [if_pos hnone]
      exact .fail _
    · rw [if_neg hnone]
      exact (parseEntries_yields hentry _ _).bind fun kids p hkids => Yields.ok (hbrackets kids hkids) p

end Entries

theorem parseMember_yields {value : ℕ → Outcome Node} (hvalue : ∀ o, Yields (AcceptedNode limit false) (value o))
    (offset : ℕ) : Yields (AcceptedNode limit true) (parseMember content value offset) := by
  unfold parseMember
  refine Yields.bind (P := fun _ => True) (fun _ _ _ => trivial) fun name o _ => ?_
  dsimp only
  split_ifs
  · exact .fail _
  · refine (hvalue _).bind fun v p hv => Yields.ok (P := AcceptedNode limit true) ?_ p
    exact Accepted.name hv (zero_notMem_cstr name)

theorem parseValue_yields_of
    (hinside : ∀ n, limit = n + 1 → ∀ o, Yields (AcceptedNode n false) (parseValue content n o))
    (offset : ℕ) : Yields (AcceptedNode limit false) (parseValue content limit offset) := by
  have hword : ∀ (item : JsonItem) (o : ℕ), item = newItem .null ∨ item = newItem .false ∨
      item = { newItem .true with valueint := 1 } → Yields (AcceptedNode limit false) (.ok (item, .nil) o) := by
    intro item o h
    have hitem : Accepted limit false (.cons item .nil .nil) := by
      rcases h with rfl | rfl | rfl
      · exact .leaf ⟨trivial, trivial⟩ ⟨rfl, trivial⟩ (by decide) (by decide) fun _ => rfl
      · exact .leaf ⟨trivial, trivial⟩ ⟨rfl, trivial⟩ (by decide) (by decide) fun _ => rfl
      · exact .leaf ⟨trivial, trivial⟩ ⟨rfl, trivial⟩ (by decide) (by decide) fun _ => rfl
    exact Yields.ok (P := AcceptedNode limit false) (a := (item, .nil)) hitem o
  have hstring : ∀ s, AcceptedNode limit false (createString s, .nil) := by
    intro s
    refine .leaf ⟨trivial, trivial⟩ ⟨rfl, trivial⟩ (fun h => by cases h) (fun h => by cases h) fun _ => ?_
    show createString (cstr s) = createString s
    rw [createString, createString, cstr_of_notMem (zero_notMem_cstr s)]
  rw [parseValue.eq_def]
  split_ifs
  · exact hword _ _ (.inl rfl)
  · exact hword _ _ (.inr (.inl rfl))
  · exact hword _ _ (.inr (.inr rfl))
  · exact parseString_yields hstring offset
  · exact parseNumber_yields limit offset
  · cases limit with
    | zero => exact .fail _
    | succ limit =>
      dsimp only
      rw [parseArray]
      split
      · exact .fault
      · split_ifs
        · exact .fail _
        · exact parseBrackets_yields false (hinside limit rfl) offset
  · cases limit with
    | zero => exact .fail _
    | succ limit =>
      dsimp only
      rw [parseObject]
      split_ifs
      · exact .fail _
      · exact parseBrackets_yields true (parseMember_yields (hinside limit rfl)) offset
  · exact .fail _

/-- **`parse_value`** builds accepted values, by induction on the nesting that is left. -/
theorem parseValue_yields (limit : ℕ) : ∀ o, Yields (AcceptedNode limit false) (parseValue content limit o) := by
  induction limit with
  | zero => exact parseValue_yields_of fun n hn => absurd hn (by omega)
  | succ limit ih =>
    refine parseValue_yields_of fun n hn => ?_
    obtain rfl := Nat.succ.inj hn
    exact ih

/-- **What `cJSON_Parse` accepts.** -/
theorem cJSONParse_accepted {value : List UInt8} {tree : Forest JsonItem} (h : cJSONParse value = some (.ok tree)) :
    ∃ item kids, tree = .cons item kids .nil ∧ Accepted nestingLimit false tree := by
  unfold cJSONParse at h
  dsimp only at h
  have hyields : Yields (AcceptedNode nestingLimit false) (parseValue (cstr value ++ [0]) nestingLimit
      (bufferSkipWhitespace (cstr value ++ [0]) (skipUtf8Bom (cstr value ++ [0])))) := parseValue_yields nestingLimit _
  split at h
  · cases h
  · cases h
  · rename_i v o heq
    cases h
    exact ⟨_, _, rfl, hyields _ _ heq⟩

end Sarah.JsonText

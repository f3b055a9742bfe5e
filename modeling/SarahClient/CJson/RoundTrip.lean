import SarahClient.CJson.Strings

/-!
# The parser reads what the printer writes

* `parseNumber_printNumber`, `parseValue_leaf`: values without items inside;
* `parseEntries_text`: the items of an array or an object, by induction on the tree;
* **`cJSONParse_text`**: the text of a tree is read as the tree if arrays and objects are nested at most 1000 times, and
  is refused else.
-/

namespace Sarah.JsonText

open Stdio

variable {content : List UInt8} {offset : ℕ} {P Q : Prop}

/-! ## Values without items inside -/

/-- What a number cannot go on with. -/
abbrev EndsNumber (s : List UInt8) : Prop := Stops numberChar s

theorem parseNumber_eq {q : ℚ} (hq : (Double.fin q).Binary64) {t rest : List UInt8}
    (ht : printNumber (some (.fin q)) = some t) (hdrop : content.drop offset = t ++ rest) (hrest : EndsNumber rest) :
    parseNumber content offset = .ok (createNumber (some (.fin q)), .nil) (offset + t.length) := by
  obtain ⟨p, hp, hle, hprint, hread⟩ := printNumber_fin hq
  obtain rfl : sprintfG p q = t := by rwa [hprint, Option.some.injEq] at ht
  have hlen := length_sprintfG hp hq
  have hstop : EndsNumber (rest.take (63 - (sprintfG p q).length)) := by
    intro c hc
    rw [List.head?_take] at hc
    split_ifs at hc with hzero
    · cases hc
    · exact hrest c hc
  have hrun : ((sprintfG p q ++ rest).take 63).takeWhile numberChar = sprintfG p q := by
    rw [List.take_append, List.take_of_length_le (by omega)]
    exact takeWhile_run (sprintfG_chars hp q).1 hstop
  unfold parseNumber
  dsimp only
  rw [hdrop, hrun, hread]
  rfl

/-- **`parse_number`** reads what `print_number` writes. -/
theorem parseNumber_printNumber {q : ℚ} (hq : (Double.fin q).Binary64) {t rest : List UInt8}
    (ht : printNumber (some (.fin q)) = some t) (hdrop : content.drop offset = t ++ rest) (hrest : EndsNumber rest) :
    Reads content True (createNumber (some (.fin q)), .nil) rest (parseNumber content offset) := by
  rw [parseNumber_eq hq ht hdrop hrest]
  exact .ok trivial (drop_add hdrop)

/-- **Every finite number** is printed in at most 24 characters, which fit the buffer, and `parse_number` reads it back
wherever they stand in front of something that is no part of a number. -/
theorem printNumber_readBack {q : ℚ} (hq : (Double.fin q).Binary64) : ∃ t, printNumber (some (.fin q)) = some t ∧
    t.length ≤ 24 ∧ ∀ s rest : List UInt8, EndsNumber rest →
      parseNumber (s ++ t ++ rest) s.length = .ok (createNumber (some (.fin q)), .nil) (s.length + t.length) := by
  obtain ⟨p, hp, hle, hprint, -⟩ := printNumber_fin hq
  have hlen := length_sprintfG hp hq
  refine ⟨sprintfG p q, hprint, by omega, fun s rest hrest => ?_⟩
  exact parseNumber_eq hq hprint (by rw [List.append_assoc, List.drop_left]) hrest

/-- A half. -/
theorem printNumber_readBack_half : ∃ t, printNumber (some (.fin (1 / 2))) = some t ∧ t.length ≤ 24 ∧
    ∀ s rest : List UInt8, EndsNumber rest →
      parseNumber (s ++ t ++ rest) s.length = .ok (createNumber (some (.fin (1 / 2))), .nil) (s.length + t.length) :=
  printNumber_readBack ⟨1, -1, by decide, by decide, by decide, by norm_num⟩

theorem not_startsWith {c d : UInt8} {s t w : List UInt8} (h : s = c :: t) (hw : w.head? = some d) (hne : d ≠ c) :
    ¬ w <+: s := by
  rintro ⟨v, hv⟩
  obtain ⟨u, rfl⟩ := List.head?_eq_some_iff.mp hw
  rw [h] at hv
  exact hne (List.cons.inj hv).1

theorem parseValue_start {c : UInt8} {t : List UInt8} (hdrop : content.drop offset = c :: t) (hn : c ≠ 110)
    (hf : c ≠ 102) (ht : c ≠ 116) (limit : ℕ) : parseValue content limit offset =
      if c = 34 then (parseString content offset).bind fun s offset => .ok (createString s, .nil) offset
      else if c = 45 || isdigit c then parseNumber content offset
      else if c = 91 then
        match limit with
        | 0 => .fail offset
        | limit + 1 => parseArray content (parseValue content limit) offset
      else if c = 123 then
        match limit with
        | 0 => .fail offset
        | limit + 1 => parseObject content (parseValue content limit) offset
      else .fail offset := by
  rw [parseValue.eq_def, if_neg (not_startsWith (d := 110) hdrop rfl hn.symm),
    if_neg (not_startsWith (d := 102) hdrop rfl hf.symm), if_neg (not_startsWith (d := 116) hdrop rfl ht.symm),
    get_of_drop hdrop]
  exact if_congr Option.some_inj rfl
    (if_congr Iff.rfl rfl (if_congr Option.some_inj rfl (if_congr Option.some_inj rfl rfl)))

/-- **A value without items inside.** -/
theorem parseValue_leaf {item : JsonItem} {kids : Forest JsonItem} {t rest : List UInt8}
    (hitem : Printable (.cons item kids .nil)) (harray : item.type ≠ .array) (hobject : item.type ≠ .object)
    (ht : leafText item = some t) (hdrop : content.drop offset = t ++ rest) (hrest : EndsNumber rest) (limit : ℕ) :
    Reads content True (wireValue item, .nil) rest (parseValue content limit offset) := by
  have hnull (hd : content.drop offset = lit "null" ++ rest) :
      Reads content True (newItem .null, .nil) rest (parseValue content limit offset) := by
    rw [parseValue.eq_def, if_pos ⟨rest, hd.symm⟩]
    exact .ok trivial (drop_add hd)
  unfold leafText at ht
  unfold wireValue
  cases htype : item.type with
  | null =>
    rw [htype, Option.some.injEq] at ht
    subst ht
    exact hnull hdrop
  | false =>
    rw [htype, Option.some.injEq] at ht
    subst ht
    rw [parseValue.eq_def, if_neg (not_startsWith (d := 110) hdrop rfl (by decide)), if_pos ⟨rest, hdrop.symm⟩]
    exact .ok trivial (drop_add hdrop)
  | true =>
    rw [htype, Option.some.injEq] at ht
    subst ht
    rw [parseValue.eq_def, if_neg (not_startsWith (d := 110) hdrop rfl (by decide)),
      if_neg (not_startsWith (d := 102) hdrop rfl (by decide)), if_pos ⟨rest, hdrop.symm⟩]
    exact .ok trivial (drop_add hdrop)
  | number =>
    rw [htype] at ht
    simp only [Printable, htype] at hitem
    have hfin : ∀ q : ℚ, item.valuedouble = some (.fin q) →
        Reads content True (createNumber (some (.fin q)), .nil) rest (parseValue content limit offset) := by
      intro q hd
      rw [hd] at ht
      have hq := hitem.1 _ hd
      obtain ⟨p, hp, -, hprint, -⟩ := printNumber_fin hq
      obtain ⟨-, c, u, htext, hc⟩ := sprintfG_chars hp q
      obtain rfl : sprintfG p q = t := by rwa [hprint, Option.some.injEq] at ht
      have hstart := hdrop
      rw [htext, List.cons_append] at hstart
      have hne : c ≠ 110 ∧ c ≠ 102 ∧ c ≠ 116 ∧ c ≠ 34 := by
        refine ⟨?_, ?_, ?_, ?_⟩ <;> rintro rfl <;> revert hc <;> decide
      rw [parseValue_start hstart hne.1 hne.2.1 hne.2.2.1, if_neg hne.2.2.2, if_pos (by simpa using hc)]
      exact parseNumber_printNumber hq ht hdrop hrest
    cases hd : item.valuedouble with
    | none =>
      rw [hd] at ht
      obtain rfl : lit "null" = t := Option.some.inj ht
      exact hnull hdrop
    | some d =>
      cases d with
      | fin q => exact hfin q hd
      | ninf | pinf =>
        rw [hd] at ht
        obtain rfl : lit "null" = t := Option.some.inj ht
        exact hnull hdrop
  | string =>
    rw [htype, Option.some.injEq] at ht
    subst ht
    have hstart := hdrop
    rw [stringText, List.cons_append] at hstart
    rw [parseValue_start hstart (by decide) (by decide) (by decide), if_pos rfl]
    refine ((parseString_stringText hdrop).bind (Q := True) fun o ho => ?_).congr (and_true True).to_iff
    have hcreate : createString (cstr (item.valuestring.getD [])) = createString (item.valuestring.getD []) := by
      rw [createString, createString, cstr_of_notMem (zero_notMem_cstr _)]
    rw [hcreate]
    exact .ok trivial ho
  | array => exact absurd htype harray
  | object => exact absurd htype hobject
  | invalid =>
    rw [htype] at ht
    cases ht
  | raw =>
    rw [Printable, htype] at hitem
    exact hitem.1.elim

/-! ## Arrays and objects -/

theorem valueText_start {format : Bool} {item : JsonItem} {kids : Forest JsonItem} {depth : ℕ}
    {inside : Bool → ℕ → Option (List UInt8)} {v : List UInt8} (hitem : Printable (.cons item kids .nil))
    (hv : valueText format item depth inside = some v) :
    ∃ c u, v = c :: u ∧ ¬ c ≤ 32 ∧ c ≠ 93 ∧ c ≠ 125 ∧ c ≠ 0xEF := by
  unfold valueText leafText at hv
  cases htype : item.type with
  | null | false | true | string =>
    rw [htype, Option.some.injEq] at hv
    subst hv
    exact ⟨_, _, rfl, by decide⟩
  | number =>
    rw [htype] at hv
    simp only [Printable, htype] at hitem
    cases hd : item.valuedouble with
    | none =>
      rw [hd] at hv
      obtain rfl : lit "null" = v := Option.some.inj hv
      exact ⟨_, _, rfl, by decide⟩
    | some d =>
      cases d with
      | fin q =>
        obtain ⟨p, hp, -, hprint, -⟩ := printNumber_fin (hitem.1 _ hd)
        obtain ⟨-, c, u, htext, hc⟩ := sprintfG_chars hp q
        rw [hd] at hv
        obtain rfl : sprintfG p q = v := by
          dsimp only at hv
          rwa [hprint, Option.some.injEq] at hv
        refine ⟨c, u, htext, ?_⟩
        rcases hc with rfl | hc
        · decide
        · have hrange := isdigit_toNat hc
          refine ⟨?_, ?_, ?_, ?_⟩
          · rw [UInt8.le_iff_toNat_le]
            exact fun h => absurd (hrange.1.trans h) (by decide)
          all_goals
            rintro rfl
            exact absurd hc (by decide)
      | ninf | pinf =>
        rw [hd] at hv
        obtain rfl : lit "null" = v := Option.some.inj hv
        exact ⟨_, _, rfl, by decide⟩
  | array | object =>
    rw [htype] at hv
    obtain ⟨t, -, rfl⟩ := Option.map_eq_some_iff.mp hv
    exact ⟨_, _, rfl, by decide⟩
  | invalid =>
    rw [htype] at hv
    cases hv
  | raw =>
    rw [Printable, htype] at hitem
    exact hitem.1.elim

/-- `]` or `}`. -/
def closing (object : Bool) : UInt8 := if object then 125 else 93

/-- What reads an item of an array or an object. -/
def entry (content : List UInt8) (object : Bool) (limit : ℕ) : ℕ → Outcome Node :=
  if object then parseMember content (parseValue content limit) else parseValue content limit

section Entries

variable {format object : Bool} {item : JsonItem} {kids f : Forest JsonItem} {depth limit : ℕ} {t e v rest : List UInt8}

/-- The text of a first item, from the character behind the indentation on. -/
theorem text_cons (ht : text format (.cons item kids f) object depth = some t) : ∃ v more,
    valueText format item depth (text format kids) = some v ∧ text format f object depth = some more ∧
      t = indent format object depth ++ (label format object item ++ (v ++ (behind format object f ++ more))) := by
  rw [text] at ht
  obtain ⟨v, hv, ht⟩ := Option.bind_eq_some_iff.mp ht
  obtain ⟨more, hmore, rfl⟩ := Option.map_eq_some_iff.mp ht
  exact ⟨v, more, hv, hmore, rfl⟩

theorem text_start (hf : Printable f) (hne : f ≠ .nil) (ht : text format f object depth = some t) : ∃ c u,
    t = indent format object depth ++ c :: u ∧ ¬ c ≤ 32 ∧ c ≠ closing object := by
  cases f with
  | nil => exact absurd rfl hne
  | cons item kids f =>
    obtain ⟨v, more, hv, -, rfl⟩ := text_cons ht
    cases object with
    | true => exact ⟨34, _, rfl, by decide, by decide⟩
    | false =>
      obtain ⟨c, u, rfl, hc, h93, -⟩ := valueText_start (show Printable (.cons item kids .nil) from ⟨hf.1, trivial⟩) hv
      exact ⟨c, _, rfl, hc, h93⟩

theorem indent_blank : ∀ w ∈ indent format object depth, w ≤ 32 := by
  intro w hw
  unfold indent at hw
  split_ifs at hw
  · rw [List.eq_of_mem_replicate hw]
    decide
  · cases hw

/-- The items of an array or an object are read up to the closing bracket. -/
def ReadsEntries (content : List UInt8) (format : Bool) (f : Forest JsonItem) : Prop :=
  ∀ {object : Bool} {depth limit : ℕ} {e tail rest : List UInt8} {o fuel : ℕ}, f ≠ .nil →
    text format f object depth = some (indent format object depth ++ e) →
    content.drop (bufferSkipWhitespace content (o + 1)) = e ++ (tail ++ closing object :: rest) → (∀ w ∈ tail, w ≤ 32) →
    e.length ≤ fuel → Reads content (nesting f ≤ limit) (wire f object) rest
      (parseEntries content (closing object) (entry content object limit) fuel o)

theorem parseBrackets_text (object : Bool) (limit : ℕ) (c : UInt8) (ws tail : List UInt8)
    (hkids : ReadsEntries content format kids) (hprint : Printable kids) (type : JsonType)
    (ht : text format kids object depth = some t)
    (hdrop : content.drop offset = c :: (ws ++ (t ++ (tail ++ closing object :: rest)))) (hws : ∀ w ∈ ws, w ≤ 32)
    (htail : ∀ w ∈ tail, w ≤ 32) : Reads content (nesting kids ≤ limit) (newItem type, wire kids object) rest
      (parseBrackets content type (closing object) (entry content object limit) offset) := by
  have hclose : ¬ closing object ≤ 32 := by cases object <;> decide
  have hsucc := drop_succ hdrop
  unfold parseBrackets
  dsimp only
  by_cases hnil : kids = .nil
  · subst hnil
    obtain rfl : [] = t := Option.some.inj ht
    rw [List.nil_append, ← List.append_assoc] at hsucc
    have hskip := drop_bufferSkipWhitespace hsucc
      (fun w hw => (List.mem_append.mp hw).elim (hws w) (htail w)) hclose
    rw [get_of_drop hskip, if_pos rfl]
    exact .ok (Nat.zero_le _) (drop_succ hskip)
  · obtain ⟨d, u, rfl, hd, hdc⟩ := text_start hprint hnil ht
    rw [List.append_assoc, ← List.append_assoc ws] at hsucc
    have hskip : content.drop (bufferSkipWhitespace content (offset + 1)) =
        d :: (u ++ (tail ++ closing object :: rest)) :=
      drop_bufferSkipWhitespace hsucc (fun w hw => (List.mem_append.mp hw).elim (hws w) (indent_blank w)) hd
    have hlt : offset + 1 < content.length := by
      by_contra hge
      rw [List.drop_of_length_le (not_lt.mp hge)] at hsucc
      exact absurd hsucc.symm (List.append_ne_nil_of_right_ne_nil _ (List.cons_ne_nil _ _))
    have hle := le_bufferSkipWhitespace hlt
    have hlen := congrArg List.length hskip
    generalize bufferSkipWhitespace content (offset + 1) = o at hskip hle hlen
    simp only [List.length_drop, List.length_cons, List.length_append] at hlen
    rw [get_of_drop hskip, if_neg (by simpa using hdc), if_neg (by simp)]
    have hstart : content.drop (bufferSkipWhitespace content (o - 1 + 1)) = d :: u ++
      (tail ++ closing object :: rest) := by
      rw [Nat.sub_add_cancel (by omega)]
      exact drop_bufferSkipWhitespace (s := []) hskip (by simp) hd
    have hread : Reads content (nesting kids ≤ limit) (wire kids object) rest
        (parseEntries content (closing object) (entry content object limit) content.length (o - 1)) :=
      hkids hnil ht hstart htail (by rw [List.length_cons]; omega)
    exact (hread.bind (Q := True) (b := (newItem type, wire kids object)) fun o ho => .ok trivial ho).congr
      (and_iff_left trivial)

theorem wireValue_string (item : JsonItem) : (wireValue item).string = none := by
  unfold wireValue
  split
  · rfl
  · split <;> rfl
  · rfl
  · rfl

theorem wireItem_false (item : JsonItem) : wireItem false item = wireValue item := by
  have hnone := wireValue_string item
  unfold wireItem
  rw [if_neg (by decide), ← hnone]

/-- **A value** is read, if the items inside are. -/
theorem parseValue_text (hkids : Printable kids → ReadsEntries content format kids)
    (hprint : Printable (.cons item kids .nil))
    (hv : valueText format item depth (text format kids) = some v) (hdrop : content.drop offset = v ++ rest)
    (hrest : EndsNumber rest) : Reads content (valueNesting item (nesting kids) ≤ limit)
      (wireValue item, wireKids item (wire kids)) rest (parseValue content limit offset) := by
  have hkidsPrint : item.type = .array ∨ item.type = .object → Printable kids := by
    rintro (htype | htype) <;> rw [Printable, htype] at hprint <;> exact hprint.1
  by_cases hbrackets : item.type = .array ∨ item.type = .object
  · have hp := hkidsPrint hbrackets
    unfold valueText at hv
    unfold valueNesting wireValue wireKids
    rcases hbrackets with htype | htype <;> rw [htype] at hv ⊢ <;> dsimp only at hv ⊢ <;>
      obtain ⟨t, ht, rfl⟩ := Option.map_eq_some_iff.mp hv
    · rw [parseValue_start hdrop (by decide) (by decide) (by decide), if_neg (by decide), if_neg (by decide),
        if_pos rfl]
      cases limit with
      | zero => exact ⟨fun h => absurd h (by omega), fun _ => ⟨offset, rfl⟩⟩
      | succ limit =>
        dsimp only
        rw [parseArray, get_of_drop hdrop]
        dsimp only
        rw [if_neg (by decide)]
        refine (parseBrackets_text false limit 91 [] [] (hkids hp) hp .array ht ?_ (by simp) (by simp)).congr
          Nat.succ_le_succ_iff.symm
        rw [hdrop, List.cons_append, List.append_assoc]
        rfl
    · rw [parseValue_start hdrop (by decide) (by decide) (by decide), if_neg (by decide), if_neg (by decide),
        if_neg (by decide), if_pos rfl]
      cases limit with
      | zero => exact ⟨fun h => absurd h (by omega), fun _ => ⟨offset, rfl⟩⟩
      | succ limit =>
        dsimp only
        rw [parseObject, get_of_drop hdrop, if_neg (not_not.mpr rfl)]
        refine (parseBrackets_text true limit 123 (if format then [10] else []) (indent format true depth) (hkids hp) hp
          .object ht ?_ ?_ indent_blank).congr Nat.succ_le_succ_iff.symm
        · rw [hdrop]
          simp only [List.cons_append, List.append_assoc]
          rfl
        · intro w hw
          split_ifs at hw
          · rw [List.mem_singleton.mp hw]
            decide
          · cases hw
  · rw [not_or] at hbrackets
    have hleaf : leafText item = some v := by
      unfold valueText at hv
      cases htype : item.type <;> rw [htype] at hv <;>
        first | exact hv | exact absurd htype hbrackets.1 | exact absurd htype hbrackets.2
    have hwire := leaf_inside hbrackets.1 hbrackets.2 (wire kids) (nesting kids)
    rw [hwire.1, hwire.2]
    exact (parseValue_leaf hprint hbrackets.1 hbrackets.2 hleaf hdrop hrest limit).congr
      (iff_of_true trivial (Nat.zero_le _))

theorem numberChar_blank {c : UInt8} (h : c ≤ 32) : numberChar c = false := by
  rw [UInt8.le_iff_toNat_le] at h
  have hlt : c.toNat < 33 := Nat.lt_succ_of_le h
  rw [Bool.eq_false_iff]
  intro hn
  simp only [numberChar, Bool.or_eq_true, decide_eq_true_eq] at hn
  rcases hn with ((((hn | rfl) | rfl) | rfl) | rfl) | rfl
  · exact absurd (isdigit_toNat hn).1 (by omega)
  all_goals exact absurd hlt (by decide)

theorem EndsNumber.blank {ws : List UInt8} (hws : ∀ w ∈ ws, w ≤ 32) (h : EndsNumber rest) :
    EndsNumber (ws ++ rest) := by
  cases ws with
  | nil => exact h
  | cons w ws => exact .cons (numberChar_blank (hws w List.mem_cons_self))

theorem entry_text (hkids : Printable kids → ReadsEntries content format kids)
    (hprint : Printable (.cons item kids .nil)) (hv : valueText format item depth (text format kids) = some v)
    (hdrop : content.drop offset = label format object item ++ (v ++ rest)) (hrest : EndsNumber rest) :
    Reads content (valueNesting item (nesting kids) ≤ limit) (wireItem object item, wireKids item (wire kids)) rest
      (entry content object limit offset) := by
  cases object with
  | false =>
    rw [wireItem_false]
    exact parseValue_text hkids hprint hv hdrop hrest
  | true =>
    rw [label, if_pos rfl, List.append_assoc, List.cons_append] at hdrop
    have hname : cstr (cstr (item.string.getD [])) = cstr (item.string.getD []) := cstr_of_notMem (zero_notMem_cstr _)
    show Reads content _ _ rest (parseMember content (parseValue content limit) offset)
    refine ((parseString_stringText hdrop).bind (Q := valueNesting item (nesting kids) ≤ limit) fun o ho => ?_).congr
      (and_iff_right trivial)
    have hcolon := drop_bufferSkipWhitespace (s := []) ho (by simp) (by decide)
    have hstart : content.drop (bufferSkipWhitespace content (bufferSkipWhitespace content o + 1)) = v ++ rest := by
      obtain ⟨c, u, rfl, hc, -⟩ := valueText_start hprint hv
      refine drop_bufferSkipWhitespace (drop_succ hcolon) (fun w hw => ?_) hc
      split_ifs at hw
      · rw [List.mem_singleton.mp hw]
        decide
      · cases hw
    dsimp only
    rw [get_of_drop hcolon, if_neg (not_not.mpr rfl)]
    refine ((parseValue_text hkids hprint hv hstart hrest).bind (Q := True) fun p hp => ?_).congr (and_iff_left trivial)
    rw [hname]
    exact .ok trivial hp

theorem behind_cons (item : JsonItem) (kids f : Forest JsonItem) : behind format object (.cons item kids f) =
    44 :: (if format then [if object then 10 else 32] else []) := rfl

/-- **The items of an array or an object are read**, by induction on the tree. -/
theorem readsEntries (hprint : Printable f) : ReadsEntries content format f := by
  induction f with
  | nil => exact fun hne => absurd rfl hne
  | cons item kids f ihk ihf =>
    intro object depth limit e tail rest o fuel _ ht hdrop htail hfuel
    have hclose : ¬ closing object ≤ 32 := by cases object <;> decide
    have hcloseNumber : numberChar (closing object) = false := by cases object <;> rfl
    have hitem : Printable (.cons item kids .nil) := ⟨hprint.1, trivial⟩
    obtain ⟨v, more, hv, hmore, heq⟩ := text_cons ht
    obtain rfl := List.append_cancel_left heq
    rw [List.append_assoc, List.append_assoc, List.append_assoc] at hdrop
    have hpos : 0 < v.length := by
      obtain ⟨c, u, rfl, -⟩ := valueText_start hitem hv
      exact Nat.succ_pos _
    simp only [List.length_append] at hfuel
    obtain ⟨fuel, rfl⟩ : ∃ k, fuel = k + 1 := ⟨fuel - 1, by omega⟩
    rw [parseEntries]
    cases f with
    | nil =>
      obtain rfl : [] = more := Option.some.inj hmore
      have hblank : ∀ w ∈ behind format object .nil ++ tail, w ≤ 32 := by
        intro w hw
        rcases List.mem_append.mp hw with hw | hw
        · unfold behind at hw
          dsimp only at hw
          split_ifs at hw
          · rw [List.mem_singleton.mp hw]
            decide
          · cases hw
        · exact htail w hw
      rw [List.nil_append, ← List.append_assoc (behind _ _ _)] at hdrop
      refine ((entry_text ihk hitem hv hdrop (.blank hblank (.cons hcloseNumber))).bind (Q := True) fun p hp =>
        ?_).congr
        ((and_iff_left trivial).trans (by rw [nesting, nesting, Nat.max_zero]))
      have hskip := drop_bufferSkipWhitespace hp hblank hclose
      dsimp only
      rw [get_of_drop hskip, if_neg (by cases object <;> decide), if_pos rfl]
      exact .ok trivial (drop_succ hskip)
    | cons item' kids' f =>
      obtain ⟨c, u, rfl, hc, -⟩ := text_start hprint.2 (by simp) hmore
      have hspace : ∀ w ∈ (if format then [if object then (10 : UInt8) else 32] else []) ++ indent format object depth,
          w ≤ 32 := by
        intro w hw
        rcases List.mem_append.mp hw with hw | hw
        · split_ifs at hw
          · rw [List.mem_singleton.mp hw]
            decide
          · rw [List.mem_singleton.mp hw]
            decide
          · cases hw
        · exact indent_blank w hw
      rw [behind_cons, List.cons_append] at hdrop
      refine ((entry_text ihk hitem hv hdrop (.cons rfl)).bind (Q := nesting (.cons item' kids' f) ≤ limit) fun p hp =>
        ?_).congr
        (by rw [nesting.eq_2 item, Nat.max_le])
      have hcomma := drop_bufferSkipWhitespace (s := []) hp (by simp) (by decide)
      have hnext := drop_succ hcomma
      rw [List.append_assoc, ← List.append_assoc (if format then _ else _)] at hnext
      have hstart := drop_bufferSkipWhitespace hnext hspace hc
      dsimp only
      rw [get_of_drop hcomma, if_pos rfl]
      refine ((ihf hprint.2 (by simp) hmore hstart htail ?_).bind (Q := True) fun o ho =>
        ?_).congr (and_iff_left trivial)
      · simp only [behind_cons, List.length_append, List.length_cons] at hfuel ⊢
        omega
      · exact .ok trivial ho

end Entries

/-! ## The whole text -/

section Whole

variable {format : Bool} {item : JsonItem} {kids : Forest JsonItem} {t : List UInt8}

theorem zero_notMem_escapeChar {c : UInt8} (hc : c ≠ 0) : 0 ∉ escapeChar c := by
  rcases escapeChar_cases c with ⟨heq, -, -⟩ | ⟨e, heq, -, he⟩ | ⟨hlt, heq⟩
  · rw [heq, List.mem_singleton]
    exact hc.symm
  · rw [heq]
    simp only [List.mem_cons, List.not_mem_nil, or_false, not_or]
    refine ⟨by decide, ?_⟩
    rintro rfl
    cases he
  · obtain ⟨w, x, y, z, hhex, hw, hx, hy, hz⟩ := exists_hex4 hlt
    rw [heq, hhex]
    simp only [List.mem_cons, List.not_mem_nil, or_false, not_or]
    exact ⟨by decide, by decide, (hexDigit_ne hw).2.2.symm, (hexDigit_ne hx).2.2.symm, (hexDigit_ne hy).2.2.symm,
      (hexDigit_ne hz).2.2.symm⟩

theorem zero_notMem_stringText (s : Option (List UInt8)) : 0 ∉ stringText s := by
  have hzero := zero_notMem_cstr (s.getD [])
  rw [stringText, List.mem_cons, List.mem_append, List.mem_flatMap]
  rintro (h | ⟨c, hc, hmem⟩ | h)
  · exact absurd h (by decide)
  · refine zero_notMem_escapeChar ?_ hmem
    rintro rfl
    exact hzero hc
  · exact absurd h (by decide)

theorem zero_notMem_leafText (hitem : Printable (.cons item kids .nil)) (ht : leafText item = some t) : 0 ∉ t := by
  unfold leafText at ht
  cases htype : item.type with
  | null | false | true =>
    rw [htype, Option.some.injEq] at ht
    subst ht
    decide
  | number =>
    rw [htype] at ht
    simp only [Printable, htype] at hitem
    have hnull : lit "null" = t → 0 ∉ t := by
      rintro rfl
      decide
    cases hd : item.valuedouble with
    | none =>
      rw [hd] at ht
      exact hnull (Option.some.inj ht)
    | some d =>
      cases d with
      | fin q =>
        obtain ⟨p, hp, -, hprint, -⟩ := printNumber_fin (hitem.1 _ hd)
        rw [hd] at ht
        obtain rfl : sprintfG p q = t := by
          dsimp only at ht
          rwa [hprint, Option.some.injEq] at ht
        exact fun hmem => absurd ((sprintfG_chars hp q).1 0 hmem) (by decide)
      | ninf | pinf =>
        rw [hd] at ht
        exact hnull (Option.some.inj ht)
  | string =>
    rw [htype, Option.some.injEq] at ht
    subst ht
    exact zero_notMem_stringText _
  | array | object | invalid =>
    rw [htype] at ht
    cases ht
  | raw =>
    rw [Printable, htype] at hitem
    exact hitem.1.elim

theorem zero_notMem_text {f : Forest JsonItem} (hprint : Printable f) {object : Bool} {depth : ℕ}
    (ht : text format f object depth = some t) : 0 ∉ t := by
  induction f generalizing object depth t with
  | nil =>
    obtain rfl : [] = t := Option.some.inj ht
    exact List.not_mem_nil
  | cons item kids f ihk ihf =>
    obtain ⟨v, more, hv, hmore, rfl⟩ := text_cons ht
    have hitem : Printable (.cons item kids .nil) := ⟨hprint.1, trivial⟩
    have hindent : ∀ (object : Bool) (depth : ℕ), 0 ∉ indent format object depth := by
      intro object depth hmem
      unfold indent at hmem
      split_ifs at hmem
      · exact absurd (List.eq_of_mem_replicate hmem) (by decide)
      · cases hmem
    have hlabel : 0 ∉ label format object item := by
      unfold label
      split_ifs
      · rw [List.mem_append, not_or]
        exact ⟨zero_notMem_stringText _, by decide⟩
      · rw [List.mem_append, not_or]
        exact ⟨zero_notMem_stringText _, by decide⟩
      · exact List.not_mem_nil
    have hvalue : 0 ∉ v := by
      unfold valueText at hv
      cases htype : item.type with
      | array =>
        rw [htype] at hv
        rw [Printable, htype] at hitem
        obtain ⟨u, hu, rfl⟩ := Option.map_eq_some_iff.mp hv
        have := ihk hitem.1 hu
        simp [this]
      | object =>
        rw [htype] at hv
        rw [Printable, htype] at hitem
        obtain ⟨u, hu, rfl⟩ := Option.map_eq_some_iff.mp hv
        have := ihk hitem.1 hu
        have hi := hindent true depth
        cases format <;> simp [this, hi]
      | null | false | true | number | string | raw | invalid =>
        rw [htype] at hv
        exact zero_notMem_leafText hitem hv
    have hbehind : 0 ∉ behind format object f := by
      cases f with
      | nil => cases format <;> cases object <;> decide
      | cons item' kids' f =>
        rw [behind_cons]
        cases format <;> cases object <;> decide
    have hrest := ihf hprint.2 hmore
    simp only [List.mem_append, not_or]
    exact ⟨hindent _ _, hlabel, hvalue, hbehind, hrest⟩

/-- **A printed tree is read back**, if arrays and objects are nested at most 1000 times, and is refused else. -/
theorem cJSONParse_text (hprint : Printable (.cons item kids .nil))
    (ht : text format (.cons item kids .nil) false 0 = some t) :
    (nesting (.cons item kids .nil) ≤ nestingLimit → cJSONParse t = some (.ok (wire (.cons item kids .nil) false))) ∧
      (nestingLimit < nesting (.cons item kids .nil) → ∃ position, cJSONParse t = some (.error position)) := by
  have hzero := zero_notMem_text hprint ht
  obtain ⟨v, more, hv, hmore, heq⟩ := text_cons ht
  obtain rfl : [] = more := Option.some.inj hmore
  obtain rfl : t = v := by
    rw [heq]
    simp [indent, label, behind]
  obtain ⟨c, u, hstart, hc, -, -, hbom⟩ := valueText_start hprint hv
  have hdrop : (t ++ [0]).drop 0 = t ++ [0] := List.drop_zero
  have hskip := start_eq_zero hstart hc hbom
  have hread : Reads (t ++ [0]) (valueNesting item (nesting kids) ≤ nestingLimit)
      (wireValue item, wireKids item (wire kids)) [0] (parseValue (t ++ [0]) nestingLimit 0) :=
    parseValue_text (fun hk => readsEntries hk) hprint hv hdrop (.cons rfl)
  have hnest : nesting (.cons item kids .nil) = valueNesting item (nesting kids) := by
    rw [nesting, nesting, Nat.max_zero]
  have hwire : wire (.cons item kids .nil) false = .cons (wireValue item) (wireKids item (wire kids)) .nil := by
    rw [wire, wireItem_false, wire]
  unfold cJSONParse
  dsimp only
  rw [cstr_of_notMem hzero, hskip, hnest, hwire]
  constructor
  · intro hle
    obtain ⟨o, ho, -⟩ := hread.1 hle
    rw [ho]
  · intro hlt
    obtain ⟨o, ho⟩ := hread.2 (not_le.mpr hlt)
    rw [ho]
    exact ⟨_, rfl⟩

end Whole

end Sarah.JsonText

import SarahClient.April.Import
import SarahClient.CelString
import SarahClient.Json

/-!
# The functions of `lib_april.c` that change a Lua string in place

The argument of these functions is the string object itself: all values that hold the same text share its bytes.

* `LuaStrings`, `pushString`: the bytes of all string objects, and `lua_pushstring`;
* `inPlace`, `luaLtrim` to `luaStrtoupper`, `luaImport`;
* `Keeps`: every string that is there keeps its bytes; `inPlace_keeps_iff`;
* `leftTrim_eq_self_iff`, `rightTrim_eq_self_iff`: the strings that the trims leave alone;
* **`strings_keep_iff`**: the arguments with which nothing is changed.
-/

namespace Sarah.LuaString

open CelString CJson Import

/-- The bytes of the string objects, each with the NUL behind it. -/
abbrev LuaStrings := List (List UInt8)

variable (table : LuaStrings → List UInt8 → Option ℕ)

/-- `lua_pushstring`: the object that the string table has for the text, or a new one. -/
def pushString (st : LuaStrings) (s : List UInt8) : LuaStrings × ℕ :=
  match table st s with
  | some i => (st, i)
  | none => (st ++ [s ++ [0]], st.length)

/-- `luaL_checkstring`, a change of the bytes, and `lua_pushstring` of what is left. -/
def inPlace (f : List UInt8 → Option (List UInt8)) (st : LuaStrings) (a : ℕ) : Option (LuaStrings × ℕ) :=
  st[a]?.bind fun str => (f str).map fun str => pushString table (st.set a str) (cstr str)

/-- `lua_ltrim`. -/
def luaLtrim : LuaStrings → ℕ → Option (LuaStrings × ℕ) := inPlace table fun str => some (CelString.celLeftTrim str)

/-- `lua_rtrim`. -/
def luaRtrim : LuaStrings → ℕ → Option (LuaStrings × ℕ) := inPlace table fun str => some (CelString.celRightTrim str)

/-- `lua_trim`: the right side first. -/
def luaTrim : LuaStrings → ℕ → Option (LuaStrings × ℕ) :=
  inPlace table fun str => some (CelString.celLeftTrim (CelString.celRightTrim str))

/-- `for ( i = 0; i < size; i++ )`, where `i` is an `int`. -/
def mapChars (f : UInt8 → UInt8) (src : List UInt8) (size : ℕ) : Option (List UInt8) :=
  if size < 2 ^ 31 then some ((src.take size).map f ++ src.drop size) else none

/-- `toupper` in the C locale. -/
def toupper (c : UInt8) : UInt8 := if 97 ≤ c.toNat ∧ c.toNat ≤ 122 then c - 32 else c

/-- `cel_strtolower`. -/
def celStrtolower : List UInt8 → ℕ → Option (List UInt8) := mapChars tolower

/-- `cel_strtoupper`. -/
def celStrtoupper : List UInt8 → ℕ → Option (List UInt8) := mapChars toupper

/-- `lua_strtolower`: the length is that of the C string. -/
def luaStrtolower : LuaStrings → ℕ → Option (LuaStrings × ℕ) :=
  inPlace table fun str => celStrtolower str (cstr str).length

/-- `lua_strtoupper`: the length is that of the C string. -/
def luaStrtoupper : LuaStrings → ℕ → Option (LuaStrings × ℕ) :=
  inPlace table fun str => celStrtoupper str (cstr str).length

/-- `lua_import`; `load` finds and runs the module of the mapped name. -/
def luaImport (load : LuaStrings → LuaStrings × ℕ) (st : LuaStrings) (a : ℕ) : Option (LuaStrings × ℕ) :=
  st[a]?.map fun modname =>
    if 256 ≤ i32 (cstr modname).length then
      pushString table st (lit "the length of the modname path should be less than 256")
    else load (st.set a (mapDots (cstr modname) ++ modname.drop (cstr modname).length))

/-- The call returns, and every string that was there has its bytes. -/
def Keeps (st : LuaStrings) (call : Option (LuaStrings × ℕ)) : Prop :=
  ∃ r, call = some r ∧ ∀ i < st.length, r.1[i]? = st[i]?

variable {table} {st : LuaStrings} {a : ℕ}

theorem pushString_keeps (st : LuaStrings) (s : List UInt8) :
    ∀ i < st.length, (pushString table st s).1[i]? = st[i]? := by
  intro i hi
  unfold pushString
  split
  · rfl
  · exact List.getElem?_append_left hi

theorem set_keeps_iff {b b' : List UInt8} (ha : st[a]? = some b) :
    (∀ i < st.length, (st.set a b')[i]? = st[i]?) ↔ b' = b := by
  obtain ⟨hlt, -⟩ := List.getElem?_eq_some_iff.mp ha
  constructor
  · intro h
    have hat := h a hlt
    rw [List.getElem?_set_self hlt, ha] at hat
    exact Option.some.inj hat
  · rintro rfl i -
    rw [List.getElem?_set]
    split_ifs with hi
    · rw [← hi, ha]
    · rfl

theorem inPlace_keeps_iff {f : List UInt8 → Option (List UInt8)} {b : List UInt8} (ha : st[a]? = some b) :
    Keeps st (inPlace table f st a) ↔ f b = some b := by
  have hcall : inPlace table f st a = (f b).map fun str => pushString table (st.set a str) (cstr str) := by
    rw [inPlace, ha, Option.bind_some]
  unfold Keeps
  rw [hcall]
  cases hf : f b with
  | none => exact iff_of_false (fun ⟨r, hr, _⟩ => by cases hr) (fun h => by cases h)
  | some b' =>
    rw [Option.map_some, Option.some.injEq, ← set_keeps_iff ha]
    have hpush := @pushString_keeps table (st.set a b') (cstr b')
    rw [List.length_set] at hpush
    constructor
    · rintro ⟨r, hr, hkeep⟩ i hi
      cases hr
      rw [← hkeep i hi, hpush i hi]
    · intro hkeep
      exact ⟨_, rfl, fun i hi => by rw [hpush i hi, hkeep i hi]⟩

/-! ## The strings that the trims leave alone -/

/-- The first byte that the loop looks at is no blank. -/
def LeftFixed (s : List UInt8) : Prop := ∀ c ∈ (seen s).head?, isBlank c = false

/-- The loop finds no other byte than blanks, or it stops at the last byte of the string. -/
def RightFixed (s : List UInt8) : Prop := (∀ c ∈ seen s, isBlank c = true) ∨ (seen s = s ∧ Unblank s)

instance (s : List UInt8) : Decidable (LeftFixed s) := Option.decidableForallMem (seen s).head?

theorem length_seen_le (s : List UInt8) : (seen s).length ≤ s.length := List.length_take_le' _ _

theorem takeWhile_seen_iff {s : List UInt8} : (seen s).takeWhile isBlank = [] ↔ LeftFixed s := by
  unfold LeftFixed
  cases seen s with
  | nil => simp
  | cons c t => cases hc : isBlank c <;> simp [hc]

theorem leftTrim_eq_self_iff {s : List UInt8} : leftTrim s = s ↔ LeftFixed s := by
  rw [← takeWhile_seen_iff, leftTrim]
  split_ifs with hnil
  · exact iff_of_true rfl hnil
  · refine iff_of_false (fun h => ?_) hnil
    have hsplit := congrArg List.length (List.takeWhile_append_dropWhile (p := isBlank) (l := seen s))
    rw [List.length_append, h] at hsplit
    have hle := length_seen_le s
    have hpos := List.length_pos_of_ne_nil hnil
    omega

theorem rdropWhile_seen_iff {s : List UInt8} : (seen s).rdropWhile isBlank = [] ↔ ∀ c ∈ seen s, isBlank c = true :=
  List.rdropWhile_eq_nil_iff

theorem rightTrim_eq_self_iff {s : List UInt8} : rightTrim s = s ↔ RightFixed s := by
  unfold RightFixed
  rw [← rdropWhile_seen_iff, rightTrim]
  split_ifs with hnil
  · exact iff_of_true rfl (.inl hnil)
  · rw [or_iff_right hnil]
    constructor
    · intro h
      have hseen : seen s = s := by
        refine List.IsPrefix.eq_of_length_le (List.take_prefix _ _) ?_
        have hle := length_rdropWhile_le isBlank (seen s)
        rw [h] at hle
        exact hle
      rw [hseen] at h
      exact ⟨hseen, (unblank_iff s).mpr h⟩
    · rintro ⟨hseen, hlast⟩
      rw [hseen]
      exact (unblank_iff s).mp hlast

theorem rightTrim_isPrefix (s : List UInt8) : rightTrim s <+: s := by
  unfold rightTrim
  split_ifs
  · exact List.prefix_refl s
  · exact (List.rdropWhile_prefix isBlank (seen s)).trans (List.take_prefix _ _)

theorem length_leftTrim_le (s : List UInt8) : (leftTrim s).length ≤ s.length := by
  unfold leftTrim
  split_ifs
  · exact le_rfl
  · exact (List.dropWhile_sublist isBlank).length_le.trans (length_seen_le s)

/-! ## The blocks that they leave alone -/

theorem map_eq_self_iff {f : UInt8 → UInt8} {s : List UInt8} : s.map f = s ↔ ∀ c ∈ s, f c = c := by
  nth_rewrite 2 [← List.map_id s]
  exact List.map_inj_left

section Blocks

variable {str : List UInt8} (h : 0 ∈ str)
include h

theorem celLeftTrim_eq_self_iff : CelString.celLeftTrim str = str ↔ LeftFixed (cstr str) := by
  constructor
  · intro heq
    rw [← leftTrim_eq_self_iff, ← cstr_celLeftTrim h, heq]
  · intro hfixed
    have hskip : skipBlanks str (slen str) 0 = 0 := by
      have hlen := slen_lt h
      rw [skipBlanks_eq (by omega), Nat.zero_add, List.drop_zero, take_slen h, takeWhile_seen_iff.mpr hfixed]
      rfl
    rw [CelString.celLeftTrim, hskip]
    exact if_neg (lt_irrefl 0)

theorem celRightTrim_eq_self_iff : CelString.celRightTrim str = str ↔ RightFixed (cstr str) := by
  constructor
  · intro heq
    rw [← rightTrim_eq_self_iff, ← cstr_celRightTrim h, heq]
  · intro hfixed
    rw [CelString.celRightTrim, cutLoop_eq (slen_lt h), take_slen h]
    split_ifs with hnil
    · rfl
    · obtain ⟨hseen, hlast⟩ := hfixed.resolve_left fun hall => hnil (rdropWhile_seen_iff.mpr hall)
      obtain ⟨rest, hrest⟩ := exists_cstr h
      rw [hseen, (unblank_iff _).mp hlast]
      generalize cstr str = s at hrest
      -- the NUL goes where it is
      rw [hrest, List.set_append_right _ _ le_rfl, Nat.sub_self, List.set_cons_zero]

/-- The second trim cannot undo the first: both only shorten. -/
theorem trim_eq_self_iff : CelString.celLeftTrim (CelString.celRightTrim str) = str ↔ RightFixed (cstr str) ∧
    LeftFixed (cstr str) := by
  constructor
  · intro heq
    have hcstr := congrArg cstr heq
    rw [cstr_celLeftTrim (zero_mem_celRightTrim h), cstr_celRightTrim h] at hcstr
    have hright : rightTrim (cstr str) = cstr str := by
      refine (rightTrim_isPrefix (cstr str)).eq_of_length_le ?_
      have hle := length_leftTrim_le (rightTrim (cstr str))
      rw [hcstr] at hle
      exact hle
    rw [hright] at hcstr
    exact ⟨rightTrim_eq_self_iff.mp hright, leftTrim_eq_self_iff.mp hcstr⟩
  · rintro ⟨hright, hleft⟩
    rw [(celRightTrim_eq_self_iff h).mpr hright, (celLeftTrim_eq_self_iff h).mpr hleft]

/-- Mapping the characters of the string keeps the block where it keeps each of them. -/
theorem mapChars_eq_self_iff (f : UInt8 → UInt8) :
    mapChars f str (cstr str).length = some str ↔ (cstr str).length < 2 ^ 31 ∧ ∀ c ∈ cstr str, f c = c := by
  obtain ⟨rest, hrest⟩ := exists_cstr h
  have hmap : (str.take (cstr str).length).map f ++ str.drop (cstr str).length = str ↔ ∀ c ∈ cstr str, f c = c := by
    generalize cstr str = s at hrest
    rw [hrest, List.take_left, List.drop_left, List.append_left_inj]
    exact map_eq_self_iff
  unfold mapChars
  split_ifs with hlen
  · rw [Option.some.injEq, hmap]
    exact (and_iff_right hlen).symm
  · exact iff_of_false (fun h => by cases h) fun h => hlen h.1

end Blocks

/-! ## The frame of the functions -/

theorem tolower_eq_self_iff {c : UInt8} : tolower c = c ↔ ¬ (65 ≤ c.toNat ∧ c.toNat ≤ 90) := by
  unfold tolower
  split_ifs with hc
  · refine iff_of_false (fun h => ?_) (not_not.mpr hc)
    have h32 : (32 : UInt8).toNat = 32 := rfl
    have htoNat := congrArg UInt8.toNat h
    rw [UInt8.toNat_add] at htoNat
    omega
  · exact iff_of_true rfl hc

theorem toupper_eq_self_iff {c : UInt8} : toupper c = c ↔ ¬ (97 ≤ c.toNat ∧ c.toNat ≤ 122) := by
  unfold toupper
  split_ifs with hc
  · refine iff_of_false (fun h => ?_) (not_not.mpr hc)
    have h32 : (32 : UInt8).toNat = 32 := rfl
    have htoNat := congrArg UInt8.toNat h
    rw [UInt8.toNat_sub_of_le _ _ (UInt8.le_iff_toNat_le.mpr (by omega))] at htoNat
    omega
  · exact iff_of_true rfl hc

theorem mapDots_eq_self_iff {s : List UInt8} : mapDots s = s ↔ 46 ∉ s.take (i32 s.length).toNat := by
  have hsplit := List.take_append_drop (i32 s.length).toNat s
  have hdot : ∀ c : UInt8, (if c = 46 then 95 else c) = c ↔ c ≠ 46 := fun c => by
    split_ifs with hc
    · exact iff_of_false (fun h => absurd (h.trans hc) (by decide)) (not_not.mpr hc)
    · exact iff_of_true rfl hc
  unfold mapDots
  nth_rewrite 4 [← hsplit]
  rw [List.append_left_inj, map_eq_self_iff]
  constructor
  · exact fun h hmem => (hdot 46).mp (h 46 hmem) rfl
  · exact fun h c hc => (hdot c).mpr fun heq => h (heq ▸ hc)

theorem luaImport_keeps_iff {load : LuaStrings → LuaStrings × ℕ}
    (hload : ∀ st, ∀ i < st.length, (load st).1[i]? = st[i]?)
    {b : List UInt8} (ha : st[a]? = some b) (hb : 0 ∈ b) : Keeps st (luaImport table load st a) ↔
      256 ≤ i32 (cstr b).length ∨ 46 ∉ (cstr b).take (i32 (cstr b).length).toNat := by
  have hcall : luaImport table load st a = some (if 256 ≤ i32 (cstr b).length then
      pushString table st (lit "the length of the modname path should be less than 256")
    else load (st.set a (mapDots (cstr b) ++ b.drop (cstr b).length))) := by rw [luaImport, ha, Option.map_some]
  unfold Keeps
  rw [hcall]
  split_ifs with hlen
  · exact iff_of_true ⟨_, rfl, pushString_keeps st _⟩ (.inl hlen)
  · obtain ⟨rest, hrest⟩ := exists_cstr hb
    have hdrop : b.drop (cstr b).length = 0 :: rest := by
      generalize cstr b = s at hrest
      rw [hrest, List.drop_left]
    have hblock : mapDots (cstr b) ++ b.drop (cstr b).length = b ↔ mapDots (cstr b) = cstr b := by
      rw [hdrop]
      nth_rewrite 2 [hrest]
      exact List.append_left_inj _
    rw [or_iff_right hlen, ← mapDots_eq_self_iff, ← hblock, ← set_keeps_iff ha]
    have hmodule := hload (st.set a (mapDots (cstr b) ++ b.drop (cstr b).length))
    rw [List.length_set] at hmodule
    constructor
    · rintro ⟨r, hr, hkeep⟩ i hi
      cases hr
      rw [← hkeep i hi, hmodule i hi]
    · intro hkeep
      exact ⟨_, rfl, fun i hi => by rw [hmodule i hi, hkeep i hi]⟩

/-- **The frame of the string functions.** With `s` the C string of the argument, every string keeps its bytes exactly
where the function finds nothing to change in `s`. -/
theorem strings_keep_iff {load : LuaStrings → LuaStrings × ℕ} (hload : ∀ st, ∀ i < st.length, (load st).1[i]? = st[i]?)
    {b : List UInt8} (ha : st[a]? = some b) (hb : 0 ∈ b) :
    (Keeps st (luaLtrim table st a) ↔ LeftFixed (cstr b)) ∧
    (Keeps st (luaRtrim table st a) ↔ RightFixed (cstr b)) ∧
    (Keeps st (luaTrim table st a) ↔ RightFixed (cstr b) ∧ LeftFixed (cstr b)) ∧
    (Keeps st (luaStrtolower table st a) ↔
      (cstr b).length < 2 ^ 31 ∧ ∀ c ∈ cstr b, ¬ (65 ≤ c.toNat ∧ c.toNat ≤ 90)) ∧
    (Keeps st (luaStrtoupper table st a) ↔
      (cstr b).length < 2 ^ 31 ∧ ∀ c ∈ cstr b, ¬ (97 ≤ c.toNat ∧ c.toNat ≤ 122)) ∧
    (Keeps st (luaImport table load st a) ↔
      256 ≤ i32 (cstr b).length ∨ 46 ∉ (cstr b).take (i32 (cstr b).length).toNat) := by
  refine ⟨?_, ?_, ?_, ?_, ?_, luaImport_keeps_iff hload ha hb⟩
  · rw [luaLtrim, inPlace_keeps_iff ha, Option.some.injEq, celLeftTrim_eq_self_iff hb]
  · rw [luaRtrim, inPlace_keeps_iff ha, Option.some.injEq, celRightTrim_eq_self_iff hb]
  · rw [luaTrim, inPlace_keeps_iff ha, Option.some.injEq, trim_eq_self_iff hb]
  · rw [luaStrtolower, inPlace_keeps_iff ha, celStrtolower, mapChars_eq_self_iff hb]
    simp only [tolower_eq_self_iff]
  · rw [luaStrtoupper, inPlace_keeps_iff ha, celStrtoupper, mapChars_eq_self_iff hb]
    simp only [toupper_eq_self_iff]

/-- The string `ab` and its trim. -/
theorem strings_keep_iff_ab : Keeps [[97, 98, 0]] (luaTrim (fun _ _ => none) [[97, 98, 0]] 0) :=
  (@strings_keep_iff (fun _ _ => none) [[97, 98, 0]] 0 (fun st => (st, 0))
    (fun _ _ _ => rfl) _ rfl (by decide)).2.2.1.mpr
    ⟨.inr ⟨by decide +kernel, by unfold Unblank; decide +kernel⟩, by decide +kernel⟩

/-- A blank in front of `a`: the left trim moves the letter in the shared bytes. -/
theorem not_strings_keep : ¬ ∀ (table : LuaStrings → List UInt8 → Option ℕ) (load : LuaStrings → LuaStrings × ℕ),
    (∀ st, ∀ i < st.length, (load st).1[i]? = st[i]?) →
      ∀ (st : LuaStrings) (a : ℕ) (b : List UInt8), st[a]? = some b → 0 ∈ b →
      Keeps st (luaLtrim table st a) ∧ Keeps st (luaRtrim table st a) ∧ Keeps st (luaTrim table st a) ∧
        Keeps st (luaStrtolower table st a) ∧ Keeps st (luaStrtoupper table st a) ∧
          Keeps st (luaImport table load st a) := by
  intro h
  obtain ⟨r, hr, hkeep⟩ :=
    (h (fun _ _ => none) (fun st => (st, 0)) (fun _ _ _ => rfl) [[32, 97, 0]] 0 _ rfl (by decide)).1
  have hcall : luaLtrim (fun _ _ => none) [[32, 97, 0]] 0 = some ([[97, 0, 0], [97, 0]], 1) := by decide +kernel
  rw [hcall] at hr
  cases hr
  exact absurd (hkeep 0 (by decide)) (by decide)

end Sarah.LuaString

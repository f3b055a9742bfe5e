import SarahClient.April.Exec
import SarahClient.Lib.FormUrlencoded
import SarahClient.Strbuff.Refine

/-!
# The body of `lua_http_post`

The arguments are written into a growing buffer with `=` and `&` between them, as they are. A converted number is a
string that is popped before the buffer takes its text, as in `lua_exec`. A NULL text ends the program.

* `keySource`, `formLoop`, `luaHttpPostBody`: the body that curl takes from the buffer;
* `entryTexts`: the pair that an entry stands for; `Admissible`: the entries with a text of their own;
* `KeyKept`: the collector leaves a converted key alone;
* `FormPiece`, `findsRoom`: the appends of a body, and the buffers they ask for;
* `formLoop_of`: the body is what `FormUrlencoded.joined` makes of the texts; `kept_of_formLoop`: the converse for the
  keys;
* **`httpBody_iff`**: when a decoder gets the arguments back.
-/

namespace Sarah

open FormUrlencoded StringHeap

section Model

variable (gc : ℕ → Bool) (mem : ℕ → Bool) (floatText : Option Double → CString) (held : List UInt8 → Bool)

/-- The switch on `k_type`. -/
def keySource : LuaKey → Option (Source UInt8)
  | .integer i => some (.pushed (decimalInt i.toInt))
  | .number d => some (.pushed (decimalInt (luaToInteger d)))
  | .string s => some (.literal s)
  | .other => none

/-- `cel_strbuff_append(strbuff, s, 1)`, its result not looked at. -/
def celStrbuffAppend (sb : Strbuff) (s : List UInt8) : Option Strbuff :=
  (celStrbuffAppendFrom mem sb (s ++ [0]) (u32 s.length) 1).map Prod.snd

/-- `cel_strbuff_append_char(strbuff, ch, 1)`. -/
def celStrbuffAppendOne (sb : Strbuff) (ch : UInt8) : Option Strbuff :=
  (celStrbuffAppendChar mem sb ch 1).map Prod.snd

/-- The text behind a pointer is appended. -/
def celStrbuffAppendPtr (heap : Strings UInt8) (sb : Strbuff) (ptr : TextPtr UInt8) : Option Strbuff :=
  (heap.deref ptr).bind fun s => celStrbuffAppend mem sb (cstr s)

/-- The loop over the args table. -/
def formLoop : List (LuaKey × LuaLeaf) → Strings UInt8 → Strbuff → Option Strbuff
  | [], _, sb => some sb
  | (k, v) :: es, heap, sb =>
    (keySource k).bind fun ksrc =>
      (leafSource floatText v).bind fun vsrc =>
        let key := pushSource gc shortString held ksrc heap
        let val := pushSource gc shortString held vsrc key.2
        (if 0 < sb.size then celStrbuffAppendOne mem sb 38 else some sb).bind fun sb =>
          (celStrbuffAppendPtr mem val.2 sb key.1).bind fun sb =>
            (celStrbuffAppendOne mem sb 61).bind fun sb =>
              (celStrbuffAppendPtr mem val.2 sb val.1).bind fun sb => formLoop es val.2 sb

/-- What `CURLOPT_POSTFIELDS` sends: the buffer up to its first NUL. -/
def luaHttpPostBody (es : List (LuaKey × LuaLeaf)) : Option (List UInt8) :=
  (celStrbuffInit mem 16).bind fun sb => (formLoop gc mem floatText held es .empty sb).map fun sb => cstr sb.buffer

/-- The text that an argument stands for; the entries of other types have none. -/
def entryTexts (e : LuaKey × LuaLeaf) : List UInt8 × List UInt8 :=
  ((match e.1 with
    | .integer i => decimalInt i.toInt
    | .string s => s
    | _ => []),
  match e.2 with
    | .boolean b => if b then lit "true" else lit "false"
    | .integer i => decimalInt i.toInt
    | .string s => s
    | _ => [])

/-- String and integer keys; strings without NUL, integers and booleans as values. -/
def Admissible (e : LuaKey × LuaLeaf) : Prop :=
  (match e.1 with
    | .integer _ | .string _ => True
    | _ => False) ∧
  match e.2 with
    | .boolean _ | .integer _ => True
    | .string s => 0 ∉ s
    | _ => False

/-- A converted key in front of a converted value: the rest of the program holds its text, or the value has the same. -/
def KeyKept (e : LuaKey × LuaLeaf) : Prop :=
  match e with
  | (.integer i, .integer j) => held (decimalInt i.toInt) = true ∨ i = j
  | _ => True

end Model

variable {gc mem : ℕ → Bool} {floatText : Option Double → CString} {held : List UInt8 → Bool}

instance (e : LuaKey × LuaLeaf) : Decidable (Admissible e) := by
  obtain ⟨k, v⟩ := e
  cases k <;> cases v <;> exact inferInstanceAs (Decidable (_ ∧ _))

/-! ## The texts -/

theorem zero_notMem_entryValue {e : LuaKey × LuaLeaf} (h : Admissible e) : 0 ∉ (entryTexts e).2 := by
  obtain ⟨k, v⟩ := e
  cases v with
  | boolean b =>
    cases b with
    | false => exact (by decide : (0 : UInt8) ∉ lit "false")
    | true => exact (by decide : (0 : UInt8) ∉ lit "true")
  | integer i => exact zero_notMem_decimalInt _
  | string s => exact h.2
  | number d => exact absurd h.2 id
  | other => exact absurd h.2 id

theorem decimalInt_toInt_inj {i j : Int64} (h : decimalInt i.toInt = decimalInt j.toInt) : i = j := by
  have hi := strtoll_decimalInt i.le_toInt i.toInt_lt
  rw [h, strtoll_decimalInt j.le_toInt j.toInt_lt] at hi
  exact (Int64.toInt_inj.mp hi).symm

theorem noneFreed_integers {i j : Int64} :
    NoneFreed shortString held [.pushed (decimalInt i.toInt), .pushed (decimalInt j.toInt)] ↔
      held (decimalInt i.toInt) = true ∨ i = j := by
  rw [noneFreed_pair, or_iff_not_imp_left]
  constructor
  · intro h hheld
    exact (decimalInt_toInt_inj (h (fun hs => hheld hs.2) _ rfl).2).symm
  · intro h hs t ht
    cases ht
    rw [h fun hheld => hs ⟨shortString_decimalInt i.le_toInt i.toInt_lt, hheld⟩]
    exact ⟨shortString_decimalInt j.le_toInt j.toInt_lt, rfl⟩

theorem sources_of_admissible {e : LuaKey × LuaLeaf} (h : Admissible e) :
    ∃ ksrc vsrc, keySource e.1 = some ksrc ∧ leafSource floatText e.2 = some vsrc ∧
      (ksrc.text, vsrc.text) = entryTexts e ∧
      (NoneFreed shortString held [ksrc, vsrc] ↔ KeyKept held e) := by
  obtain ⟨k, v⟩ := e
  have hstring : ∀ (s : List UInt8) (w : Source UInt8), NoneFreed shortString held [.literal s, w] := fun s w =>
    noneFreed_pair.mpr fun h => h.elim
  have hliteral : ∀ (w : Source UInt8) (s : List UInt8), NoneFreed shortString held [w, .literal s] := fun w s =>
    noneFreed_pair.mpr fun _ _ h => by cases h
  cases k with
  | number d => exact absurd h.1 id
  | other => exact absurd h.1 id
  | string s =>
    cases v with
    | boolean b => exact ⟨_, _, rfl, rfl, rfl, iff_of_true (hstring _ _) trivial⟩
    | integer j => exact ⟨_, _, rfl, rfl, rfl, iff_of_true (hstring _ _) trivial⟩
    | string t => exact ⟨_, _, rfl, rfl, rfl, iff_of_true (hstring _ _) trivial⟩
    | number d => exact absurd h.2 id
    | other => exact absurd h.2 id
  | integer i =>
    cases v with
    | boolean b => exact ⟨_, _, rfl, rfl, rfl, iff_of_true (hliteral _ _) trivial⟩
    | integer j => exact ⟨_, _, rfl, rfl, rfl, noneFreed_integers⟩
    | string t => exact ⟨_, _, rfl, rfl, rfl, iff_of_true (hliteral _ _) trivial⟩
    | number d => exact absurd h.2 id
    | other => exact absurd h.2 id

/-- What the code writes for an entry. -/
def cutTexts (e : LuaKey × LuaLeaf) : List UInt8 × List UInt8 := (cstr (entryTexts e).1, (entryTexts e).2)

theorem cutTexts_eq_iff {e : LuaKey × LuaLeaf} : cutTexts e = entryTexts e ↔ 0 ∉ (entryTexts e).1 := by
  constructor
  · intro h
    have hkey : cstr (entryTexts e).1 = (entryTexts e).1 := congrArg Prod.fst h
    rw [← hkey]
    exact zero_notMem_cstr _
  · intro h
    rw [cutTexts, cstr_of_notMem h]

theorem size_cutTexts_le (e : LuaKey × LuaLeaf) : size (cutTexts e) ≤ size (entryTexts e) :=
  Nat.add_le_add_right (List.takeWhile_sublist _).length_le _

theorem cutTexts_of_size {e : LuaKey × LuaLeaf} (h : size (cutTexts e) = size (entryTexts e)) :
    cutTexts e = entryTexts e := by
  have hlen : (cstr (entryTexts e).1).length = (entryTexts e).1.length := Nat.add_right_cancel h
  have hkey : cstr (entryTexts e).1 = (entryTexts e).1 := (List.takeWhile_sublist _).eq_of_length hlen
  rw [cutTexts, hkey]

theorem formLoop_cons {e : LuaKey × LuaLeaf} (hadm : Admissible e) (hkept : KeyKept held e)
    (es : List (LuaKey × LuaLeaf))
    (heap : Strings UInt8) : ∃ heap', ∀ sb, formLoop gc mem floatText held (e :: es) heap sb =
      (if 0 < sb.size then celStrbuffAppendOne mem sb 38 else some sb).bind fun sb =>
        (celStrbuffAppend mem sb (cutTexts e).1).bind fun sb => (celStrbuffAppendOne mem sb 61).bind fun sb =>
          (celStrbuffAppend mem sb (cutTexts e).2).bind fun sb => formLoop gc mem floatText held es heap' sb := by
  obtain ⟨ksrc, vsrc, hkey, hval, htexts, hfreed⟩ := @sources_of_admissible floatText held e hadm
  have hktext : ksrc.text = (entryTexts e).1 := congrArg Prod.fst htexts
  have hvtext : vsrc.text = (entryTexts e).2 := congrArg Prod.snd htexts
  have hkeyLive := @deref_pushSource_pair UInt8 _ gc shortString held ksrc vsrc (hfreed.mpr hkept) heap
  have hvalLive := @deref_pushSource UInt8 _ gc shortString held vsrc (pushSource gc shortString held ksrc heap).2
  rw [hktext] at hkeyLive
  rw [hvtext] at hvalLive
  refine ⟨(pushSource gc shortString held vsrc (pushSource gc shortString held ksrc heap).2).2, fun sb => ?_⟩
  obtain ⟨k, v⟩ := e
  rw [formLoop, hkey, Option.bind_some, hval, Option.bind_some]
  simp only [celStrbuffAppendPtr, hkeyLive, hvalLive, Option.bind_some, cutTexts,
    cstr_of_notMem (zero_notMem_entryValue hadm)]

/-- **Conversely** every key is kept in a call that reads all texts, where the collector runs at every allocation. -/
theorem kept_of_formLoop : ∀ {es : List (LuaKey × LuaLeaf)} {heap : Strings UInt8} {sb r : Strbuff},
    (∀ e ∈ es, Admissible e) → formLoop (fun _ => true) mem floatText held es heap sb = some r →
      ∀ e ∈ es, KeyKept held e
  | [], _, _, _, _, _, _, he => absurd he List.not_mem_nil
  | d :: es, heap, sb, r, hadm, h, e, he => by
    obtain ⟨ksrc, vsrc, hkey, hval, -, hfreed⟩ := @sources_of_admissible floatText held d (hadm d List.mem_cons_self)
    obtain ⟨k, v⟩ := d
    rw [formLoop, hkey, Option.bind_some, hval, Option.bind_some] at h
    obtain ⟨sb₁, -, h⟩ := Option.bind_eq_some_iff.mp h
    obtain ⟨sb₂, hread, h⟩ := Option.bind_eq_some_iff.mp h
    obtain ⟨sb₃, -, h⟩ := Option.bind_eq_some_iff.mp h
    obtain ⟨sb₄, -, h⟩ := Option.bind_eq_some_iff.mp h
    rcases List.mem_cons.mp he with rfl | he
    · obtain ⟨s, hs, -⟩ := Option.bind_eq_some_iff.mp hread
      exact hfreed.mp (noneFreed_of_deref_pair hs)
    · exact kept_of_formLoop (fun e he => hadm e (List.mem_cons_of_mem _ he)) h e he

/-! ## The buffer -/

/-- One append to the buffer. -/
inductive FormPiece
  | char (ch : UInt8)
  | text (s : List UInt8)

/-- The bytes of an append. -/
def FormPiece.bytes : FormPiece → List UInt8
  | .char ch => [ch]
  | .text s => s

/-- The buffer that an append asks for, where the old one has too little room. -/
def FormPiece.asked (cap size : ℕ) : FormPiece → ℕ
  | .char _ => 2 * cap + 1
  | .text s => 2 * (size + s.length) + 1

/-- Every append finds room: in the buffer of `cap` bytes, or in one whose size is an `int` and which is allocated. -/
def findsRoom (mem : ℕ → Bool) : List FormPiece → ℕ → ℕ → Bool
  | [], _, _ => true
  | p :: ps, cap, size =>
    if size + p.bytes.length < cap then findsRoom mem ps cap (size + p.bytes.length)
    else
      p.asked cap size < 2 ^ 31 && mem (p.asked cap size) &&
        findsRoom mem ps (p.asked cap size) (size + p.bytes.length)

/-- The appends of an entry, behind the separator. -/
def entryPieces (e : LuaKey × LuaLeaf) : List FormPiece := [.text (cutTexts e).1, .char 61, .text (cutTexts e).2]

/-- The appends of the entries behind the first one. -/
def restPieces (es : List (LuaKey × LuaLeaf)) : List FormPiece := es.flatMap fun e => .char 38 :: entryPieces e

/-- The appends of a call. -/
def formPieces : List (LuaKey × LuaLeaf) → List FormPiece
  | [] => []
  | e :: es => entryPieces e ++ restPieces es

/-- The first 16 bytes are allocated, and every append finds room. -/
def BodyFits (mem : ℕ → Bool) (es : List (LuaKey × LuaLeaf)) : Prop :=
  mem 16 = true ∧ findsRoom mem (formPieces es) 16 0 = true

instance (mem : ℕ → Bool) (es : List (LuaKey × LuaLeaf)) : Decidable (BodyFits mem es) :=
  inferInstanceAs (Decidable (_ ∧ _))

section Buffer

variable {xs : List UInt8} {cap : ℕ}

/-- The call for an append. -/
def FormPiece.append (mem : ℕ → Bool) (sb : Strbuff) : FormPiece → Option Strbuff
  | .char ch => celStrbuffAppendOne mem sb ch
  | .text s => celStrbuffAppend mem sb s

theorem append_of_grown {p : FormPiece} {cap' : ℕ} (h31 : cap' < 2 ^ 31) (hroom : xs.length + p.bytes.length < cap')
    (hgrow : (cap' = cap ∧ xs.length + p.bytes.length < cap) ∨
      (cap' = p.asked cap xs.length ∧ cap ≤ xs.length + p.bytes.length ∧ mem cap' = true)) (hcap : xs.length < cap) :
    p.append mem (Strbuff.of xs cap) = some (Strbuff.of (xs ++ p.bytes) cap') := by
  cases p with
  | char ch =>
    have hone : xs.length + 1 < cap' := hroom
    have hresize : (if (Strbuff.of xs cap).opacity ≤ u32 ((Strbuff.of xs cap).size + 1) then
        resizeBuffer mem (Strbuff.of xs cap) (i32 (u32 ((Strbuff.of xs cap).opacity * 2 + 1))) else
          some (1, Strbuff.of xs cap)) = some (1, Strbuff.of xs cap') := by
      rw [Strbuff.of_opacity, Strbuff.of_size, u32_of_lt (by omega)]
      obtain ⟨rfl, hlt⟩ | ⟨rfl, hle, hmem⟩ := hgrow
      · exact if_neg (Nat.not_le.mpr hlt)
      · have hasked : (FormPiece.char ch).asked cap xs.length = cap * 2 + 1 := by rw [FormPiece.asked, Nat.mul_comm]
        rw [hasked] at h31 hmem ⊢
        rw [if_pos (show cap ≤ xs.length + 1 from hle), u32_of_lt (by omega), i32_of_range (by omega) (by omega)]
        exact resizeBuffer_of hmem hcap.le (by omega)
    have hout : ({ Strbuff.of xs cap' with buffer := (Strbuff.of (xs ++ [ch]) cap').buffer, size := xs.length + 1 } :
        Strbuff) = Strbuff.of (xs ++ [ch]) cap' := by
      rw [Strbuff.of, Strbuff.of, List.length_append, List.length_singleton]
    rw [FormPiece.append, celStrbuffAppendOne, celStrbuffAppendChar, show (1 : ℤ).toNat = 0 + 1 from rfl,
      appendCharLoop, hresize, Option.bind_some]
    dsimp only
    rw [if_neg one_ne_zero, Strbuff.of_size, store_of _ (by omega), Option.bind_some, u32_of_lt (by omega), hout]
    rfl
  | text s =>
    have hlen : xs.length + s.length < cap' := hroom
    have hgrown : growFor mem (Strbuff.of xs cap) s.length = some (1, Strbuff.of xs cap') := by
      rw [growFor, Strbuff.of_size, Strbuff.of_opacity, u32_of_lt (by omega)]
      obtain ⟨rfl, hlt⟩ | ⟨rfl, hle, hmem⟩ := hgrow
      · exact if_neg (Nat.not_le.mpr hlt)
      · have hasked : (FormPiece.text s).asked cap xs.length = (xs.length + s.length) * 2 + 1 := by
          rw [FormPiece.asked, Nat.mul_comm]
        rw [hasked] at h31 hmem ⊢
        rw [if_pos (show cap ≤ xs.length + s.length from hle), u32_of_lt (by omega), i32_of_range (by omega) (by omega)]
        exact resizeBuffer_of hmem hcap.le (by omega)
    have hsrc : s.length ≤ (s ++ [0]).length := by
      rw [List.length_append]
      omega
    rw [FormPiece.append, celStrbuffAppend, celStrbuffAppendFrom, u32_of_lt (by omega),
      show (1 : ℤ).toNat = 0 + 1 from rfl,
      appendFromLoop_succ_of hsrc hgrown hlen (by omega), appendFromLoop, Option.map_some, List.take_left]
    rfl

/-- **An append that finds room**, and the room for the others. -/
theorem append_of_findsRoom {p : FormPiece} {ps : List FormPiece} (hcap : xs.length < cap) (h31 : cap < 2 ^ 31)
    (hroom : findsRoom mem (p :: ps) cap xs.length = true) : ∃ cap', (xs ++ p.bytes).length < cap' ∧ cap' < 2 ^ 31 ∧
      p.append mem (Strbuff.of xs cap) = some (Strbuff.of (xs ++ p.bytes) cap') ∧
      findsRoom mem ps cap' (xs ++ p.bytes).length = true := by
  rw [findsRoom] at hroom
  rw [List.length_append]
  split_ifs at hroom with hlt
  · exact ⟨cap, hlt, h31, append_of_grown h31 hlt (.inl ⟨rfl, hlt⟩) hcap, hroom⟩
  · rw [Bool.and_eq_true, Bool.and_eq_true, decide_eq_true_eq] at hroom
    obtain ⟨⟨h31', hmem⟩, hrest⟩ := hroom
    have hroom : xs.length + p.bytes.length < p.asked cap xs.length := by
      cases p with
      | char ch =>
        show xs.length + 1 < 2 * cap + 1
        omega
      | text s =>
        show xs.length + s.length < 2 * (xs.length + s.length) + 1
        omega
    exact ⟨_, hroom, h31', append_of_grown h31' hroom (.inr ⟨rfl, Nat.not_lt.mp hlt, hmem⟩) hcap, hrest⟩

theorem formLoop_entry (hcap : xs.length < cap) (h31 : cap < 2 ^ 31) {e : LuaKey × LuaLeaf} {ps : List FormPiece}
    (hroom : findsRoom mem (entryPieces e ++ ps) cap xs.length = true) (next : Strbuff → Option Strbuff) :
    ∃ cap', (xs ++ pairText (cutTexts e)).length < cap' ∧ cap' < 2 ^ 31 ∧
      findsRoom mem ps cap' (xs ++ pairText (cutTexts e)).length = true ∧
      ((celStrbuffAppend mem (Strbuff.of xs cap) (cutTexts e).1).bind fun sb =>
        (celStrbuffAppendOne mem sb 61).bind fun sb =>
        (celStrbuffAppend mem sb (cutTexts e).2).bind next) = next (Strbuff.of (xs ++ pairText (cutTexts e)) cap') := by
  have hseg : xs ++ pairText (cutTexts e) = xs ++ (cutTexts e).1 ++ [61] ++ (cutTexts e).2 := by simp [pairText]
  rw [hseg]
  obtain ⟨c₁, h₁, h₁', hkey, hroom⟩ := append_of_findsRoom hcap h31 hroom
  obtain ⟨c₂, h₂, h₂', heq, hroom⟩ := append_of_findsRoom h₁ h₁' hroom
  obtain ⟨c₃, h₃, h₃', hval, hroom⟩ := append_of_findsRoom h₂ h₂' hroom
  simp only [FormPiece.append, FormPiece.bytes] at hkey heq hval hroom h₃
  exact ⟨c₃, h₃, h₃', hroom, by rw [hkey, Option.bind_some, heq, Option.bind_some, hval, Option.bind_some]⟩

theorem formLoop_of_ne : ∀ {es : List (LuaKey × LuaLeaf)} (heap : Strings UInt8) {xs : List UInt8} {cap : ℕ},
    (∀ e ∈ es, Admissible e ∧ KeyKept held e) → xs ≠ [] → xs.length < cap → cap < 2 ^ 31 →
    findsRoom mem (restPieces es) cap xs.length = true →
      ∃ cap', formLoop gc mem floatText held es heap (Strbuff.of xs cap) =
        some (Strbuff.of (xs ++ ((es.map cutTexts).map fun p => 38 :: pairText p).flatten) cap')
  | [], _, xs, cap, _, _, _, _,
    _ => ⟨cap, by rw [formLoop, List.map_nil, List.map_nil, List.flatten_nil, List.append_nil]⟩
  | e :: es, heap, xs, cap, hall, hne, hcap, h31, hroom => by
    have hsplit : xs ++ (((e :: es).map cutTexts).map fun p => 38 :: pairText p).flatten =
        xs ++ [38] ++ pairText (cutTexts e) ++ ((es.map cutTexts).map fun p => 38 :: pairText p).flatten := by
      simp only [List.map_cons, List.flatten_cons, List.append_assoc, List.cons_append, List.nil_append]
    rw [hsplit]
    rw [restPieces, List.flatMap_cons] at hroom
    obtain ⟨hadm, hkept⟩ := hall e List.mem_cons_self
    obtain ⟨heap', hloop⟩ := @formLoop_cons gc mem floatText held e hadm hkept es heap
    obtain ⟨c₁, h₁, h₁', hamp, hroom⟩ := append_of_findsRoom hcap h31 hroom
    obtain ⟨c₂, h₂, h₂', hroom, hentry⟩ := formLoop_entry h₁ h₁' hroom (formLoop gc mem floatText held es heap')
    obtain ⟨c₃, hrest⟩ := formLoop_of_ne heap' (fun e he => hall e (List.mem_cons_of_mem _ he))
      (List.append_ne_nil_of_right_ne_nil _ (pairText_ne_nil _)) h₂ h₂' hroom
    have hpos : 0 < (Strbuff.of xs cap).size := List.length_pos_of_ne_nil hne
    simp only [FormPiece.append, FormPiece.bytes] at hamp hentry hrest
    exact ⟨c₃, by rw [hloop, if_pos hpos, hamp, Option.bind_some, hentry, hrest]⟩

/-- **The buffer** behind the loop. -/
theorem formLoop_of {es : List (LuaKey × LuaLeaf)} (heap : Strings UInt8)
    (hall : ∀ e ∈ es, Admissible e ∧ KeyKept held e)
    (hcap : 0 < cap) (h31 : cap < 2 ^ 31) (hroom : findsRoom mem (formPieces es) cap 0 = true) :
    ∃ cap', formLoop gc mem floatText held es heap (Strbuff.of [] cap) =
      some (Strbuff.of (joined (es.map cutTexts)) cap') := by
  cases es with
  | nil => exact ⟨cap, rfl⟩
  | cons e es =>
    rw [List.map_cons, joined_cons]
    obtain ⟨hadm, hkept⟩ := hall e List.mem_cons_self
    obtain ⟨heap', hloop⟩ := @formLoop_cons gc mem floatText held e hadm hkept es heap
    obtain ⟨c₁, h₁, h₁', hroom, hentry⟩ := formLoop_entry (show ([] : List UInt8).length < cap from hcap) h31 hroom
      (formLoop gc mem floatText held es heap')
    obtain ⟨c₂, hrest⟩ := @formLoop_of_ne gc mem floatText held es heap' (pairText (cutTexts e)) c₁
      (fun e he => hall e (List.mem_cons_of_mem _ he)) (pairText_ne_nil (cutTexts e)) h₁ h₁' hroom
    refine ⟨c₂, ?_⟩
    rw [hloop, if_neg (show ¬ 0 < (Strbuff.of [] cap).size from Nat.lt_irrefl 0), Option.bind_some, hentry]
    exact hrest

end Buffer

/-! ## The arguments come back -/

/-- The decoder makes the arguments of the body, in any order. -/
def DecodesTo (body : Option (List UInt8)) (es : List (LuaKey × LuaLeaf)) : Prop :=
  ∃ s, body = some s ∧ (parse s).Perm (es.map entryTexts)

theorem zero_notMem_joined : ∀ {ps : List (List UInt8 × List UInt8)}, (∀ p ∈ ps, 0 ∉ p.1 ∧ 0 ∉ p.2) → 0 ∉ joined ps
  | [], _ => List.not_mem_nil
  | p :: ps, h => by
    have hseg : ∀ q ∈ p :: ps, 0 ∉ pairText q := fun q hq hmem => by
      rcases List.mem_append.mp hmem with hmem | hmem
      · exact (h q hq).1 hmem
      · rcases List.mem_cons.mp hmem with hmem | hmem
        · cases hmem
        · exact (h q hq).2 hmem
    rw [joined_cons, List.mem_append, not_or]
    refine ⟨hseg p List.mem_cons_self, fun hmem => ?_⟩
    obtain ⟨l, hl, hmem⟩ := List.mem_flatten.mp hmem
    obtain ⟨q, hq, rfl⟩ := List.mem_map.mp hl
    rcases List.mem_cons.mp hmem with hmem | hmem
    · cases hmem
    · exact hseg q (List.mem_cons_of_mem _ hq) hmem

theorem celStrbuffInit_sixteen (hmem : mem 16 = true) : celStrbuffInit mem 16 = some (Strbuff.of [] 16) := by
  rw [celStrbuffInit, show (16 : ℤ) = ((16 : ℕ) : ℤ) from rfl, createBuffer_nat hmem]
  rfl

/-- **The body** is what the code writes for the entries. -/
theorem luaHttpPostBody_of {es : List (LuaKey × LuaLeaf)} (hall : ∀ e ∈ es, Admissible e ∧ KeyKept held e)
    (hfits : BodyFits mem es) : luaHttpPostBody gc mem floatText held es = some (joined (es.map cutTexts)) := by
  obtain ⟨cap, hloop⟩ := @formLoop_of gc mem floatText held 16 es .empty hall (by decide) (by decide) hfits.2
  have hnul : 0 ∉ joined (es.map cutTexts) := by
    refine zero_notMem_joined fun p hp => ?_
    obtain ⟨e, he, rfl⟩ := List.mem_map.mp hp
    exact ⟨zero_notMem_cstr _, zero_notMem_entryValue (hall e he).1⟩
  rw [luaHttpPostBody, celStrbuffInit_sixteen hfits.1, Option.bind_some, hloop, Option.map_some, Strbuff.of_buffer,
    cstr_append_zeros, cstr_of_notMem hnul]

theorem total_cutTexts_le : ∀ es : List (LuaKey × LuaLeaf), total (es.map cutTexts) ≤ total (es.map entryTexts)
  | [] => le_rfl
  | e :: es => by
    rw [List.map_cons, List.map_cons, total_cons, total_cons]
    exact Nat.add_le_add (size_cutTexts_le e) (total_cutTexts_le es)

theorem cutTexts_of_total : ∀ {es : List (LuaKey × LuaLeaf)}, total (es.map cutTexts) = total (es.map entryTexts) →
    ∀ e ∈ es, cutTexts e = entryTexts e
  | [], _, _, he => absurd he List.not_mem_nil
  | d :: es, h, e, he => by
    rw [List.map_cons, List.map_cons, total_cons, total_cons] at h
    have hd := size_cutTexts_le d
    have hes := total_cutTexts_le es
    rcases List.mem_cons.mp he with rfl | he
    · exact cutTexts_of_size (by omega)
    · exact cutTexts_of_total (by omega) e he

/-- **The form body.** Where every append finds room, a decoder gets the arguments back, whenever the collector runs,
exactly where no key has a NUL or an `=`, no text has an `&`, a `+` or a `%` in front of two hexadecimal digits, and
no key is a number that its value may free. -/
theorem httpBody_iff (elsewhere : List UInt8 → Bool) (url : CString) {es : List (LuaKey × LuaLeaf)}
    (hadm : ∀ e ∈ es, Admissible e) (hfits : BodyFits mem es) :
    (∀ gc, DecodesTo (luaHttpPostBody gc mem floatText (callHeld elsewhere url es) es) es) ↔
      ∀ e ∈ es, KeyKept (callHeld elsewhere url es) e ∧ 0 ∉ (entryTexts e).1 ∧ PlainPair (entryTexts e) := by
  generalize callHeld elsewhere url es = held
  unfold DecodesTo
  constructor
  · intro h
    have hkept : ∀ e ∈ es, KeyKept held e := by
      obtain ⟨s, hs, -⟩ := h fun _ => true
      rw [luaHttpPostBody, celStrbuffInit_sixteen hfits.1, Option.bind_some] at hs
      obtain ⟨r, hloop, -⟩ := Option.map_eq_some_iff.mp hs
      exact kept_of_formLoop hadm hloop
    obtain ⟨s, hs, hperm⟩ := h fun _ => true
    rw [luaHttpPostBody_of (fun e he => ⟨hadm e he, hkept e he⟩) hfits] at hs
    cases hs
    have hsize : total (parse (joined (es.map cutTexts))) = total (es.map entryTexts) := (hperm.map size).sum_eq
    have hle := total_parse_joined_le (es.map cutTexts)
    have hcut := cutTexts_of_total (Nat.le_antisymm (total_cutTexts_le es) (hsize ▸ hle))
    rw [List.map_congr_left hcut] at hperm
    have hplain := (parse_joined_perm_iff _).mp hperm
    exact fun e he => ⟨hkept e he, cutTexts_eq_iff.mp (hcut e he), hplain _ (List.mem_map_of_mem he)⟩
  · intro h gc
    refine ⟨_, luaHttpPostBody_of (fun e he => ⟨hadm e he, (h e he).1⟩) hfits, ?_⟩
    rw [List.map_congr_left fun e he => cutTexts_eq_iff.mpr (h e he).2.1]
    refine (parse_joined_perm_iff _).mpr fun p hp => ?_
    obtain ⟨e, he, rfl⟩ := List.mem_map.mp hp
    exact (h e he).2.2

/-- A text with a blank, and a flag. -/
theorem httpBody_iff_blank : DecodesTo (luaHttpPostBody (fun _ => true) (fun _ => true) (fun _ => ⟨[], by decide⟩)
    (callHeld (fun _ => false) ⟨[], by decide⟩ [(.string (lit "a"), .string (lit "b c")), (.integer 1, .boolean true)])
    [(.string (lit "a"), .string (lit "b c")), (.integer 1, .boolean true)])
    [(.string (lit "a"), .string (lit "b c")), (.integer 1, .boolean true)] := by
  have hplain : ∀ e ∈ [(LuaKey.string (lit "a"), LuaLeaf.string (lit "b c")), (.integer 1, .boolean true)],
      0 ∉ (entryTexts e).1 ∧ PlainPair (entryTexts e) := by decide
  refine (httpBody_iff (fun _ => false) ⟨[], by decide⟩ (by decide) (by decide)).mpr
    (fun e he => ⟨?_, hplain e he⟩) fun _ => true
  rcases List.mem_cons.mp he with rfl | he
  · trivial
  · rw [List.mem_singleton.mp he]
    trivial

/-- The value `a&b` becomes another argument. -/
theorem not_httpBody : ¬ ∀ (gc mem : ℕ → Bool) (floatText : Option Double → CString) (elsewhere : List UInt8 → Bool)
    (url : CString) (es : List (LuaKey × LuaLeaf)), (∀ n, mem n = true) → (∀ e ∈ es, Admissible e) →
      DecodesTo (luaHttpPostBody gc mem floatText (callHeld elsewhere url es) es) es := by
  intro h
  obtain ⟨s, hs, hperm⟩ :=
    h (fun _ => false) (fun _ => true) (fun _ => ⟨[], by decide⟩) (fun _ => false) ⟨[], by decide⟩
    [(.string (lit "k"), .string (lit "a&b"))] (fun _ => rfl) (by decide)
  have hbody : luaHttpPostBody (fun _ => false) (fun _ => true) (fun _ => ⟨[], by decide⟩)
      (callHeld (fun _ => false) ⟨[], by decide⟩ [(.string (lit "k"), .string (lit "a&b"))])
      [(.string (lit "k"), .string (lit "a&b"))] = some (lit "k=a&b") := by decide +kernel
  rw [hbody] at hs
  cases hs
  have hlen := hperm.length_eq
  revert hlen
  decide +kernel

end Sarah

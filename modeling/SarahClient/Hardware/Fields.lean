import SarahClient.Hardware.Model
import SarahClient.CelString

/-!
# What a line does to a character array

* `HdInfo.byte`, `HdInfo.field`: a character array; `HdField.put`: the text of a line over it;
* `OnlyField`: nothing else is changed; `NoCapital`: the bytes that `cel_strtolower` reaches behind `serial_no`;
* **`store_spec`**, **`parseInfo_spec`**: one line;
* `foldl_put_eq_zero`: where the texts of several lines leave a NUL.
-/

namespace Sarah

open Stdio

/-! ## The character arrays -/

/-- The arrays of all three structures. -/
def hdFields : List HdField :=
  [biosVendor, biosVersion, biosReleaseDate, systemManufacturer, systemProductName, systemVersion, systemSerialNo,
    systemUuid, boardManufacturer, boardProductName, boardVersion, boardSerialNo]

/-- Byte `i` of an array. -/
def HdInfo.byte (hd : HdInfo) (f : HdField) (i : ℕ) : UInt8 := hd.text f.entry (f.offset + i)

/-- The bytes of an array. -/
def HdInfo.field (hd : HdInfo) (f : HdField) : List UInt8 := (List.range f.size).map (hd.byte f)

theorem size_most : ∀ f ∈ hdFields, f.most ≤ f.size ∧ f.size ≤ f.most + 1 ∧ 0 < f.most := by decide

theorem field_inside : ∀ f ∈ hdFields, f.offset + f.size ≤ f.entry.size := by decide

theorem fields_apart : ∀ f ∈ hdFields, ∀ g ∈ hdFields, f.entry = g.entry → f ≠ g →
    f.offset + f.size ≤ g.offset ∨ g.offset + g.size ≤ f.offset := by decide +kernel

theorem eq_of_key : ∀ f ∈ hdFields, ∀ g ∈ hdFields, f.entry = g.entry → f.key = g.key → f = g := by decide +kernel

theorem behind_lower : ∀ f ∈ hdFields, f.lower = true →
    f.offset + f.size = f.entry.size ∨ f.entry = .system ∧ f.offset + f.size = systemUuid.offset := by decide

section Cut

variable {f : HdField} (hf : f ∈ hdFields) (t : List UInt8)
include hf

theorem cut_eq : f.cut t = t.take f.most := by
  obtain ⟨-, hsize, -⟩ := size_most f hf
  unfold HdField.cut
  split_ifs with h
  · rfl
  · rw [List.take_length, List.take_of_length_le (by omega)]

theorem length_cut : (f.cut t).length = min f.most t.length := by
  rw [cut_eq hf, List.length_take]

theorem length_cut_le : (f.cut t).length ≤ f.size := by
  have := size_most f hf
  rw [length_cut hf]
  omega

end Cut

/-! ## Storing a text -/

/-- The text of a line over an array. -/
def HdField.put (f : HdField) (b : ℕ → UInt8) (t : List UInt8) (i : ℕ) : UInt8 :=
  let c := if i < (f.cut t).length then (f.cut t).getD i 0 else b i
  if f.lower ∧ i < t.length then tolower c else c

/-- Nothing but the array is changed. -/
structure OnlyField (f : HdField) (hd hd' : HdInfo) : Prop where
  runtimeSize : hd'.runtimeSize = hd.runtimeSize
  romSize : hd'.romSize = hd.romSize
  text : ∀ e i, i < e.size → (e = f.entry → i < f.offset ∨ f.offset + f.size ≤ i) → hd'.text e i = hd.text e i

/-- `uuid` holds no capital letter. -/
def NoCapital (hd : HdInfo) : Prop := ∀ i < 40, tolower (hd.byte systemUuid i) = hd.byte systemUuid i

theorem tolower_tolower (c : UInt8) : tolower (tolower c) = tolower c := by
  unfold tolower
  split_ifs with h₁ h₂
  · rw [UInt8.toNat_add] at h₂
    have h32 : (32 : UInt8).toNat = 32 := rfl
    omega
  · rfl
  · rfl

theorem tolower_eq_zero_iff (c : UInt8) : tolower c = 0 ↔ c = 0 := by
  unfold tolower
  split_ifs with h
  · rw [← UInt8.toNat_inj, ← UInt8.toNat_inj, UInt8.toNat_add]
    have h32 : (32 : UInt8).toNat = 32 := rfl
    have h0 : (0 : UInt8).toNat = 0 := rfl
    omega
  · rfl

theorem OnlyField.byte {f g : HdField} {hd hd' : HdInfo} (h : OnlyField f hd hd') (hf : f ∈ hdFields)
    (hg : g ∈ hdFields) (hne : g ≠ f) {i : ℕ} (hi : i < g.size) : hd'.byte g i = hd.byte g i := by
  have hin := field_inside g hg
  refine h.text g.entry (g.offset + i) (by omega) fun hsame => ?_
  have := fields_apart g hg f hf hsame hne
  omega

variable {f : HdField} {hd hd' : HdInfo} {t : List UInt8}

theorem memcpyAt_cut (hf : f ∈ hdFields) (block : ℕ → UInt8) (t : List UInt8) :
    memcpyAt f.entry.size block f.offset (f.cut t) = some fun i =>
      if f.offset ≤ i ∧ i < f.offset + (f.cut t).length then (f.cut t).getD (i - f.offset) 0 else block i := by
  have := field_inside f hf
  have := length_cut_le hf t
  exact if_pos (by omega)

theorem store_eq_none_iff (hf : f ∈ hdFields) :
    hd.store f t = none ↔ f.lower = true ∧ f.entry.size < f.offset + t.length := by
  rw [HdInfo.store, memcpyAt_cut hf, Option.bind_some, Option.map_eq_none_iff]
  by_cases hlower : f.lower = true
  · rw [if_pos hlower, celStrtolower]
    split_ifs with h
    · exact iff_of_false (by simp) fun hout => by omega
    · exact iff_of_true rfl ⟨hlower, by omega⟩
  · rw [if_neg hlower]
    exact iff_of_false (by simp) fun hout => hlower hout.1

theorem store_text (hf : f ∈ hdFields) (h : hd.store f t = some hd') :
    hd'.runtimeSize = hd.runtimeSize ∧ hd'.romSize = hd.romSize ∧ (∀ e, e ≠ f.entry → hd'.text e = hd.text e) ∧
      ∀ i, hd'.text f.entry i =
        let c := if f.offset ≤ i ∧ i < f.offset + (f.cut t).length then (f.cut t).getD (i - f.offset) 0
          else hd.text f.entry i
        if f.lower ∧ f.offset ≤ i ∧ i < f.offset + t.length then tolower c else c := by
  rw [HdInfo.store, memcpyAt_cut hf, Option.bind_some] at h
  by_cases hlower : f.lower = true
  · rw [if_pos hlower, celStrtolower] at h
    split_ifs at h with hfits
    · cases h
      refine ⟨rfl, rfl, fun e he => Function.update_of_ne he _ _, fun i => ?_⟩
      simp only [Function.update_self, hlower, true_and]
    · cases h
  · rw [if_neg hlower] at h
    cases h
    refine ⟨rfl, rfl, fun e he => Function.update_of_ne he _ _, fun i => ?_⟩
    simp only [Function.update_self, hlower, false_and, if_false, Bool.false_eq_true]

/-- **One line stores its text in its array** and changes nothing else. -/
theorem store_spec (hf : f ∈ hdFields) (hcap : NoCapital hd) (h : hd.store f t = some hd') :
    OnlyField f hd hd' ∧ (∀ i < f.size, hd'.byte f i = f.put (hd.byte f) t i) ∧ NoCapital hd' := by
  obtain ⟨hruntime, hrom, hother, hbytes⟩ := store_text hf h
  have hcut := length_cut_le hf t
  have hcutle : (f.cut t).length ≤ t.length := by
    rw [length_cut hf]
    exact min_le_right _ _
  have hinside : f.lower = true → f.offset + t.length ≤ f.entry.size := by
    intro hlower
    by_contra hout
    rw [(store_eq_none_iff hf).mpr ⟨hlower, by omega⟩] at h
    cases h
  have hput : ∀ i, hd'.byte f i = f.put (hd.byte f) t i := by
    intro i
    rw [HdInfo.byte, hbytes, HdField.put]
    simp only [Nat.le_add_right, true_and, Nat.add_lt_add_iff_left, Nat.add_sub_cancel_left]
    rfl
  have honly : OnlyField f hd hd' := by
    refine ⟨hruntime, hrom, fun e i hi hout => ?_⟩
    by_cases he : e = f.entry
    · subst he
      have hplace := hout rfl
      have hkept : ¬ (f.offset ≤ i ∧ i < f.offset + (f.cut t).length) := by omega
      simp only [hbytes i, if_neg hkept]
      split_ifs with hlow
      · -- the bytes behind the array are those of `uuid`
        obtain ⟨hlower, hfrom, hto⟩ := hlow
        have hle := hinside hlower
        rcases behind_lower f hf hlower with hend | ⟨hsystem, hbehind⟩
        · omega
        · have hoffset : systemUuid.offset + (i - systemUuid.offset) = i := by omega
          have hsize : f.entry.size = 168 := by rw [hsystem]; rfl
          have huuid : systemUuid.offset = 128 := rfl
          have hsame := hcap (i - systemUuid.offset) (by omega)
          rw [HdInfo.byte, hoffset, show systemUuid.entry = f.entry from hsystem.symm] at hsame
          exact hsame
      · rfl
    · rw [hother e he]
  refine ⟨honly, fun i _ => hput i, fun i hi => ?_⟩
  by_cases huuid : f = systemUuid
  · subst huuid
    rw [hput, HdField.put]
    have hlower : systemUuid.lower = true := rfl
    simp only [hlower, true_and]
    by_cases hlt : i < t.length
    · simp only [if_pos hlt]
      exact tolower_tolower _
    · have hkept : ¬ i < (systemUuid.cut t).length := by omega
      simp only [if_neg hlt, if_neg hkept]
      exact hcap i hi
  · rw [honly.byte hf (by decide) (Ne.symm huuid) hi]
    exact hcap i hi

/-! ## The keys -/

/-- The arrays of one section. -/
def entryFields : HdEntry → List HdField
  | .bios => [biosVendor, biosVersion, biosReleaseDate]
  | .system => [systemManufacturer, systemProductName, systemVersion, systemSerialNo, systemUuid]
  | .board => [boardManufacturer, boardProductName, boardVersion, boardSerialNo]

theorem mem_entryFields : ∀ e, ∀ f ∈ entryFields e, f ∈ hdFields ∧ f.entry = e := by
  intro e
  cases e <;> decide

theorem find_key : ∀ f ∈ hdFields, (entryFields f.entry).find? (fun g => g.key = f.key) = some f := by decide +kernel

/-- The keys of the two numbers. -/
def isSizeKey (e : HdEntry) (key : List UInt8) : Prop := e = .bios ∧ (key = lit "Runtime Size" ∨ key = lit "ROM Size")

instance (e : HdEntry) (key : List UInt8) : Decidable (isSizeKey e key) := by unfold isSizeKey; infer_instance

theorem not_isSizeKey : ∀ f ∈ hdFields, ¬ isSizeKey f.entry f.key := by decide +kernel

/-- The length of the word that is read as the unit. -/
def unitLength (val : List UInt8) : ℕ :=
  match scanUint val with
  | none => 0
  | some r => (unitWord r.2).length

/-- The writes of a line stay in the structure and in `unit`. -/
structure SafeRead (e : HdEntry) (key val : List UInt8) : Prop where
  lower : ∀ f ∈ hdFields, f.entry = e → f.key = key → f.lower = true → f.offset + val.length ≤ e.size
  unit : isSizeKey e key → unitLength val ≤ 2

variable {e : HdEntry} {loc loc' : HdLocals}

theorem scanSize_eq_none_iff (val : List UInt8) (size : ℕ) (unit : List UInt8) :
    scanSize val size unit = none ↔ 2 < unitLength val := by
  unfold scanSize unitLength
  cases scanUint val with
  | none => exact iff_of_false (by simp) (by decide)
  | some r =>
    dsimp only
    split_ifs with hlong
    · exact iff_of_true rfl (by omega)
    · exact iff_of_false (by simp) (by omega)

theorem parseInfo_cases (e : HdEntry) (loc : HdLocals) (hd : HdInfo) :
    (∃ f ∈ hdFields, f.entry = e ∧ f.key = loc.key ∧
      parseInfo e loc hd = (hd.store f loc.val).map fun hd' => (loc, hd')) ∨
    (∀ f ∈ hdFields, f.entry = e → f.key ≠ loc.key) ∧
      (isSizeKey e loc.key ∧ (parseInfo e loc hd = none ↔ 2 < unitLength loc.val) ∧
          (∀ r, parseInfo e loc hd = some r → r.1.key = loc.key ∧ r.1.val = loc.val ∧ r.2.text = hd.text) ∨
        ¬ isSizeKey e loc.key ∧ parseInfo e loc hd = some (loc, hd)) := by
  have hfields : ¬ isSizeKey e loc.key →
      parseInfo e loc hd = (parseFields (entryFields e) loc.key loc.val hd).map fun hd' => (loc, hd') := by
    intro hnot
    cases e with
    | system | board => rfl
    | bios =>
      have hkeys : ¬ loc.key = lit "Runtime Size" ∧ ¬ loc.key = lit "ROM Size" :=
        not_or.mp fun hkey => hnot ⟨rfl, hkey⟩
      rw [parseInfo, parseBiosInfo, if_neg hkeys.1, if_neg hkeys.2]
      rfl
  by_cases hfield : ∃ f ∈ hdFields, f.entry = e ∧ f.key = loc.key
  · obtain ⟨f, hf, rfl, hkey⟩ := hfield
    have hnot : ¬ isSizeKey f.entry loc.key := hkey ▸ not_isSizeKey f hf
    refine Or.inl ⟨f, hf, rfl, hkey, ?_⟩
    rw [hfields hnot, parseFields, ← hkey, find_key f hf]
  · have hother : ∀ f ∈ hdFields, f.entry = e → f.key ≠ loc.key := fun f hf he hkey => hfield ⟨f, hf, he, hkey⟩
    refine Or.inr ⟨hother, ?_⟩
    by_cases hsize : isSizeKey e loc.key
    · refine Or.inl ⟨hsize, ?_⟩
      obtain ⟨rfl, hkey⟩ := hsize
      have hrom : lit "ROM Size" ≠ lit "Runtime Size" := by decide
      rcases hkey with hkey | hkey
      · rw [parseInfo, parseBiosInfo, if_pos hkey, Option.map_eq_none_iff, scanSize_eq_none_iff]
        refine ⟨Iff.rfl, fun r hr => ?_⟩
        obtain ⟨q, -, rfl⟩ := Option.map_eq_some_iff.mp hr
        exact ⟨rfl, rfl, rfl⟩
      · rw [parseInfo, parseBiosInfo, if_neg (hkey.symm ▸ hrom), if_pos hkey, Option.map_eq_none_iff,
          scanSize_eq_none_iff]
        refine ⟨Iff.rfl, fun r hr => ?_⟩
        obtain ⟨q, -, rfl⟩ := Option.map_eq_some_iff.mp hr
        exact ⟨rfl, rfl, rfl⟩
    · refine Or.inr ⟨hsize, ?_⟩
      have hnone : (entryFields e).find? (fun g => g.key = loc.key) = none := by
        refine List.find?_eq_none.mpr fun f hf hkey => ?_
        obtain ⟨hmem, he⟩ := mem_entryFields e f hf
        exact hother f hmem he (of_decide_eq_true hkey)
      rw [hfields hsize, parseFields, hnone]
      rfl

theorem parseInfo_eq_none_iff : parseInfo e loc hd = none ↔ ¬ SafeRead e loc.key loc.val := by
  rcases parseInfo_cases e loc hd with ⟨f, hf, rfl, hkey, hrun⟩ | ⟨hother, ⟨hsize, hnone, -⟩ | ⟨hsize, hrun⟩⟩
  · rw [hrun, Option.map_eq_none_iff, store_eq_none_iff hf, ← not_iff_not, not_not]
    constructor
    · intro hin
      refine ⟨fun g hg he hgkey hlower => ?_, fun hsize => absurd (hkey ▸ hsize) (not_isSizeKey f hf)⟩
      have hsame := eq_of_key g hg f hf he (hgkey.trans hkey.symm)
      subst hsame
      by_contra hout
      exact hin ⟨hlower, by omega⟩
    · rintro hsafe ⟨hlower, hout⟩
      have := hsafe.lower f hf rfl hkey hlower
      omega
  · rw [hnone]
    constructor
    · intro hlong hsafe
      have := hsafe.unit hsize
      omega
    · intro hunsafe
      by_contra hshort
      exact hunsafe ⟨fun f hf he hkey => absurd hkey (hother f hf he), fun _ => by omega⟩
  · rw [hrun]
    refine iff_of_false (by simp) fun hunsafe => hunsafe ⟨fun f hf he hkey => absurd hkey (hother f hf he),
      fun h => absurd h hsize⟩

/-- **One line of a section.** -/
theorem parseInfo_spec (hcap : NoCapital hd) (h : parseInfo e loc hd = some (loc', hd')) :
    loc'.key = loc.key ∧ loc'.val = loc.val ∧ NoCapital hd' ∧
      (∀ f ∈ hdFields, f.entry = e → f.key = loc.key → OnlyField f hd hd') ∧
      ∀ g ∈ hdFields, ∀ i < g.size, hd'.byte g i =
        if g.entry = e ∧ g.key = loc.key then g.put (hd.byte g) loc.val i else hd.byte g i := by
  rcases parseInfo_cases e loc hd with ⟨f, hf, rfl, hkey, hrun⟩ | ⟨hother, ⟨hsize, -, hsome⟩ | ⟨hsize, hrun⟩⟩
  · rw [hrun, Option.map_eq_some_iff] at h
    obtain ⟨hd₁, hstore, heq⟩ := h
    obtain ⟨rfl, rfl⟩ := Prod.mk.inj heq
    obtain ⟨honly, hput, hcap'⟩ := store_spec hf hcap hstore
    refine ⟨rfl, rfl, hcap', fun g hg he hgkey => ?_, fun g hg i hi => ?_⟩
    · rwa [eq_of_key g hg f hf he (hgkey.trans hkey.symm)]
    · by_cases hsame : g = f
      · subst hsame
        rw [if_pos ⟨rfl, hkey⟩]
        exact hput i hi
      · rw [if_neg fun hmatch => hsame (eq_of_key g hg f hf hmatch.1 (hmatch.2.trans hkey.symm))]
        exact honly.byte hf hg hsame hi
  · obtain ⟨hk, hv, htext⟩ := hsome _ h
    have hbyte : ∀ g i, hd'.byte g i = hd.byte g i := fun g i => by
      rw [HdInfo.byte, htext]
      rfl
    refine ⟨hk, hv, fun i hi => ?_, fun f hf he hkey => absurd hkey (hother f hf he), fun g hg i _ => ?_⟩
    · rw [hbyte]
      exact hcap i hi
    · rw [if_neg fun hmatch => hother g hg hmatch.1 hmatch.2]
      exact hbyte g i
  · rw [hrun, Option.some.injEq] at h
    obtain ⟨rfl, rfl⟩ := Prod.mk.inj h
    refine ⟨rfl, rfl, hcap, fun f hf he hkey => absurd hkey (hother f hf he), fun g hg i _ => ?_⟩
    exact (if_neg fun hmatch => hother g hg hmatch.1 hmatch.2).symm

/-! ## Several texts in one array -/

theorem put_of_lt (f : HdField) (b : ℕ → UInt8) {i : ℕ} (hi : i < (f.cut t).length)
    (hle : (f.cut t).length ≤ t.length) :
    f.put b t i = if f.lower then tolower ((f.cut t).getD i 0) else (f.cut t).getD i 0 := by
  rw [HdField.put]
  simp only [if_pos hi]
  exact if_congr (and_iff_left (hi.trans_le hle)) rfl rfl

theorem put_eq_zero_iff (hf : f ∈ hdFields) (hnul : 0 ∉ t) (b : ℕ → UInt8) (i : ℕ) :
    f.put b t i = 0 ↔ b i = 0 ∧ (f.cut t).length ≤ i := by
  have hstep : f.put b t i = 0 ↔ (if i < (f.cut t).length then (f.cut t).getD i 0 else b i) = 0 := by
    rw [HdField.put]
    split_ifs
    all_goals simp only [tolower_eq_zero_iff]
  rw [hstep]
  split_ifs with hi
  · refine iff_of_false (fun hzero => hnul ?_) (by omega)
    rw [List.getD_eq_getElem _ _ hi] at hzero
    have hmem := List.getElem_mem hi
    rw [hzero, cut_eq hf] at hmem
    exact List.mem_of_mem_take hmem
  · exact (and_iff_left (by omega)).symm

theorem foldl_put_eq_zero (hf : f ∈ hdFields) {ts : List (List UInt8)} (hnul : ∀ t ∈ ts, 0 ∉ t) (b : ℕ → UInt8)
    (i : ℕ) :
    ts.foldl f.put b i = 0 ↔ b i = 0 ∧ ∀ t ∈ ts, (f.cut t).length ≤ i := by
  induction ts generalizing b with
  | nil => exact (and_iff_left fun _ ht => (List.not_mem_nil ht).elim).symm
  | cons t ts ih =>
    rw [List.foldl_cons, ih (fun s hs => hnul s (List.mem_cons_of_mem t hs)),
      put_eq_zero_iff hf (hnul t List.mem_cons_self), List.forall_mem_cons, and_assoc]

theorem cstr_map_range_iff (b : ℕ → UInt8) (n : ℕ) (c : List UInt8) :
    cstr ((List.range n).map b) = c ∧ 0 ∈ (List.range n).map b ↔
      c.length < n ∧ b c.length = 0 ∧ 0 ∉ c ∧ ∀ i < c.length, b i = c.getD i 0 := by
  constructor
  · rintro ⟨rfl, hnul⟩
    obtain ⟨rest, hrest⟩ := CelString.exists_cstr hnul
    have hno := zero_notMem_cstr ((List.range n).map b)
    have hlen : n = (cstr ((List.range n).map b)).length + (rest.length + 1) := by
      have := congrArg List.length hrest
      rwa [List.length_append, List.length_cons, List.length_map, List.length_range] at this
    have hget : ∀ i < n, (cstr ((List.range n).map b) ++ 0 :: rest)[i]? = some (b i) := by
      intro i hi
      rw [← hrest, List.getElem?_map, List.getElem?_range hi, Option.map_some]
    generalize cstr ((List.range n).map b) = c at hlen hget hno ⊢
    refine ⟨by omega, ?_, hno, fun i hi => ?_⟩
    · have hend := hget c.length (by omega)
      rw [List.getElem?_append_right (Nat.le_refl _), Nat.sub_self, List.getElem?_cons_zero] at hend
      exact (Option.some.inj hend).symm
    · have hbyte := hget i (by omega)
      rw [List.getElem?_append_left hi, List.getElem?_eq_getElem hi] at hbyte
      rw [List.getD_eq_getElem _ _ hi]
      exact (Option.some.inj hbyte).symm
  · rintro ⟨hlt, hzero, hnul, hbytes⟩
    have htake : ((List.range n).map b).take c.length = c := by
      refine List.ext_getElem ?_ fun i hi hi' => ?_
      · rw [List.length_take, List.length_map, List.length_range]
        omega
      · rw [List.getElem_take, List.getElem_map, List.getElem_range, hbytes i hi', List.getD_eq_getElem _ _ hi']
    have hsplit : (List.range n).map b = c ++ 0 :: ((List.range n).map b).drop (c.length + 1) := by
      have hin : c.length < ((List.range n).map b).length := by rwa [List.length_map, List.length_range]
      have hnth : ((List.range n).map b)[c.length] = 0 := by
        rw [List.getElem_map, List.getElem_range, hzero]
      conv_lhs => rw [← List.take_append_drop c.length ((List.range n).map b), htake, List.drop_eq_getElem_cons hin,
        hnth]
    rw [hsplit]
    exact ⟨cstr_append_zero hnul _, List.mem_append_right _ List.mem_cons_self⟩

end Sarah

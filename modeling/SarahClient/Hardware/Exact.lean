import SarahClient.Hardware.Listing
import Mathlib.Data.List.Forall2

/-!
# The fields of the hardware information

* `HdReached`: the structures after any calls of `sarah_get_hd_info`; `HdReached.noCapital`;
* `FieldsExact`: every character array has the last value of its key, and a line changes only its array;
* `PlainHardware`: what the lines and the old bytes have to be;
* **`fieldsExact_plain`**: `FieldsExact` holds then, and only then when the lines fit the buffer of `fgets`.
-/

namespace Sarah

open List Stdio

/-! ## The property -/

/-- The structures that `sarah_get_hd_info` is called with: initialised, or filled by calls before. -/
inductive HdReached : HdInfo → Prop
  | init : HdReached hdInit
  | call {hd hd' : HdInfo} {dmidecode : Option (List UInt8)} {code : ℤ} (h : HdReached hd)
    (hrun : sarahGetHdInfo dmidecode hd = some (code, hd')) : HdReached hd'

/-- A value, right-trimmed and cut for its array. -/
def HdField.expected (f : HdField) (value : List UInt8) : List UInt8 :=
  let text := (value.rdropWhile CelString.isBlank).take (f.size - 1)
  if f.lower then text.map tolower else text

/-- A line with the key of an array changes nothing else. -/
def LinesKeepOut (text : List UInt8) (hd : HdInfo) : Prop :=
  ∀ pre buffer post, fgetsAll 256 text = pre ++ buffer :: post → ∀ st st' e loc,
    pre.foldlM hdStep ⟨none, hd⟩ = some st → hdStep st buffer = some st' → st'.reading = some (e, loc) →
      ∀ f ∈ hdFields, f.entry = e → f.key = loc.key → OnlyField f st.hd st'.hd

/-- **The fields are exact**: each array holds the last value of its key, NUL-terminated, or is as it was. -/
def FieldsExact (listing : DmiListing) (hd : HdInfo) : Prop :=
  ∃ hd', sarahGetHdInfo (some listing.text) hd = some (0, hd') ∧
    (∀ f ∈ hdFields,
      match (listing.values f).getLast? with
      | none => hd'.field f = hd.field f
      | some value => cstr (hd'.field f) = f.expected value ∧ 0 ∈ hd'.field f) ∧
    LinesKeepOut listing.text hd

/-- The lines and the bytes before the call for one array. -/
structure PlainField (f : HdField) (stored values : List (List UInt8)) (b : ℕ → UInt8) : Prop where
  own : ∀ t ∈ stored.getLast?, ∀ v ∈ values.getLast?, (∃ c ∈ v, CelString.isBlank c = false) ∨ v = [] ∧ t = []
  room : ∀ t ∈ stored.getLast?, (f.cut t).length < f.size ∧ b (f.cut t).length = 0
  longest : ∀ t ∈ stored.getLast?, ∀ s ∈ stored, (f.cut s).length ≤ (f.cut t).length

/-- **When the fields are exact.** -/
structure PlainHardware (listing : DmiListing) (hd : HdInfo) : Prop where
  fits : listing.Fits
  field : ∀ f ∈ hdFields, PlainField f (listing.stored f.entry f.key) (listing.values f) (hd.byte f)
  inside : ∀ f ∈ hdFields, f.lower = true → ∀ t ∈ listing.stored f.entry f.key, f.offset + t.length ≤ f.entry.size
  unit : ∀ key, isSizeKey .bios key → ∀ t ∈ listing.stored .bios key, unitLength t ≤ 2

/-! ## No capital letter in `uuid` -/

theorem OnlyField.refl (f : HdField) (hd : HdInfo) : OnlyField f hd hd := ⟨rfl, rfl, fun _ _ _ _ => rfl⟩

theorem hdStep_spec {st st' : HdReader} {buffer : List UInt8} (hcap : NoCapital st.hd)
    (h : hdStep st buffer = some st') :
    NoCapital st'.hd ∧ ∀ e loc, st'.reading = some (e, loc) → ∀ f ∈ hdFields, f.entry = e → f.key = loc.key →
      OnlyField f st.hd st'.hd := by
  have hkeep : st'.hd = st.hd → NoCapital st'.hd ∧ ∀ e loc, st'.reading = some (e, loc) → ∀ f ∈ hdFields,
      f.entry = e → f.key = loc.key → OnlyField f st.hd st'.hd := by
    intro hsame
    rw [hsame]
    exact ⟨hcap, fun _ _ _ f _ _ _ => OnlyField.refl f st.hd⟩
  obtain ⟨reading, hd⟩ := st
  cases reading with
  | none => exact hkeep (by rw [← Option.some.inj h])
  | some r =>
    obtain ⟨e, loc⟩ := r
    simp only [hdStep] at h
    split_ifs at h with hshort hcolon
    · exact hkeep (by rw [← Option.some.inj h])
    · obtain ⟨⟨loc', hd'⟩, hparse, rfl⟩ := Option.map_eq_some_iff.mp h
      obtain ⟨hkey, -, hcap', honly, -⟩ := parseInfo_spec hcap hparse
      refine ⟨hcap', fun e' loc'' hreading f hf he hfkey => ?_⟩
      obtain ⟨rfl, rfl⟩ := Prod.mk.inj (Option.some.inj hreading)
      exact honly f hf he (hfkey.trans hkey)
    · exact hkeep (by rw [← Option.some.inj h])

theorem foldlM_noCapital {pieces : List (List UInt8)} {st st' : HdReader} (hcap : NoCapital st.hd)
    (h : pieces.foldlM hdStep st = some st') : NoCapital st'.hd := by
  induction pieces generalizing st with
  | nil => exact Option.some.inj h ▸ hcap
  | cons buffer pieces ih =>
    rw [foldlM_cons] at h
    obtain ⟨st₁, hstep, hrest⟩ := Option.bind_eq_some_iff.mp h
    exact ih (hdStep_spec hcap hstep).1 hrest

theorem HdReached.noCapital {hd : HdInfo} (h : HdReached hd) : NoCapital hd := by
  induction h with
  | init => exact fun i _ => rfl
  | @call hd hd' dmidecode code _ hrun ih =>
    cases dmidecode with
    | none => exact (Prod.mk.inj (Option.some.inj hrun)).2 ▸ ih
    | some text =>
      obtain ⟨st, hfold, heq⟩ := Option.map_eq_some_iff.mp hrun
      rw [← (Prod.mk.inj heq).2]
      exact foldlM_noCapital ih hfold

theorem linesKeepOut {hd : HdInfo} (hcap : NoCapital hd) (text : List UInt8) : LinesKeepOut text hd :=
  fun _ _ _ _ _ _ e loc hpre hstep hreading =>
    (hdStep_spec (foldlM_noCapital (show NoCapital (⟨none, hd⟩ : HdReader).hd from hcap) hpre) hstep).2 e loc hreading

/-! ## The texts of a key and its values -/

/-- What is stored for a value. -/
def StoredFor (t v : List UInt8) : Prop := v ≠ [] → t = celRightTrim v

theorem readsFrom_values {f : HdField} (hf : f ∈ hdFields) (e : HdEntry) {lines : List DmiLine}
    (hlines : ∀ l ∈ lines, l.WellFormed) (val : List UInt8) :
    Forall₂ StoredFor (((readsFrom e val lines).filter fun r => r.entry = f.entry ∧ r.key = f.key).map DmiRead.text)
      (if e = f.entry then valuesOf f.key lines else []) := by
  induction lines generalizing val with
  | nil =>
    split_ifs
    · exact .nil
    · exact .nil
  | cons l lines ih =>
    have hrest := fun val => ih (fun l' hl' => hlines l' (mem_cons_of_mem l hl')) val
    cases l with
    | plain t => exact hrest val
    | pair p =>
      have hwell : p.WellFormed := hlines _ mem_cons_self
      have htail := hrest (p.valueOver val)
      rw [readsFrom, valuesOf]
      by_cases hmatch : e = f.entry ∧ p.key = f.key
      · rw [filter_cons, if_pos (decide_eq_true hmatch), map_cons]
        rw [if_pos hmatch.1] at htail ⊢
        rw [if_pos hmatch.2]
        refine .cons (fun hne => if_pos ⟨?_, hne⟩) htail
        have hindent := hwell.indented
        have hkey := key_length f hf
        rw [length_append, hmatch.2]
        omega
      · rw [filter_cons, if_neg (by rwa [decide_eq_true_eq])]
        by_cases he : e = f.entry
        · rw [if_pos he] at htail ⊢
          rwa [if_neg fun hkey => hmatch ⟨he, hkey⟩]
        · rw [if_neg he] at htail ⊢
          exact htail

/-- **The stored texts follow the values**, line by line. -/
theorem stored_values {f : HdField} (hf : f ∈ hdFields) (listing : DmiListing) :
    Forall₂ StoredFor (listing.stored f.entry f.key) (listing.values f) := by
  have hwell := listing.wellFormed
  unfold DmiListing.stored DmiListing.values DmiListing.reads
  generalize listing.items = items at hwell ⊢
  induction items with
  | nil => exact .nil
  | cons item items ih =>
    rw [flatMap_cons, flatMap_cons, filter_append, map_append]
    refine rel_append ?_ (ih fun i hi => hwell i (mem_cons_of_mem item hi))
    cases item with
    | other t => exact .nil
    | part s => exact readsFrom_values hf s.entry (hwell _ mem_cons_self) []

theorem mem_stored {listing : DmiListing} {e : HdEntry} {key t : List UInt8} :
    t ∈ listing.stored e key ↔ ∃ r ∈ listing.reads, r.entry = e ∧ r.key = key ∧ r.text = t := by
  simp only [DmiListing.stored, mem_map, mem_filter, decide_eq_true_eq, and_assoc]

theorem mem_celRightTrim {c : UInt8} {s : List UInt8} (h : c ∈ celRightTrim s) : c ∈ s := by
  unfold celRightTrim at h
  dsimp only at h
  split_ifs at h
  · exact h
  · have hstart := rdropWhile_prefix CelString.isBlank s
    exact hstart.subset h

theorem readsFrom_nul {e : HdEntry} {lines : List DmiLine} (hclean : ∀ l ∈ lines, 0 ∉ l.text) (val : List UInt8)
    (hval : 0 ∉ val) : ∀ r ∈ readsFrom e val lines, 0 ∉ r.text := by
  induction lines generalizing val with
  | nil => exact fun r hr => (not_mem_nil hr).elim
  | cons l lines ih =>
    have hrest := fun val hval => ih (fun l' hl' => hclean l' (mem_cons_of_mem l hl')) val hval
    cases l with
    | plain t => exact hrest val hval
    | pair p =>
      have hnew : 0 ∉ p.valueOver val := by
        unfold DmiPair.valueOver
        split_ifs
        · intro h0
          refine hclean _ mem_cons_self ?_
          simp only [DmiLine.text, DmiPair.text, mem_append]
          exact Or.inr (Or.inr (Or.inr (mem_celRightTrim h0)))
        · exact hval
      rintro r hr
      rcases mem_cons.mp hr with rfl | hr
      · exact hnew
      · exact hrest _ hnew r hr

theorem stored_nul {listing : DmiListing} {e : HdEntry} {key : List UInt8} : ∀ t ∈ listing.stored e key, 0 ∉ t := by
  intro t ht
  obtain ⟨r, hr, -, -, rfl⟩ := mem_stored.mp ht
  obtain ⟨item, hitem, hr⟩ := mem_flatMap.mp hr
  cases item with
  | other t => exact (not_mem_nil hr).elim
  | part s =>
    refine readsFrom_nul (fun l hl => (listing.clean l.text ?_).2) [] not_mem_nil r hr
    exact mem_flatMap.mpr ⟨.part s, hitem, mem_cons_of_mem _ (mem_append_left _ (mem_map_of_mem hl))⟩

/-! ## One array -/

theorem foldl_take_stored (f : HdField) (rs : List DmiRead) (b : ℕ → UInt8) :
    rs.foldl f.take b = ((rs.filter fun r => r.entry = f.entry ∧ r.key = f.key).map DmiRead.text).foldl f.put b := by
  induction rs generalizing b with
  | nil => rfl
  | cons r rs ih =>
    rw [foldl_cons, ih, HdField.take, filter_cons]
    by_cases hmatch : r.entry = f.entry ∧ r.key = f.key
    · rw [if_pos ⟨hmatch.1.symm, hmatch.2.symm⟩, if_pos (decide_eq_true hmatch)]
      rfl
    · rw [if_neg fun h => hmatch ⟨h.1.symm, h.2.symm⟩, if_neg (by rwa [decide_eq_true_eq])]

theorem getLast?_forall₂ {A B : Type} {R : A → B → Prop} {l : List A} {l' : List B} (h : Forall₂ R l l') :
    l.getLast? = none ∧ l'.getLast? = none ∨ ∃ a b, l.getLast? = some a ∧ l'.getLast? = some b ∧ R a b := by
  have hrev := forall₂_reverse_iff.mpr h
  rw [← head?_reverse, ← head?_reverse]
  generalize l.reverse = m at hrev ⊢
  generalize l'.reverse = m' at hrev ⊢
  cases hrev with
  | nil => exact Or.inl ⟨rfl, rfl⟩
  | cons hab _ => exact Or.inr ⟨_, _, rfl, rfl, hab⟩

theorem rdropWhile_blank {v : List UInt8} (h : ∀ c ∈ v, CelString.isBlank c = true) :
    v.rdropWhile CelString.isBlank = [] :=
  rdropWhile_eq_nil_iff.mpr h

theorem celRightTrim_blank {v : List UInt8} (h : ∀ c ∈ v, CelString.isBlank c = true) : celRightTrim v = v :=
  if_pos (rdropWhile_blank h)

theorem celRightTrim_text {v : List UInt8} (h : ∃ c ∈ v, CelString.isBlank c = false) :
    celRightTrim v = v.rdropWhile CelString.isBlank := by
  obtain ⟨c, hc, hblank⟩ := h
  refine if_neg fun hnil => ?_
  have hall : CelString.isBlank c = true := rdropWhile_eq_nil_iff.mp hnil c hc
  rw [hall] at hblank
  cases hblank

theorem StoredFor.eq_of_text {t v : List UInt8} (h : StoredFor t v) (htext : ∃ c ∈ v, CelString.isBlank c = false) :
    t = v.rdropWhile CelString.isBlank := by
  rw [← celRightTrim_text htext]
  refine h fun hnil => ?_
  obtain ⟨c, hc, -⟩ := htext
  rw [hnil] at hc
  exact not_mem_nil hc

theorem length_expected (f : HdField) (v : List UInt8) :
    (f.expected v).length = min (f.size - 1) (v.rdropWhile CelString.isBlank).length := by
  unfold HdField.expected
  dsimp only
  split_ifs
  · rw [length_map, length_take]
  · rw [length_take]

/-- A stored text that is no longer than what is expected belongs to its own line. -/
theorem StoredFor.own {f : HdField} (hf : f ∈ hdFields) {t v : List UInt8} (h : StoredFor t v)
    (hcut : (f.cut t).length ≤ (f.expected v).length) :
    (∃ c ∈ v, CelString.isBlank c = false) ∨ v = [] ∧ t = [] := by
  by_contra hneither
  obtain ⟨hblank, hempty⟩ := not_or.mp hneither
  have hall : ∀ c ∈ v, CelString.isBlank c = true := fun c hc =>
    Bool.eq_true_of_not_eq_false fun hfalse => hblank ⟨c, hc, hfalse⟩
  have ht : t = [] := by
    obtain ⟨-, -, hpos⟩ := size_most f hf
    rw [length_expected, rdropWhile_blank hall, length_nil, Nat.min_zero, length_cut hf] at hcut
    refine length_eq_zero_iff.mp ?_
    omega
  by_cases hv : v = []
  · exact hempty ⟨hv, ht⟩
  · rw [h hv, celRightTrim_blank hall] at ht
    exact hv ht

theorem StoredFor.eq_kept {t v : List UInt8} (h : StoredFor t v)
    (hown : (∃ c ∈ v, CelString.isBlank c = false) ∨ v = [] ∧ t = []) : t = v.rdropWhile CelString.isBlank := by
  rcases hown with htext | ⟨rfl, rfl⟩
  · exact h.eq_of_text htext
  · rfl

theorem expected_of_room {f : HdField} (hf : f ∈ hdFields) {v : List UInt8}
    (hroom : (f.cut (v.rdropWhile CelString.isBlank)).length < f.size) :
    f.expected v = if f.lower then (f.cut (v.rdropWhile CelString.isBlank)).map tolower
      else f.cut (v.rdropWhile CelString.isBlank) := by
  have hcut : f.cut (v.rdropWhile CelString.isBlank) = (v.rdropWhile CelString.isBlank).take (f.size - 1) := by
    obtain ⟨hmost, hsize, -⟩ := size_most f hf
    rw [length_cut hf] at hroom
    rw [cut_eq hf]
    by_cases hsame : f.most = f.size - 1
    · rw [hsame]
    · rw [take_of_length_le (by omega), take_of_length_le (by omega)]
  rw [hcut]
  rfl

theorem getD_tolower (s : List UInt8) (i : ℕ) : (s.map tolower).getD i 0 = tolower (s.getD i 0) := by
  rw [getD_eq_getElem?_getD, getD_eq_getElem?_getD, getElem?_map]
  cases s[i]? with
  | none => rfl
  | some c => rfl

theorem zero_notMem_lowered {f : HdField} (hf : f ∈ hdFields) {t : List UInt8} (hnul : 0 ∉ t) :
    0 ∉ if f.lower then (f.cut t).map tolower else f.cut t := by
  have hcut : 0 ∉ f.cut t := by
    rw [cut_eq hf]
    exact fun h => hnul (mem_of_mem_take h)
  split_ifs
  · intro h
    obtain ⟨c, hc, hc0⟩ := mem_map.mp h
    rw [tolower_eq_zero_iff] at hc0
    exact hcut (hc0 ▸ hc)
  · exact hcut

/-- **What the stored texts leave in an array.** -/
theorem plainField_iff {f : HdField} (hf : f ∈ hdFields) {stored values : List (List UInt8)}
    (hpairs : Forall₂ StoredFor stored values) (hnul : ∀ t ∈ stored, 0 ∉ t) (b : ℕ → UInt8) :
    (match values.getLast? with
      | none => (range f.size).map (stored.foldl f.put b) = (range f.size).map b
      | some v => cstr ((range f.size).map (stored.foldl f.put b)) = f.expected v ∧
          0 ∈ (range f.size).map (stored.foldl f.put b)) ↔ PlainField f stored values b := by
  rcases getLast?_forall₂ hpairs with ⟨hnone, hnone'⟩ | ⟨t, v, hlast, hlast', hstored⟩
  · rw [getLast?_eq_none_iff] at hnone
    subst hnone
    rw [hnone']
    exact iff_of_true rfl ⟨fun _ ht => (by cases ht), fun _ ht => (by cases ht), fun _ ht => (by cases ht)⟩
  · obtain ⟨pre, hpre⟩ := getLast?_eq_some_iff.mp hlast
    have hmem : t ∈ stored := mem_of_getLast? hlast
    have hzero := foldl_put_eq_zero hf hnul b
    obtain ⟨hmost, hsize, hpos⟩ := size_most f hf
    simp only [hlast']
    rw [cstr_map_range_iff]
    constructor
    · rintro ⟨hlt, hend, -⟩
      obtain ⟨hold, hlong⟩ := (hzero _).mp hend
      have hown := hstored.own hf (hlong t hmem)
      have hsame : (f.cut t).length = (f.expected v).length := by
        have hcut := hlong t hmem
        rw [length_cut hf, length_expected, ← hstored.eq_kept hown] at hcut ⊢
        omega
      refine ⟨fun t' ht' v' hv' => ?_, fun t' ht' => ?_, fun t' ht' s hs => ?_⟩
      · rw [hlast] at ht'
        rw [hlast'] at hv'
        cases ht'
        cases hv'
        exact hown
      · rw [hlast] at ht'
        cases ht'
        rw [hsame]
        exact ⟨hlt, hold⟩
      · rw [hlast] at ht'
        cases ht'
        rw [hsame]
        exact hlong s hs
    · rintro ⟨hown, hroom, hlong⟩
      obtain ⟨hlt, hold⟩ := hroom t hlast
      obtain rfl := hstored.eq_kept (hown t hlast v hlast')
      have hexpected := expected_of_room hf hlt
      have hlength : (f.expected v).length = (f.cut (v.rdropWhile CelString.isBlank)).length := by
        rw [hexpected]
        split_ifs
        · exact length_map _
        · rfl
      refine ⟨hlength ▸ hlt, ?_, ?_, fun i hi => ?_⟩
      · rw [hlength]
        exact (hzero _).mpr ⟨hold, hlong _ hlast⟩
      · rw [hexpected]
        exact zero_notMem_lowered hf (hnul _ hmem)
      · rw [hlength] at hi
        have hcutle : (f.cut (v.rdropWhile CelString.isBlank)).length ≤ (v.rdropWhile CelString.isBlank).length := by
          rw [length_cut hf]
          exact min_le_right _ _
        rw [hpre, foldl_append, foldl_cons, foldl_nil, put_of_lt f _ hi hcutle, hexpected]
        split_ifs
        · exact (getD_tolower _ i).symm
        · rfl

/-! ## All arrays -/

theorem safe_iff (listing : DmiListing) :
    (∀ r ∈ listing.reads, r.Safe) ↔
      (∀ f ∈ hdFields, f.lower = true → ∀ t ∈ listing.stored f.entry f.key, f.offset + t.length ≤ f.entry.size) ∧
        ∀ key, isSizeKey .bios key → ∀ t ∈ listing.stored .bios key, unitLength t ≤ 2 := by
  constructor
  · intro hsafe
    constructor
    · intro f hf hlower t ht
      obtain ⟨r, hr, he, hkey, rfl⟩ := mem_stored.mp ht
      have hin := (hsafe r hr).lower f hf he.symm hkey.symm hlower
      rwa [he] at hin
    · intro key hsize t ht
      obtain ⟨r, hr, he, hkey, rfl⟩ := mem_stored.mp ht
      refine (hsafe r hr).unit ?_
      rwa [he, hkey]
  · rintro ⟨hinside, hunit⟩ r hr
    refine ⟨fun f hf he hkey hlower => ?_, fun hsize => ?_⟩
    · have hin := hinside f hf hlower r.text (mem_stored.mpr ⟨r, hr, he.symm, hkey.symm, rfl⟩)
      rwa [he] at hin
    · exact hunit r.key ⟨rfl, hsize.2⟩ r.text (mem_stored.mpr ⟨r, hr, hsize.1, rfl, rfl⟩)

theorem field_of_effect {f : HdField} (hf : f ∈ hdFields) {listing : DmiListing} {hd hd' : HdInfo}
    (h : Effect listing.reads hd hd') :
    hd'.field f = (range f.size).map ((listing.stored f.entry f.key).foldl f.put (hd.byte f)) := by
  refine map_congr_left fun i hi => ?_
  rw [h.2 f hf i (mem_range.mp hi), foldl_take_stored]
  rfl

/-- **The fields are exact on plain hardware**, and only there as long as the lines of the sections fit the buffer. -/
theorem fieldsExact_plain {hd : HdInfo} (hreached : HdReached hd) (listing : DmiListing) :
    (PlainHardware listing hd → FieldsExact listing hd) ∧
      (listing.Fits → FieldsExact listing hd → PlainHardware listing hd) := by
  have hcap := hreached.noCapital
  have hfield : ∀ f ∈ hdFields, ∀ hd', Effect listing.reads hd hd' →
      ((match (listing.values f).getLast? with
        | none => hd'.field f = hd.field f
        | some value => cstr (hd'.field f) = f.expected value ∧ 0 ∈ hd'.field f) ↔
          PlainField f (listing.stored f.entry f.key) (listing.values f) (hd.byte f)) := by
    intro f hf hd' heffect
    rw [field_of_effect hf heffect, HdInfo.field]
    exact plainField_iff hf (stored_values hf listing) stored_nul (hd.byte f)
  constructor
  · intro hplain
    have hstores := foldlM_listing listing hplain.fits hcap
    have hsafe := (safe_iff listing).mpr ⟨hplain.inside, hplain.unit⟩
    cases hrun : sarahGetHdInfo (some listing.text) hd with
    | none =>
      rw [hrun] at hstores
      obtain ⟨r, hr, hunsafe⟩ := hstores.stops rfl
      exact absurd (hsafe r hr) hunsafe
    | some result =>
      obtain ⟨st, -, rfl⟩ := Option.map_eq_some_iff.mp hrun
      rw [hrun] at hstores
      have heffect := (hstores.stored st.hd rfl).2
      exact ⟨st.hd, hrun, fun f hf => (hfield f hf st.hd heffect).mpr (hplain.field f hf),
        linesKeepOut hcap listing.text⟩
  · rintro hfits ⟨hd', hrun, hexact, -⟩
    have hstores := foldlM_listing listing hfits hcap
    rw [hrun] at hstores
    obtain ⟨hsafe, heffect⟩ := hstores.stored hd' rfl
    obtain ⟨hinside, hunit⟩ := (safe_iff listing).mp hsafe
    exact ⟨hfits, fun f hf => (hfield f hf hd' heffect).mp (hexact f hf), hinside, hunit⟩

/-! ## A BIOS section -/

/-- A pair as `dmidecode` indents it. -/
def dmiPair (key value : List UInt8) : DmiPair := ⟨[9], key, [32], value⟩

/-- The section of a BIOS with a vendor and a version. -/
def biosItems (vendor version : List UInt8) : List DmiItem :=
  [.part ⟨.bios, lit "rmation", [.pair (dmiPair (lit "Vendor") vendor), .pair (dmiPair (lit "Version") version)]⟩]

theorem dmiPair_wellFormed {key value : List UInt8}
    (hkey : 58 ∉ key ∧ key ≠ [] ∧ Stops CelString.isBlank key ∧ key.length ≤ 32)
    (hvalue : Stops (fun c => c = 32) value) : (dmiPair key value).WellFormed := by
  obtain ⟨hcolon, hne, hstops, hlength⟩ := hkey
  exact ⟨fun _ => mem_singleton.mp, Nat.le_succ 1, hcolon, hne, hstops, hlength, fun _ => mem_singleton.mp, hvalue,
    fun _ => cons_ne_nil _ _⟩

theorem biosItems_wellFormed {vendor version : List UInt8} (hvendor : Stops (fun c => c = 32) vendor)
    (hversion : Stops (fun c => c = 32) version) : ∀ i ∈ biosItems vendor version, i.WellFormed := by
  intro i hi
  rw [biosItems, mem_singleton] at hi
  subst hi
  intro l hl
  simp only [mem_cons, not_mem_nil, or_false] at hl
  rcases hl with rfl | rfl
  · exact dmiPair_wellFormed (by decide +kernel) hvendor
  · exact dmiPair_wellFormed (by decide +kernel) hversion

/-- A BIOS section whose version ends in a blank. -/
def acmeBios : DmiListing where
  items := biosItems (lit "ACME") (lit "1.0 ")
  wellFormed := biosItems_wellFormed (by decide +kernel) (by decide +kernel)
  clean := by decide +kernel

theorem fieldsExact_plain_acme : FieldsExact acmeBios hdInit := by
  have hfits : acmeBios.Fits := DmiListing.fits_of_length (by decide +kernel)
  have hown : ∀ f ∈ hdFields, ∀ t ∈ (acmeBios.stored f.entry f.key).getLast?, ∀ v ∈ (acmeBios.values f).getLast?,
      (∃ c ∈ v, CelString.isBlank c = false) ∨ v = [] ∧ t = [] := by decide +kernel
  have hroom : ∀ f ∈ hdFields, ∀ t ∈ (acmeBios.stored f.entry f.key).getLast?,
      (f.cut t).length < f.size ∧ hdInit.byte f (f.cut t).length = 0 := by decide +kernel
  have hlongest : ∀ f ∈ hdFields, ∀ t ∈ (acmeBios.stored f.entry f.key).getLast?,
      ∀ s ∈ acmeBios.stored f.entry f.key, (f.cut s).length ≤ (f.cut t).length := by decide +kernel
  have hunit : ∀ key, isSizeKey .bios key → ∀ t ∈ acmeBios.stored .bios key, unitLength t ≤ 2 := by
    rintro key ⟨-, rfl | rfl⟩
    · decide +kernel
    · decide +kernel
  refine (fieldsExact_plain .init acmeBios).1 ⟨hfits, fun f hf => ⟨hown f hf, hroom f hf, hlongest f hf⟩, ?_, hunit⟩
  decide +kernel

/-- A BIOS with an empty version. -/
def versionlessBios : DmiListing where
  items := biosItems (lit "ACME") []
  wellFormed := biosItems_wellFormed (by decide +kernel) .nil
  clean := by decide +kernel

theorem not_fieldsExact : ¬ ∀ hd, HdReached hd → ∀ listing, FieldsExact listing hd := by
  intro h
  obtain ⟨hd', hrun, hexact, -⟩ := h hdInit .init versionlessBios
  have hversion := hexact biosVersion (by decide +kernel)
  have hvalues : (versionlessBios.values biosVersion).getLast? = some [] := by decide +kernel
  have hstale : (sarahGetHdInfo (some versionlessBios.text) hdInit).map (fun r => cstr (r.2.field biosVersion)) =
      some (lit "ACME") := by decide +kernel
  rw [hvalues] at hversion
  rw [hrun, Option.map_some, Option.some.injEq] at hstale
  rw [hstale] at hversion
  exact absurd hversion.1 (by decide)

end Sarah

import SarahClient.Hardware.Fields
import SarahClient.Disk.Listing

/-!
# The output of `dmidecode`

* `DmiPair`, `DmiLine`, `DmiSection`, `DmiListing`: the output and its text;
* `DmiListing.values`: the values of a key; `DmiListing.reads`: what the parse functions store for its lines;
* `readPair_text`: what `sscanf` and the trims read from a line;
* **`foldlM_listing`**: the run over all lines.
-/

namespace Sarah

open List Stdio

/-! ## The output -/

/-- A line `key: value`; the value can be empty. -/
structure DmiPair where
  indent : List UInt8
  key : List UInt8
  gap : List UInt8
  value : List UInt8

/-- The printed line. -/
def DmiPair.text (p : DmiPair) : List UInt8 := (p.indent ++ p.key) ++ ([58] ++ (p.gap ++ p.value))

/-- Tabs, a key, blanks and the value. -/
structure DmiPair.WellFormed (p : DmiPair) : Prop where
  indent : ∀ c ∈ p.indent, c = 9
  indented : p.indent.length ≤ 2
  key : 58 ∉ p.key
  named : p.key ≠ []
  start : Stops CelString.isBlank p.key
  keyFits : p.key.length ≤ 32
  gap : ∀ c ∈ p.gap, c = 32
  value : Stops (fun c => c = 32) p.value
  apart : p.value ≠ [] → p.gap ≠ []

/-- A line of a section; a plain line has no colon. -/
inductive DmiLine
  | pair (p : DmiPair)
  | plain (t : List UInt8)

/-- The printed line. -/
def DmiLine.text : DmiLine → List UInt8
  | .pair p => p.text
  | .plain t => t

/-- A line without a colon is not empty. -/
def DmiLine.WellFormed : DmiLine → Prop
  | .pair p => p.WellFormed
  | .plain t => t ≠ [] ∧ 58 ∉ t

/-- The start of the line that opens a section. -/
def HdEntry.title : HdEntry → List UInt8
  | .bios => lit "BIOS Info"
  | .system => lit "System Info"
  | .board => lit "Base Board Info"

/-- A section of one of the three kinds, which an empty line ends. -/
structure DmiSection where
  entry : HdEntry
  rest : List UInt8
  lines : List DmiLine

/-- A section of one of the three kinds, or a line that belongs to none. -/
inductive DmiItem
  | other (t : List UInt8)
  | part (s : DmiSection)

/-- The printed lines; an empty one ends a section. -/
def DmiItem.texts : DmiItem → List (List UInt8)
  | .other t => [t]
  | .part s => (s.entry.title ++ s.rest) :: (s.lines.map DmiLine.text ++ [[]])

/-- A line outside the sections starts none. -/
def DmiItem.WellFormed : DmiItem → Prop
  | .other t => ∀ e : HdEntry, ¬ e.title <+: t
  | .part s => ∀ l ∈ s.lines, l.WellFormed

/-- The pieces of a line outside the sections start none; the other lines come in one piece. -/
def DmiItem.Fits : DmiItem → Prop
  | .other t => ∀ buffer ∈ fgetsAll 256 (nl t), headerEntry buffer = none
  | .part s => ∀ t ∈ (DmiItem.part s).texts, t.length ≤ 254

/-- **The output of `dmidecode`**: any sections with any lines, in any order. -/
structure DmiListing where
  items : List DmiItem
  wellFormed : ∀ i ∈ items, i.WellFormed
  clean : ∀ t ∈ items.flatMap DmiItem.texts, 10 ∉ t ∧ 0 ∉ t

namespace DmiListing

/-- The printed listing. -/
def text (listing : DmiListing) : List UInt8 := (listing.items.flatMap DmiItem.texts).flatMap fun t => t ++ [10]

/-- The lines of the sections fit the buffer of `fgets`, and no piece of another line is taken for a title. -/
def Fits (listing : DmiListing) : Prop := ∀ i ∈ listing.items, i.Fits

end DmiListing

/-! ## The values and what is stored for them -/

/-- The values of the lines of a key. -/
def valuesOf (key : List UInt8) : List DmiLine → List (List UInt8)
  | [] => []
  | .plain _ :: lines => valuesOf key lines
  | .pair p :: lines => if p.key = key then p.value :: valuesOf key lines else valuesOf key lines

/-- The values of a key in the sections of its kind. -/
def DmiListing.values (listing : DmiListing) (f : HdField) : List (List UInt8) :=
  listing.items.flatMap fun
    | .other _ => []
    | .part s => if s.entry = f.entry then valuesOf f.key s.lines else []

/-- `val` behind a line; an empty value, or one whose key `%32[^:]` cuts, leaves it as it was. -/
def DmiPair.valueOver (p : DmiPair) (val : List UInt8) : List UInt8 :=
  if (p.indent ++ p.key).length ≤ 32 ∧ p.value ≠ [] then celRightTrim p.value else val

/-- A text that a parse function stores for a key. -/
structure DmiRead where
  entry : HdEntry
  key : List UInt8
  text : List UInt8

/-- The read overruns no array. -/
def DmiRead.Safe (r : DmiRead) : Prop := SafeRead r.entry r.key r.text

/-- What the lines of a section store; `val` is what the lines before have left. -/
def readsFrom (e : HdEntry) : List UInt8 → List DmiLine → List DmiRead
  | _, [] => []
  | val, .plain _ :: lines => readsFrom e val lines
  | val, .pair p :: lines => ⟨e, p.key, p.valueOver val⟩ :: readsFrom e (p.valueOver val) lines

/-- What is read of an item. -/
def DmiItem.reads : DmiItem → List DmiRead
  | .other _ => []
  | .part s => readsFrom s.entry [] s.lines

/-- What is read of the listing. -/
def DmiListing.reads (listing : DmiListing) : List DmiRead := listing.items.flatMap DmiItem.reads

/-- The texts that are stored for a key of a kind of section. -/
def DmiListing.stored (listing : DmiListing) (e : HdEntry) (key : List UInt8) : List (List UInt8) :=
  (listing.reads.filter fun r => r.entry = e ∧ r.key = key).map DmiRead.text

/-! ## Reading a line -/

/-- The key as it is compared. -/
def DmiPair.readKey (p : DmiPair) : List UInt8 := celLeftTrim ((p.indent ++ p.key).take 32)

theorem isBlank_eq : CelString.isBlank = fun c => decide (c = 32 ∨ c = 9 ∨ c = 13) := rfl

theorem readKey_eq_iff {p : DmiPair} (h : p.WellFormed) {k : List UInt8} (hk : k.length ≤ 13) :
    p.readKey = k ↔ p.key = k := by
  have htabs : ∀ c ∈ p.indent, CelString.isBlank c := fun c hc => by
    rw [h.indent c hc]
    decide
  have hlen := h.indented
  unfold DmiPair.readKey celLeftTrim
  rw [← isBlank_eq, take_append, take_of_length_le (by omega)]
  by_cases hfits : p.key.length ≤ 32 - p.indent.length
  · rw [take_of_length_le hfits, dropWhile_run htabs h.start]
  · have hne : p.key ≠ [] := h.named
    have hstart : Stops CelString.isBlank (p.key.take (32 - p.indent.length)) := by
      intro c hc
      rw [head?_take, if_neg (by omega)] at hc
      exact h.start c hc
    rw [dropWhile_run htabs hstart]
    constructor
    · intro heq
      have hcut := congrArg length heq
      rw [length_take] at hcut
      omega
    · rintro rfl
      omega

theorem celRightTrim_idem (s : List UInt8) : celRightTrim (celRightTrim s) = celRightTrim s := by
  by_cases hblank : s.rdropWhile CelString.isBlank = []
  · have hkeep : celRightTrim s = s := if_pos hblank
    rw [hkeep, hkeep]
  · have hcut : celRightTrim s = s.rdropWhile CelString.isBlank := if_neg hblank
    have hagain : (s.rdropWhile CelString.isBlank).rdropWhile CelString.isBlank = s.rdropWhile CelString.isBlank :=
      rdropWhile_idempotent CelString.isBlank s
    rw [hcut]
    exact (if_neg fun hnil => hblank (hagain.symm.trans hnil)).trans hagain

theorem celRightTrim_valueOver {val : List UInt8} (hval : celRightTrim val = val) (p : DmiPair) :
    celRightTrim (p.valueOver val) = p.valueOver val := by
  unfold DmiPair.valueOver
  split_ifs
  · exact celRightTrim_idem p.value
  · exact hval

/-- **What is read from a line.** -/
theorem readPair_text {p : DmiPair} (h : p.WellFormed) (hclean : 10 ∉ p.text) (hfits : p.text.length ≤ 254)
    {loc : HdLocals} (hval : celRightTrim loc.val = loc.val) :
    readPair (nl p.text) loc = { loc with key := p.readKey, val := p.valueOver loc.val } := by
  have hcolon : ∀ c ∈ p.indent ++ p.key, decide (c ≠ 58) = true := by
    intro c hc
    rcases mem_append.mp hc with hindent | hkey
    · rw [h.indent c hindent]
      decide
    · exact decide_eq_true fun heq => h.key (heq ▸ hkey)
  have hvalue : ∀ c ∈ p.value, decide (c ≠ 10) = true := fun c hc => decide_eq_true fun heq => hclean (by
    rw [← heq, DmiPair.text]
    simp only [mem_append]
    exact Or.inr (Or.inr (Or.inr hc)))
  have hvalueFits : p.value.length ≤ 255 := by
    simp only [DmiPair.text, length_append] at hfits
    omega
  have hne : p.indent ++ p.key ≠ [] := append_ne_nil_of_right_ne_nil _ h.named
  have hline : nl p.text = (p.indent ++ p.key) ++ ([58] ++ (p.gap ++ (p.value ++ [10]))) := by
    simp only [nl, DmiPair.text, append_assoc]
  have hkeyStop : Stops (fun c => decide (c ≠ 58)) ([58] ++ (p.gap ++ (p.value ++ [10]))) := .cons (by decide)
  have hend : Stops (fun c => decide (c ≠ 10)) [10] := .cons (by decide)
  have hscan : textAt (sscanf dmiFormat (nl p.text)) 0 loc.key = (p.indent ++ p.key).take 32 ∧
      celRightTrim (textAt (sscanf dmiFormat (nl p.text)) 1 loc.val) = p.valueOver loc.val := by
    rw [hline, dmiFormat, DmiPair.valueOver]
    by_cases hshort : (p.indent ++ p.key).length ≤ 32
    · rw [sscanf_set _ true hne hcolon hkeyStop (within_some hshort), sscanf_lit, take_of_length_le hshort]
      by_cases hempty : p.value = []
      · have hnothing : sscanf [.set (fun c => decide (c = 32)) none false, .set (fun c => decide (c ≠ 10))
          (some 255) true]
            (p.gap ++ (p.value ++ [10])) = [] := by
          rw [hempty, nil_append]
          by_cases hgap : p.gap = []
          · rw [hgap, nil_append]
            exact sscanf_set_of_stops _ _ _ (.cons (by decide))
          · rw [sscanf_set _ false hgap (fun c hc => decide_eq_true (h.gap c hc)) (.cons (by decide)) within_none,
              sscanf_set_of_stops _ _ _ hend]
            rfl
        rw [hnothing, if_neg (fun hboth : _ ∧ p.value ≠ [] => hboth.2 hempty)]
        exact ⟨rfl, hval⟩
      · have hgap := h.apart hempty
        have hstop : Stops (fun c => decide (c = 32)) (p.value ++ [10]) := h.value.append hempty
        have hboth : (p.indent ++ p.key).length ≤ 32 ∧ p.value ≠ [] := ⟨hshort, hempty⟩
        rw [sscanf_set _ false hgap (fun c hc => decide_eq_true (h.gap c hc)) hstop within_none,
          sscanf_set _ true hempty hvalue hend (within_some hvalueFits), if_pos hboth]
        exact ⟨rfl, rfl⟩
    · have hdrop : (p.indent ++ p.key).drop 32 ≠ [] := by
        rw [Ne, drop_eq_nil_iff]
        exact hshort
      have hmiss : sscanf [.lit [58], .set (fun c => decide (c = 32)) none false,
          .set (fun c => decide (c ≠ 10)) (some 255) true]
          ((p.indent ++ p.key).drop 32 ++ ([58] ++ (p.gap ++ (p.value ++ [10])))) = [] := by
        refine if_neg fun hstarts => ?_
        obtain ⟨c, rest, hrest⟩ := exists_cons_of_ne_nil hdrop
        have hc : c ∈ p.indent ++ p.key := mem_of_mem_drop (hrest ▸ mem_cons_self)
        rw [hrest, cons_append, cons_prefix_cons] at hstarts
        exact absurd hstarts.1.symm (of_decide_eq_true (hcolon c hc))
      rw [sscanf_set_take _ hcolon (by omega) hkeyStop, hmiss, if_neg (fun hboth : _ ∧ p.value ≠ [] => hshort hboth.1)]
      exact ⟨rfl, hval⟩
  rw [readPair, hscan.1, hscan.2]
  rfl

/-! ## The effect of reads -/

/-- A read over an array. -/
def HdField.take (g : HdField) (b : ℕ → UInt8) (r : DmiRead) : ℕ → UInt8 :=
  if g.entry = r.entry ∧ g.key = r.key then g.put b r.text else b

theorem take_congr (g : HdField) {b b' : ℕ → UInt8} {i : ℕ} (h : b i = b' i) (r : DmiRead) :
    g.take b r i = g.take b' r i := by
  unfold HdField.take
  split_ifs
  · rw [HdField.put, HdField.put, h]
  · exact h

theorem foldl_take_congr (g : HdField) {i : ℕ} (rs : List DmiRead) {b b' : ℕ → UInt8} (h : b i = b' i) :
    rs.foldl g.take b i = rs.foldl g.take b' i := by
  induction rs generalizing b b' with
  | nil => exact h
  | cons r rs ih => exact ih (take_congr g h r)

/-- Every array takes the reads of its key, and nothing puts a capital letter into `uuid`. -/
def Effect (rs : List DmiRead) (hd hd' : HdInfo) : Prop :=
  NoCapital hd' ∧ ∀ g ∈ hdFields, ∀ i < g.size, hd'.byte g i = rs.foldl g.take (hd.byte g) i

/-- A run over reads ends when all their writes stay inside, and has the effect of the reads. -/
structure HdStores (rs : List DmiRead) (hd : HdInfo) (result : Option HdInfo) : Prop where
  stops : result = none → ∃ r ∈ rs, ¬ r.Safe
  stored : ∀ hd', result = some hd' → (∀ r ∈ rs, r.Safe) ∧ Effect rs hd hd'

theorem HdStores.nil {hd : HdInfo} (hcap : NoCapital hd) : HdStores [] hd (some hd) :=
  ⟨fun h => (Option.some_ne_none hd h).elim, fun _ h =>
    ⟨fun _ hr => (not_mem_nil hr).elim, Option.some.inj h ▸ ⟨hcap, fun _ _ _ _ => rfl⟩⟩⟩

theorem HdStores.append {rs rs' : List DmiRead} {hd hd₁ : HdInfo} {result : Option HdInfo}
    (h : HdStores rs hd (some hd₁)) (h' : HdStores rs' hd₁ result) : HdStores (rs ++ rs') hd result := by
  obtain ⟨hsafe, -, heffect⟩ := h.stored hd₁ rfl
  refine ⟨fun hnone => ?_, fun hd' hsome => ?_⟩
  · obtain ⟨r, hr, hunsafe⟩ := h'.stops hnone
    exact ⟨r, mem_append_right rs hr, hunsafe⟩
  · obtain ⟨hsafe', hcap', heffect'⟩ := h'.stored hd' hsome
    refine ⟨fun r hr => (mem_append.mp hr).elim (hsafe r) (hsafe' r), hcap', fun g hg i hi => ?_⟩
    rw [heffect' g hg i hi, foldl_append]
    exact foldl_take_congr g rs' (heffect g hg i hi)

theorem HdStores.none_append {rs : List DmiRead} {hd : HdInfo} (h : HdStores rs hd none) (rs' : List DmiRead) :
    HdStores (rs ++ rs') hd none := by
  obtain ⟨r, hr, hunsafe⟩ := h.stops rfl
  exact ⟨fun _ => ⟨r, mem_append_left rs' hr, hunsafe⟩, fun _ hsome => by cases hsome⟩

/-! ## The run -/

theorem key_length : ∀ f ∈ hdFields, f.key.length ≤ 13 := by decide

theorem safeRead_congr {e : HdEntry} {k k' val : List UInt8} (h : ∀ s : List UInt8, s.length ≤ 13 → (k = s ↔ k' = s)) :
    SafeRead e k val ↔ SafeRead e k' val := by
  have hsize : isSizeKey e k ↔ isSizeKey e k' :=
    and_congr_right fun _ => or_congr (h _ (by decide)) (h _ (by decide))
  constructor
  · intro hsafe
    exact ⟨fun f hf he hkey => hsafe.lower f hf he ((h f.key (key_length f hf)).mpr hkey.symm).symm,
      fun hkey => hsafe.unit (hsize.mpr hkey)⟩
  · intro hsafe
    exact ⟨fun f hf he hkey => hsafe.lower f hf he ((h f.key (key_length f hf)).mp hkey.symm).symm,
      fun hkey => hsafe.unit (hsize.mp hkey)⟩

theorem stores_pair (e : HdEntry) (loc : HdLocals) {hd : HdInfo} (hcap : NoCapital hd) {key : List UInt8}
    (hkey : ∀ s : List UInt8, s.length ≤ 13 → (loc.key = s ↔ key = s)) :
    HdStores [⟨e, key, loc.val⟩] hd ((parseInfo e loc hd).map Prod.snd) := by
  refine ⟨fun hnone => ?_, fun hd' hsome => ?_⟩
  · rw [Option.map_eq_none_iff, parseInfo_eq_none_iff, safeRead_congr hkey] at hnone
    exact ⟨_, mem_singleton_self _, hnone⟩
  · obtain ⟨⟨loc', hd₁⟩, hrun, rfl⟩ := Option.map_eq_some_iff.mp hsome
    obtain ⟨-, -, hcap', -, hbytes⟩ := parseInfo_spec hcap hrun
    have hsafe : SafeRead e loc.key loc.val := by
      by_contra hunsafe
      rw [parseInfo_eq_none_iff.mpr hunsafe] at hrun
      cases hrun
    refine ⟨fun r hr => ?_, hcap', fun g hg i hi => ?_⟩
    · rw [mem_singleton.mp hr]
      exact (safeRead_congr hkey).mp hsafe
    · have hmatch : g.key = loc.key ↔ g.key = key :=
        eq_comm.trans ((hkey g.key (key_length g hg)).trans eq_comm)
      rw [hbytes g hg i hi, foldl_cons, foldl_nil, HdField.take]
      simp only [hmatch]
      split_ifs <;> rfl

theorem mem_text_colon (p : DmiPair) : 58 ∈ nl p.text := by
  simp only [nl, DmiPair.text, mem_append, mem_singleton, or_true, true_or]

/-- **The lines of a section.** -/
theorem foldlM_section {e : HdEntry} {lines : List DmiLine} (hlines : ∀ l ∈ lines, l.WellFormed)
    (hclean : ∀ l ∈ lines, 10 ∉ l.text) (hfits : ∀ l ∈ lines, l.text.length ≤ 254) (loc : HdLocals) (hd : HdInfo)
    (hval : celRightTrim loc.val = loc.val) (hcap : NoCapital hd) :
    HdStores (readsFrom e loc.val lines) hd
        (((lines.map fun l => nl l.text).foldlM hdStep ⟨some (e, loc), hd⟩).map HdReader.hd) ∧
      ∀ st, (lines.map fun l => nl l.text).foldlM hdStep ⟨some (e, loc), hd⟩ = some st →
        ∃ loc', st.reading = some (e, loc') := by
  induction lines generalizing loc hd with
  | nil =>
    refine ⟨HdStores.nil hcap, fun st hst => ⟨loc, ?_⟩⟩
    rw [← Option.some.inj hst]
  | cons l lines ih =>
    have hrest := fun (loc : HdLocals) (hd : HdInfo) => ih (fun l' hl' => hlines l' (mem_cons_of_mem l hl'))
      (fun l' hl' => hclean l' (mem_cons_of_mem l hl')) (fun l' hl' => hfits l' (mem_cons_of_mem l hl')) loc hd
    have hwell := hlines l mem_cons_self
    rw [map_cons, foldlM_cons]
    cases l with
    | plain t =>
      obtain ⟨hne, hcolon⟩ := hwell
      have hlong : ¬ (nl t).length < 2 := by
        have := length_pos_iff.mpr hne
        rw [length_nl]
        omega
      have hnone : 58 ∉ nl t := fun hmem => (mem_append.mp hmem).elim hcolon (by decide)
      have hstep : hdStep ⟨some (e, loc), hd⟩ (nl (DmiLine.plain t).text) = some ⟨some (e, loc), hd⟩ := by
        rw [hdStep]
        exact (if_neg hlong).trans (if_pos hnone)
      rw [hstep]
      exact hrest loc hd hval hcap
    | pair p =>
      have hlong : ¬ (nl p.text).length < 2 := by
        simp only [length_nl, DmiPair.text, length_append, length_singleton]
        omega
      have hread := readPair_text hwell (hclean _ mem_cons_self) (hfits _ mem_cons_self) hval
      have hstep : hdStep ⟨some (e, loc), hd⟩ (nl (DmiLine.pair p).text) =
          (parseInfo e { loc with key := p.readKey, val := p.valueOver loc.val } hd).map fun r =>
            ⟨some (e, r.1), r.2⟩ := by
        rw [hdStep, ← hread]
        exact (if_neg hlong).trans (if_neg fun hnone => hnone (mem_text_colon p))
      have hone := stores_pair e { loc with key := p.readKey, val := p.valueOver loc.val } hcap
        fun s hs => readKey_eq_iff hwell hs
      rw [hstep]
      cases hparse : parseInfo e { loc with key := p.readKey, val := p.valueOver loc.val } hd with
      | none =>
        rw [hparse] at hone
        exact ⟨hone.none_append (readsFrom e (p.valueOver loc.val) lines), fun st hst => by cases hst⟩
      | some r =>
        obtain ⟨loc', hd'⟩ := r
        obtain ⟨-, hval', hcap', -⟩ := parseInfo_spec hcap hparse
        rw [hparse] at hone
        have htrim : celRightTrim loc'.val = loc'.val := by
          rw [hval']
          exact celRightTrim_valueOver hval p
        obtain ⟨hstores, hreading⟩ := hrest loc' hd' htrim hcap'
        rw [hval'] at hstores
        exact ⟨hone.append hstores, hreading⟩

theorem headerEntry_nl {t : List UInt8} (hnul : 0 ∉ t) : headerEntry (nl t) =
    if HdEntry.bios.title <+: t then some .bios
    else if HdEntry.system.title <+: t then some .system
    else if HdEntry.board.title <+: t then some .board
    else none := by
  have hbios : strncmpEq (nl t) (lit "BIOS Info") 9 = true ↔ HdEntry.bios.title <+: t :=
    strncmpEq_nl hnul (by decide) (by decide)
  have hsystem : strncmpEq (nl t) (lit "System Info") 11 = true ↔ HdEntry.system.title <+: t :=
    strncmpEq_nl hnul (by decide) (by decide)
  have hboard : strncmpEq (nl t) (lit "Base Board Info") 15 = true ↔ HdEntry.board.title <+: t :=
    strncmpEq_nl hnul (by decide) (by decide)
  unfold headerEntry
  simp only [hbios, hsystem, hboard]

theorem title_apart (e e' : HdEntry) (rest : List UInt8) (hne : e' ≠ e) : ¬ e'.title <+: e.title ++ rest := by
  have htake : ∀ e' e : HdEntry, e' ≠ e → e'.title.take 2 ≠ e.title.take 2 := by
    intro e' e
    cases e' <;> cases e <;> decide
  rintro ⟨s, hs⟩
  have hlong : ∀ e : HdEntry, 2 ≤ e.title.length := by
    intro e
    cases e <;> decide
  have hcut := congrArg (take 2) hs
  rw [take_append_of_le_length (hlong e'), take_append_of_le_length (hlong e)] at hcut
  exact htake e' e hne hcut

theorem headerEntry_title (e : HdEntry) {rest : List UInt8} (hnul : 0 ∉ e.title ++ rest) :
    headerEntry (nl (e.title ++ rest)) = some e := by
  rw [headerEntry_nl hnul]
  cases e with
  | bios => exact if_pos (prefix_append _ _)
  | system => rw [if_neg (title_apart _ _ rest (by decide)), if_pos (prefix_append _ _)]
  | board =>
    rw [if_neg (title_apart _ _ rest (by decide)), if_neg (title_apart _ _ rest (by decide)),
      if_pos (prefix_append _ _)]

theorem line_of_le {t : List UInt8} (hle : t.length ≤ 254) (hclean : 10 ∉ t ∧ 0 ∉ t) : Line 256 t :=
  ⟨by omega, hclean.1, hclean.2⟩

/-- Where all lines fit the buffer, those outside the sections come in one piece each. -/
theorem DmiListing.fits_of_length {listing : DmiListing}
    (h : ∀ t ∈ listing.items.flatMap DmiItem.texts, t.length ≤ 254) : listing.Fits := by
  intro item hitem
  cases item with
  | other t =>
    have hmem : t ∈ listing.items.flatMap DmiItem.texts := mem_flatMap.mpr ⟨_, hitem, mem_singleton_self t⟩
    have hline := line_of_le (h t hmem) (listing.clean t hmem)
    have htitle : ∀ e : HdEntry, ¬ e.title <+: t := listing.wellFormed _ hitem
    intro buffer hbuffer
    rw [nl, fgetsAll_line hline, mem_singleton] at hbuffer
    rw [hbuffer, ← nl, headerEntry_nl hline.nul, if_neg (htitle .bios), if_neg (htitle .system), if_neg (htitle .board)]
  | part s => exact fun t ht => h t (mem_flatMap.mpr ⟨_, hitem, ht⟩)

theorem foldlM_untitled (hd : HdInfo) {buffers : List (List UInt8)}
    (h : ∀ buffer ∈ buffers, headerEntry buffer = none) :
    buffers.foldlM hdStep ⟨none, hd⟩ = some ⟨none, hd⟩ := by
  induction buffers with
  | nil => rfl
  | cons buffer buffers ih =>
    have hstep : hdStep ⟨none, hd⟩ buffer = some ⟨none, hd⟩ := by
      rw [hdStep, h buffer mem_cons_self]
      rfl
    rw [foldlM_cons, hstep]
    exact ih fun b hb => h b (mem_cons_of_mem buffer hb)

/-- The pieces of an item, as `fgets` delivers them. -/
def DmiItem.buffers (item : DmiItem) : List (List UInt8) := item.texts.flatMap fun t => fgetsAll 256 (nl t)

theorem foldlM_item {item : DmiItem} (hitem : item.WellFormed) (hclean : ∀ t ∈ item.texts, 10 ∉ t ∧ 0 ∉ t)
    (hfits : item.Fits) {hd : HdInfo} (hcap : NoCapital hd) :
    HdStores item.reads hd ((item.buffers.foldlM hdStep ⟨none, hd⟩).map HdReader.hd) ∧
      ∀ st, item.buffers.foldlM hdStep ⟨none, hd⟩ = some st → st.reading = none := by
  cases item with
  | other t =>
    have hbuffers : (DmiItem.other t).buffers = fgetsAll 256 (nl t) := flatMap_singleton ..
    rw [hbuffers, foldlM_untitled hd hfits]
    exact ⟨HdStores.nil hcap, fun st hst => by rw [← Option.some.inj hst]⟩
  | part s =>
    have hbuffers : (DmiItem.part s).buffers = (DmiItem.part s).texts.map nl := by
      rw [DmiItem.buffers, map_eq_flatMap]
      exact flatMap_congr fun t ht => fgetsAll_line (line_of_le (hfits t ht) (hclean t ht))
    rw [hbuffers]
    have hstep : hdStep ⟨none, hd⟩ (nl (s.entry.title ++ s.rest)) = some ⟨some (s.entry, {}), hd⟩ := by
      rw [hdStep, headerEntry_title s.entry (hclean _ mem_cons_self).2]
      rfl
    have hmem : ∀ l ∈ s.lines, l.text ∈ (DmiItem.part s).texts := fun l hl =>
      mem_cons_of_mem _ (mem_append_left _ (mem_map_of_mem hl))
    obtain ⟨hstores, hreading⟩ := foldlM_section hitem (fun l hl => (hclean _ (hmem l hl)).1)
      (fun l hl => hfits _ (hmem l hl)) {} hd rfl hcap
    have hlines : ((s.lines.map DmiLine.text).map nl).foldlM hdStep ⟨some (s.entry, {}), hd⟩ =
        (s.lines.map fun l => nl l.text).foldlM hdStep ⟨some (s.entry, {}), hd⟩ := by
      rw [map_map]
      rfl
    simp only [DmiItem.texts, map_cons, map_append, map_nil, foldlM_cons, foldlM_append, foldlM_nil, hstep,
      Option.bind_eq_bind, Option.bind_some, hlines]
    cases hrun : (s.lines.map fun l => nl l.text).foldlM hdStep ⟨some (s.entry, {}), hd⟩ with
    | none =>
      rw [hrun] at hstores
      exact ⟨hstores, fun st hst => by cases hst⟩
    | some st =>
      obtain ⟨loc', hloc⟩ := hreading st hrun
      have hend : hdStep st (nl []) = some { st with reading := none } := by
        rw [hdStep, hloc]
        exact if_pos (by decide)
      rw [hrun] at hstores
      simp only [Option.bind_some, hend]
      exact ⟨hstores, fun st' hst' => by rw [← Option.some.inj hst']⟩

theorem foldlM_items {items : List DmiItem} (hitems : ∀ i ∈ items, i.WellFormed)
    (hclean : ∀ t ∈ items.flatMap DmiItem.texts, 10 ∉ t ∧ 0 ∉ t) (hfits : ∀ i ∈ items, i.Fits) {hd : HdInfo}
    (hcap : NoCapital hd) :
    HdStores (items.flatMap DmiItem.reads) hd
      (((items.flatMap DmiItem.buffers).foldlM hdStep ⟨none, hd⟩).map HdReader.hd) := by
  induction items generalizing hd with
  | nil => exact HdStores.nil hcap
  | cons item items ih =>
    simp only [flatMap_cons, mem_append] at hclean
    obtain ⟨hstores, hreading⟩ := foldlM_item (hitems item mem_cons_self) (fun t ht => hclean t (Or.inl ht))
      (hfits item mem_cons_self) hcap
    simp only [flatMap_cons, foldlM_append]
    cases hrun : item.buffers.foldlM hdStep ⟨none, hd⟩ with
    | none =>
      rw [hrun] at hstores
      exact hstores.none_append (items.flatMap DmiItem.reads)
    | some st =>
      obtain ⟨reading, hd'⟩ := st
      have hnone : reading = none := hreading _ hrun
      subst hnone
      rw [hrun] at hstores
      have hcap' : NoCapital hd' := (hstores.stored hd' rfl).2.1
      exact hstores.append (ih (fun i hi => hitems i (mem_cons_of_mem item hi)) (fun t ht => hclean t (Or.inr ht))
        (fun i hi => hfits i (mem_cons_of_mem item hi)) hcap')

/-- **The run over the output** stores its reads. -/
theorem foldlM_listing (listing : DmiListing) (hfits : listing.Fits) {hd : HdInfo} (hcap : NoCapital hd) :
    HdStores listing.reads hd ((sarahGetHdInfo (some listing.text) hd).map Prod.snd) := by
  have hbuffers : fgetsAll 256 listing.text = listing.items.flatMap DmiItem.buffers := by
    rw [DmiListing.text, fgetsAll_flatMap, flatMap_assoc]
    rfl
  have hrun := foldlM_items listing.wellFormed listing.clean hfits hcap
  rw [sarahGetHdInfo, hbuffers, Option.map_map]
  exact hrun

end Sarah

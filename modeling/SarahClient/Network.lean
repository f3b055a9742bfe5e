import SarahClient.Link.Refine
import SarahClient.Lib.Stdio
import SarahClient.Disk.Model
import Mathlib.Algebra.Order.Field.Rat

/-!
# Network statistics (`network.c`, and the bandwidth of `app_collector.c`)

A list node points to a structure that the list owns; `none` is `NULL`. Arithmetic on seconds is exact. Allocations
succeed.

* `NetStat`, `sarahGetNetStat`: one snapshot of `/proc/net/dev`; `sarahGetNetStat_lists`;
* `calBandwidthStat`, `bandwidthStatFor`: the two loops over two snapshots; `pairLoop_lists`: they pair by position;
* **`bandwidthRows_iff`**: when each row is about one device;
* **`bandwidthStats_agree_iff`**: when the two calculators agree.
-/

namespace Sarah

open Heap DNode Stdio

/-- `sarah_net_stat_t`. -/
structure NetStat where
  receive : UInt64 := 0
  rPackets : UInt64 := 0
  transmit : UInt64 := 0
  tPackets : UInt64 := 0
  hdAddr : List UInt8 := List.replicate 6 0
  device : List UInt8 := []
  deriving DecidableEq

/-- `sarah_bandwidth_stat_t`. -/
structure Bandwidth where
  round1 : NetStat
  round2 : NetStat
  incoming : ℚ
  outgoing : ℚ
  deriving DecidableEq

instance : Zero (Option NetStat) := ⟨none⟩

instance : Zero (Option Bandwidth) := ⟨none⟩

/-! ## A snapshot -/

/-- `"%47[^:]:%ld %ld %ld %ld %ld %ld %ld %ld %ld %ld"` -/
def netStatFormat : List Directive :=
  .set (· ≠ 58) (some 47) true :: .lit (lit ":") :: (List.replicate 9 [.int, .space]).flatten ++ [.int]

/-- `cel_left_trim`. -/
def celLeftTrim (str : List UInt8) : List UInt8 := str.dropWhile fun c => c = 32 ∨ c = 9 ∨ c = 13

/-- The entry of one line; `hardwareAddr` answers `SIOCGIFHWADDR`. -/
def netStatOf (hardwareAddr : List UInt8 → Option (List UInt8)) (line : List UInt8) : NetStat :=
  let values := sscanf netStatFormat line
  let device := celLeftTrim (textAt values 0 [])
  -- the values 3 to 8 go to `tmp`
  { receive := UInt64.ofNat (u64 (intAt values 1 0))
    rPackets := UInt64.ofNat (u64 (intAt values 2 0))
    transmit := UInt64.ofNat (u64 (intAt values 9 0))
    tPackets := UInt64.ofNat (u64 (intAt values 10 0))
    hdAddr := (hardwareAddr device).getD (List.replicate 6 0)
    device := device }

/-- The loop of `sarah_get_net_stat`. -/
def netStatLoop (malloc : Malloc (DNode (Option NetStat))) (hardwareAddr : List UInt8 → Option (List UInt8)) :
    List (List UInt8) → Link (Option NetStat) → Option (Link (Option NetStat))
  | [], list => some list
  | line :: lines, list =>
    (celLinkAddLast malloc list (some (netStatOf hardwareAddr line))).bind (netStatLoop malloc hardwareAddr lines)

/-- `sarah_get_net_stat`; `file` is the text of `/proc/net/dev`, or `none` when it does not open. -/
def sarahGetNetStat (malloc : Malloc (DNode (Option NetStat))) (hardwareAddr : List UInt8 → Option (List UInt8))
    (file : Option (List UInt8)) (list : Link (Option NetStat)) : Option (ℤ × Link (Option NetStat)) :=
  match file.map (fgetsAll 256) with
  | none => some (1, list)
  | some [] | some [_] => some (2, list)
  | some (_ :: _ :: lines) => (netStatLoop malloc hardwareAddr lines list).map fun list => (0, list)

/-! ## The two calculators -/

/-- The loop that both functions run; `entry` is its body. -/
def pairLoop (malloc : Malloc (DNode (Option Bandwidth))) (entry : NetStat → NetStat → Bandwidth)
    (l₁ l₂ : Link (Option NetStat)) : ℕ → ℕ → ℕ → Link (Option Bandwidth) → Option (Link (Option Bandwidth))
  | 0, _, _, _ => none
  | fuel + 1, node₁, node₂, list =>
    if node₁ = l₁.tail ∨ node₂ = l₂.tail then some list
    else
      (l₁.heap.read node₁).bind fun c₁ => (l₂.heap.read node₂).bind fun c₂ =>
        c₁.value.bind fun n₁ => c₂.value.bind fun n₂ =>
        (celLinkAddLast malloc list (some (entry n₁ n₂))).bind (pairLoop malloc entry l₁ l₂ fuel c₁.next c₂.next)

/-- The loop from the first nodes; the live cells bound its length. -/
def pairStats (malloc : Malloc (DNode (Option Bandwidth))) (entry : NetStat → NetStat → Bandwidth)
    (list : Link (Option Bandwidth)) (l₁ l₂ : Link (Option NetStat)) : Option (Link (Option Bandwidth)) :=
  (nextOf l₁.heap l₁.head).bind fun node₁ => (nextOf l₂.heap l₂.head).bind fun node₂ =>
    pairLoop malloc entry l₁ l₂ (l₁.heap.keys.card + 1) node₁ node₂ list

/-- The entry that `_cal_bandwidth_stat` makes of two snapshots. -/
def calBandwidthEntry (costSecs : ℚ) (n₁ n₂ : NetStat) : Bandwidth where
  round1 := n₁
  round2 := n₂
  incoming := (n₂.receive - n₁.receive).toNat / costSecs
  outgoing := (n₂.transmit - n₁.transmit).toNat / costSecs

/-- `_cal_bandwidth_stat`. -/
def calBandwidthStat (malloc : Malloc (DNode (Option Bandwidth))) (bandwidthList : Link (Option Bandwidth))
    (netStatL1 netStatL2 : Link (Option NetStat)) (costSecs : ℚ) : Option (Link (Option Bandwidth)) :=
  pairStats malloc (calBandwidthEntry costSecs) bandwidthList netStatL1 netStatL2

/-- The entry that `sarah_get_bandwidth_stat_for` makes of them. -/
def bandwidthEntryFor (tvSec : ℚ) (n₁ n₂ : NetStat) : Bandwidth where
  round1 := n₁
  round2 := n₂
  incoming := (n₂.receive - n₁.receive).toNat / tvSec
  -- the counter of the second snapshot on both sides, as in the source
  outgoing := (n₂.transmit - n₂.transmit).toNat / tvSec

/-- `sarah_get_bandwidth_stat_for` between its two snapshots and the clean-up of their lists. -/
def bandwidthStatFor (malloc : Malloc (DNode (Option Bandwidth))) (list : Link (Option Bandwidth))
    (l₁ l₂ : Link (Option NetStat)) (tvSec : ℚ) : Option (Link (Option Bandwidth)) :=
  pairStats malloc (bandwidthEntryFor tvSec) list l₁ l₂

/-! ## Lists of structures -/

/-- The list owns the structures `xs`, in this order. -/
def Link.Lists {A : Type} (link : Link (Option A)) (xs : List A) : Prop :=
  ∃ ns, link.Nodes ns ∧ ns.map Prod.snd = xs.map some

theorem Link.Lists.unique {A : Type} {link : Link (Option A)} {xs ys : List A} (hx : link.Lists xs)
    (hy : link.Lists ys) :
    xs = ys := by
  obtain ⟨ns, hns, hxs⟩ := hx
  obtain ⟨ms, hms, hys⟩ := hy
  obtain ⟨n, hn, hnf⟩ := hns.1.forward
  obtain ⟨m, hm, hmf⟩ := hms.1.forward
  rw [hn] at hm
  cases hm
  have heq := hnf.unique hmf
  rw [hxs, hys] at heq
  exact List.map_injective_iff.mpr (Option.some_injective A) heq

theorem Link.Lists.addLast {A : Type} {malloc : Malloc (DNode (Option A))} (hmalloc : malloc.Total)
    {link : Link (Option A)} {xs : List A} (h : link.Lists xs) (x : A) :
    ∃ l, celLinkAddLast malloc link (some x) = some l ∧ l.Lists (xs ++ [x]) := by
  obtain ⟨ns, hns, hxs⟩ := h
  obtain ⟨o, l, hadd, hl⟩ := addBefore_spec hmalloc (show link.Nodes (ns ++ []) by rwa [List.append_nil]) rfl (some x)
  refine ⟨l, hadd, ns ++ [(o, some x)], hl, ?_⟩
  rw [List.map_append, hxs, List.map_append]
  rfl

theorem Link.Lists.forward {A : Type} {link : Link (Option A)} {xs : List A} (h : link.Lists xs) :
    xs.length ≤ link.heap.keys.card ∧
      ∃ n, nextOf link.heap link.head = some n ∧ Forward link.heap link.tail n (xs.map some) := by
  obtain ⟨ns, hns, hxs⟩ := h
  obtain ⟨n, hn, hf⟩ := hns.1.forward
  have hlen : ns.length = xs.length := by
    have := congrArg List.length hxs
    rwa [List.length_map, List.length_map] at this
  exact ⟨hlen ▸ hns.1.length_le_card, n, hn, hxs ▸ hf⟩

section Loops

variable {malloc : Malloc (DNode (Option NetStat))} (hmalloc : malloc.Total)
include hmalloc

theorem netStatLoop_lists (hardwareAddr : List UInt8 → Option (List UInt8)) : ∀ (lines : List (List UInt8))
    {list : Link (Option NetStat)} {xs : List NetStat}, list.Lists xs →
    ∃ l, netStatLoop malloc hardwareAddr lines list = some l ∧ l.Lists (xs ++ lines.map (netStatOf hardwareAddr))
  | [], list, xs, h => ⟨list, rfl, by rwa [List.map_nil, List.append_nil]⟩
  | line :: lines, list, xs, h => by
    obtain ⟨l, hadd, hl⟩ := h.addLast hmalloc (netStatOf hardwareAddr line)
    obtain ⟨l', hloop, hl'⟩ := netStatLoop_lists hardwareAddr lines hl
    refine ⟨l', by rw [netStatLoop, hadd, Option.bind_some, hloop], ?_⟩
    rw [List.append_assoc] at hl'
    exact hl'

/-- **A snapshot** appends one entry for each line behind the two title lines. -/
theorem sarahGetNetStat_lists (hardwareAddr : List UInt8 → Option (List UInt8)) (file : Option (List UInt8))
    {list : Link (Option NetStat)} {xs : List NetStat} (h : list.Lists xs) :
    ∃ code l, sarahGetNetStat malloc hardwareAddr file list = some (code, l) ∧
      l.Lists (xs ++ ((file.elim [] (fgetsAll 256)).drop 2).map (netStatOf hardwareAddr)) := by
  have hsame : list.Lists (xs ++ []) := by rwa [List.append_nil]
  unfold sarahGetNetStat
  cases file with
  | none => exact ⟨1, list, rfl, hsame⟩
  | some text =>
    simp only [Option.map_some, Option.elim_some]
    match fgetsAll 256 text with
    | [] | [_] => exact ⟨2, list, rfl, hsame⟩
    | _ :: _ :: lines =>
      obtain ⟨l, hloop, hl⟩ := netStatLoop_lists hmalloc hardwareAddr lines h
      exact ⟨0, l, by simp only [hloop, Option.map_some], hl⟩

end Loops

section Pairs

variable {malloc : Malloc (DNode (Option Bandwidth))} (hmalloc : malloc.Total)
include hmalloc

theorem pairLoop_lists (entry : NetStat → NetStat → Bandwidth) {l₁ l₂ : Link (Option NetStat)} :
    ∀ (xs ys : List NetStat) {fuel node₁ node₂ : ℕ} {list : Link (Option Bandwidth)} {bs : List Bandwidth},
    Forward l₁.heap l₁.tail node₁ (xs.map some) → Forward l₂.heap l₂.tail node₂ (ys.map some) → xs.length < fuel →
    list.Lists bs → ∃ l, pairLoop malloc entry l₁ l₂ fuel node₁ node₂ list = some l ∧
      l.Lists (bs ++ List.zipWith entry xs ys)
  | _, _, 0, _, _, _, _, _, _, hf, _ => absurd hf (Nat.not_lt_zero _)
  | [], ys, fuel + 1, node₁, node₂, list, bs, h₁, _, _, hl => by
    cases h₁
    refine ⟨list, if_pos (.inl rfl), ?_⟩
    rwa [List.zipWith_nil_left, List.append_nil]
  | x :: xs, [], fuel + 1, node₁, node₂, list, bs, _, h₂, _, hl => by
    cases h₂
    refine ⟨list, if_pos (.inr rfl), ?_⟩
    rwa [List.zipWith_nil_right, List.append_nil]
  | x :: xs, y :: ys, fuel + 1, node₁, node₂, list, bs, h₁, h₂, hf, hl => by
    rw [List.map_cons] at h₁ h₂
    obtain ⟨hne₁, c₁, hc₁, hx, hrest₁⟩ := h₁.exists_cell
    obtain ⟨hne₂, c₂, hc₂, hy, hrest₂⟩ := h₂.exists_cell
    obtain ⟨l, hadd, hl'⟩ := hl.addLast hmalloc (entry x y)
    obtain ⟨l', hloop, hl''⟩ := pairLoop_lists entry xs ys hrest₁ hrest₂ (Nat.lt_of_succ_lt_succ hf) hl'
    refine ⟨l', ?_, ?_⟩
    · rw [pairLoop, if_neg (not_or.mpr ⟨hne₁, hne₂⟩), hc₁, Option.bind_some, hc₂, Option.bind_some, hx,
        Option.bind_some, hy, Option.bind_some, hadd, Option.bind_some, hloop]
    · rw [List.append_assoc] at hl''
      exact hl''

theorem pairStats_lists (entry : NetStat → NetStat → Bandwidth) {l₁ l₂ : Link (Option NetStat)} {xs ys : List NetStat}
    {list : Link (Option Bandwidth)} {bs : List Bandwidth} (h₁ : l₁.Lists xs) (h₂ : l₂.Lists ys) (hb : list.Lists bs) :
    ∃ l, pairStats malloc entry list l₁ l₂ = some l ∧ l.Lists (bs ++ List.zipWith entry xs ys) := by
  obtain ⟨hlen, node₁, hnext₁, hf₁⟩ := h₁.forward
  obtain ⟨-, node₂, hnext₂, hf₂⟩ := h₂.forward
  obtain ⟨l, hloop, hl⟩ := pairLoop_lists hmalloc entry xs ys hf₁ hf₂ (Nat.lt_succ_of_le hlen) hb
  exact ⟨l, by rw [pairStats, hnext₁, Option.bind_some, hnext₂, Option.bind_some, hloop], hl⟩

end Pairs

/-- The run ends with the entries `es` behind the entries `bs`. -/
def Appends (run : Option (Link (Option Bandwidth))) (bs es : List Bandwidth) : Prop :=
  ∃ l, run = some l ∧ l.Lists (bs ++ es)

theorem appends_pairStats_iff {malloc : Malloc (DNode (Option Bandwidth))} (hmalloc : malloc.Total)
    (entry : NetStat → NetStat → Bandwidth) {l₁ l₂ : Link (Option NetStat)} {xs ys : List NetStat}
    {list : Link (Option Bandwidth)} {bs : List Bandwidth} (h₁ : l₁.Lists xs) (h₂ : l₂.Lists ys) (hb : list.Lists bs)
    (es : List Bandwidth) : Appends (pairStats malloc entry list l₁ l₂) bs es ↔ es = List.zipWith entry xs ys := by
  obtain ⟨l, hrun, hl⟩ := pairStats_lists hmalloc entry h₁ h₂ hb
  constructor
  · rintro ⟨l', hrun', hl'⟩
    rw [hrun] at hrun'
    cases hrun'
    exact List.append_cancel_left (hl'.unique hl)
  · rintro rfl
    exact ⟨l, hrun, hl⟩

/-! ## Rows about one device -/

section Lockstep

variable {D : Type}

/-- The pairs of two lists in lockstep are pairs of equals only where the one list starts the other. -/
theorem zip_fst_eq_snd_iff {a b : List D} : (∀ p ∈ a.zip b, p.1 = p.2) ↔ a <+: b ∨ b <+: a := by
  induction a generalizing b with
  | nil => exact iff_of_true (fun p hp => by cases hp) (.inl (List.nil_prefix))
  | cons x a ih =>
    cases b with
    | nil => exact iff_of_true (fun p hp => by cases hp) (.inr (List.nil_prefix))
    | cons y b =>
      rw [List.zip_cons_cons, List.forall_mem_cons, ih, List.cons_prefix_cons, List.cons_prefix_cons, eq_comm (a := y)]
      tauto

/-- Each common element has exactly one pair, and every pair is one of equals, only where the shorter list starts the
other one and repeats nothing. -/
theorem lockstep_iff [BEq D] [LawfulBEq D] {a b : List D} :
    ((∀ p ∈ a.zip b, p.1 = p.2) ∧ ∀ d, d ∈ a → d ∈ b → ((a.zip b).map Prod.fst).count d = 1) ↔
      (a <+: b ∧ a.Nodup) ∨ (b <+: a ∧ b.Nodup) := by
  have hleft : a <+: b → (a.zip b).map Prod.fst = a := fun h => List.map_fst_zip h.length_le
  have hright : b <+: a → (a.zip b).map Prod.fst = b := by
    rintro ⟨t, rfl⟩
    have hzip := @List.zip_append D D b t b [] rfl
    rw [List.append_nil, List.zip_nil_right, List.append_nil] at hzip
    rw [hzip, List.map_fst_zip le_rfl]
  rw [zip_fst_eq_snd_iff]
  constructor
  · rintro ⟨h | h, hcount⟩
    · rw [hleft h] at hcount
      exact .inl ⟨h, List.nodup_iff_count_eq_one.mpr fun d hd => hcount d hd (h.subset hd)⟩
    · rw [hright h] at hcount
      exact .inr ⟨h, List.nodup_iff_count_eq_one.mpr fun d hd => hcount d (h.subset hd) hd⟩
  · rintro (⟨h, hnd⟩ | ⟨h, hnd⟩)
    · rw [hleft h]
      exact ⟨.inl h, fun d hd _ => List.nodup_iff_count_eq_one.mp hnd d hd⟩
    · rw [hright h]
      exact ⟨.inr h, fun d _ hd => List.nodup_iff_count_eq_one.mp hnd d hd⟩

end Lockstep

/-- **The property of the rows** for the snapshots `xs` and `ys`. -/
structure PairsDevices (xs ys : List NetStat) (es : List Bandwidth) : Prop where
  same : ∀ e ∈ es, e.round1.device = e.round2.device
  once : ∀ d, d ∈ xs.map NetStat.device → d ∈ ys.map NetStat.device → (es.map fun e => e.round1.device).count d = 1

theorem zip_devices (costSecs : ℚ) (xs ys : List NetStat) :
    (xs.map NetStat.device).zip (ys.map NetStat.device) =
      (List.zipWith (calBandwidthEntry costSecs) xs ys).map fun e => (e.round1.device, e.round2.device) := by
  rw [List.zip_map, List.zip, List.map_zipWith, List.map_zipWith]
  rfl

theorem pairsDevices_iff (costSecs : ℚ) (xs ys : List NetStat) :
    PairsDevices xs ys (List.zipWith (calBandwidthEntry costSecs) xs ys) ↔
      (xs.map NetStat.device <+: ys.map NetStat.device ∧ (xs.map NetStat.device).Nodup) ∨
        (ys.map NetStat.device <+: xs.map NetStat.device ∧ (ys.map NetStat.device).Nodup) := by
  rw [← lockstep_iff, zip_devices costSecs, List.map_map]
  constructor
  · rintro ⟨hsame, honce⟩
    refine ⟨fun p hp => ?_, honce⟩
    obtain ⟨e, he, rfl⟩ := List.mem_map.mp hp
    exact hsame e he
  · rintro ⟨hsame, honce⟩
    exact ⟨fun e he => hsame _ (List.mem_map_of_mem he), honce⟩

/-! ## The two formulas -/

theorem zipWith_eq_iff {A B C : Type} {f g : A → B → C} : ∀ {xs : List A} {ys : List B},
    List.zipWith f xs ys = List.zipWith g xs ys ↔ ∀ p ∈ xs.zip ys, f p.1 p.2 = g p.1 p.2
  | [], _ => iff_of_true rfl fun p hp => by cases hp
  | _ :: _, [] => iff_of_true rfl fun p hp => by cases hp
  | x :: xs, y :: ys => by
    rw [List.zipWith_cons_cons, List.zipWith_cons_cons, List.cons.injEq, zipWith_eq_iff, List.zip_cons_cons,
      List.forall_mem_cons]

theorem bandwidthEntryFor_eq_iff {secs : ℚ} (hsecs : 0 < secs) (n₁ n₂ : NetStat) :
    bandwidthEntryFor secs n₁ n₂ = calBandwidthEntry secs n₁ n₂ ↔ n₁.transmit = n₂.transmit := by
  have hne : secs ≠ 0 := hsecs.ne'
  have hout : bandwidthEntryFor secs n₁ n₂ = calBandwidthEntry secs n₁ n₂ ↔
      ((n₂.transmit - n₂.transmit).toNat : ℚ) / secs = ((n₂.transmit - n₁.transmit).toNat : ℚ) / secs := by
    constructor
    · exact fun h => congrArg Bandwidth.outgoing h
    · intro h
      simp only [bandwidthEntryFor, calBandwidthEntry, h]
  rw [hout, div_left_inj' hne, Nat.cast_inj, UInt64.toNat_inj, UInt64.sub_right_inj, eq_comm]

section Claims

variable {malloc : Malloc (DNode (Option Bandwidth))} {l₁ l₂ : Link (Option NetStat)} {xs ys : List NetStat}
  {list : Link (Option Bandwidth)} {bs : List Bandwidth}

/-- **Rows of one device.** `_cal_bandwidth_stat` makes one row for each common device, and no other, exactly when the
devices of the one snapshot start the devices of the other and none of them repeats. -/
theorem bandwidthRows_iff (hmalloc : malloc.Total) (h₁ : l₁.Lists xs) (h₂ : l₂.Lists ys) (hb : list.Lists bs)
    (costSecs : ℚ) :
    (∃ es, Appends (calBandwidthStat malloc list l₁ l₂ costSecs) bs es ∧ PairsDevices xs ys es) ↔
      (xs.map NetStat.device <+: ys.map NetStat.device ∧ (xs.map NetStat.device).Nodup) ∨
        (ys.map NetStat.device <+: xs.map NetStat.device ∧ (ys.map NetStat.device).Nodup) := by
  rw [← pairsDevices_iff costSecs]
  constructor
  · rintro ⟨es, happ, hrows⟩
    rw [calBandwidthStat, appends_pairStats_iff hmalloc _ h₁ h₂ hb] at happ
    rw [← happ]
    exact hrows
  · exact fun hrows => ⟨_, (appends_pairStats_iff hmalloc _ h₁ h₂ hb _).mpr rfl, hrows⟩

/-- **The two calculators** append the same entries exactly when no pair of entries has sent anything in between. -/
theorem bandwidthStats_agree_iff (hmalloc : malloc.Total) (h₁ : l₁.Lists xs) (h₂ : l₂.Lists ys) (hb : list.Lists bs)
    {secs : ℚ} (hsecs : 0 < secs) :
    (∃ es, Appends (bandwidthStatFor malloc list l₁ l₂ secs) bs es ∧
      Appends (calBandwidthStat malloc list l₁ l₂ secs) bs es) ↔
      ∀ p ∈ xs.zip ys, p.1.transmit = p.2.transmit := by
  have hboth : (∃ es, Appends (bandwidthStatFor malloc list l₁ l₂ secs) bs es ∧
      Appends (calBandwidthStat malloc list l₁ l₂ secs) bs es) ↔
      List.zipWith (bandwidthEntryFor secs) xs ys = List.zipWith (calBandwidthEntry secs) xs ys := by
    simp only [bandwidthStatFor, calBandwidthStat, appends_pairStats_iff hmalloc _ h₁ h₂ hb, exists_eq_left]
  rw [hboth, zipWith_eq_iff]
  refine forall_congr' fun p => forall_congr' fun _ => ?_
  exact bandwidthEntryFor_eq_iff hsecs p.1 p.2

end Claims

/-! ## Instances -/

theorem exists_lists {A : Type} [Zero (Option A)] (xs : List A) : ∃ link : Link (Option A), link.Lists xs := by
  induction xs using List.reverseRecOn with
  | nil =>
    obtain ⟨l, -, hl⟩ := celLinkInit_spec (V := Option A) Malloc.bump_total ⟨∅, 0, 0, 0⟩
    exact ⟨l, [], hl, rfl⟩
  | append_singleton xs x ih =>
    obtain ⟨l, hl⟩ := ih
    obtain ⟨l', -, hl'⟩ := hl.addLast Malloc.bump_total x
    exact ⟨l', hl'⟩

/-- The loopback device. -/
def loStat : NetStat := { device := lit "lo" }

/-- A network card that has sent `transmit` bytes. -/
def ethStat (transmit : UInt64) : NetStat := { transmit := transmit, device := lit "eth0" }

/-- A card that appears behind the others gets no row yet. -/
theorem bandwidthRows_iff_plugged : ∃ (l₁ l₂ : Link (Option NetStat)) (list : Link (Option Bandwidth))
    (es : List Bandwidth),
    l₁.Lists [loStat] ∧ l₂.Lists [loStat, ethStat 0] ∧ Appends (calBandwidthStat Malloc.bump list l₁ l₂ 1) [] es ∧
      PairsDevices [loStat] [loStat, ethStat 0] es := by
  obtain ⟨l₁, h₁⟩ := exists_lists [loStat]
  obtain ⟨l₂, h₂⟩ := exists_lists [loStat, ethStat 0]
  obtain ⟨list, hb⟩ := exists_lists ([] : List Bandwidth)
  obtain ⟨es, happ, hrows⟩ := (bandwidthRows_iff Malloc.bump_total h₁ h₂ hb 1).mpr (.inl ⟨by decide, by decide⟩)
  exact ⟨l₁, l₂, list, es, h₁, h₂, happ, hrows⟩

/-- A card that appears in front of the others: the row of `lo` has the card as its second round. -/
theorem not_bandwidthRows : ¬ ∀ (l₁ l₂ : Link (Option NetStat)) (xs ys : List NetStat) (list : Link (Option Bandwidth)),
    l₁.Lists xs → l₂.Lists ys → list.Lists [] → ∀ costSecs : ℚ,
      ∃ es, Appends (calBandwidthStat Malloc.bump list l₁ l₂ costSecs) [] es ∧ PairsDevices xs ys es := by
  intro hall
  obtain ⟨l₁, h₁⟩ := exists_lists [loStat]
  obtain ⟨l₂, h₂⟩ := exists_lists [ethStat 0, loStat]
  obtain ⟨list, hb⟩ := exists_lists ([] : List Bandwidth)
  obtain ⟨es, happ, hrows⟩ := hall l₁ l₂ _ _ list h₁ h₂ hb 1
  rw [calBandwidthStat, appends_pairStats_iff Malloc.bump_total _ h₁ h₂ hb] at happ
  rw [happ, pairsDevices_iff] at hrows
  revert hrows
  decide

/-- Two silent seconds. -/
theorem bandwidthStats_agree_iff_silent : ∃ (l₁ l₂ : Link (Option NetStat)) (list : Link (Option Bandwidth))
    (es : List Bandwidth), l₁.Lists [ethStat 5] ∧ l₂.Lists [ethStat 5] ∧
      Appends (bandwidthStatFor Malloc.bump list l₁ l₂ 2) [] es ∧
        Appends (calBandwidthStat Malloc.bump list l₁ l₂ 2) [] es := by
  obtain ⟨l, h⟩ := exists_lists [ethStat 5]
  obtain ⟨list, hb⟩ := exists_lists ([] : List Bandwidth)
  obtain ⟨es, hfor, hcal⟩ := (bandwidthStats_agree_iff Malloc.bump_total h h hb (show (0 : ℚ) < 2 by decide)).mpr
    (by decide)
  exact ⟨l, l, list, es, h, h, hfor, hcal⟩

/-- One byte in one second: the one function reports a rate of 1, the other of 0. -/
theorem not_bandwidthStats_agree : ¬ ∀ (l₁ l₂ : Link (Option NetStat)) (xs ys : List NetStat)
    (list : Link (Option Bandwidth)), l₁.Lists xs → l₂.Lists ys → list.Lists [] → ∀ secs : ℚ, 0 < secs →
      ∃ es, Appends (bandwidthStatFor Malloc.bump list l₁ l₂ secs) [] es ∧
        Appends (calBandwidthStat Malloc.bump list l₁ l₂ secs) [] es := by
  intro hall
  obtain ⟨l₁, h₁⟩ := exists_lists [ethStat 5]
  obtain ⟨l₂, h₂⟩ := exists_lists [ethStat 6]
  obtain ⟨list, hb⟩ := exists_lists ([] : List Bandwidth)
  obtain ⟨es, hfor, hcal⟩ := hall l₁ l₂ _ _ list h₁ h₂ hb 1 (by decide)
  rw [bandwidthStatFor, appends_pairStats_iff Malloc.bump_total _ h₁ h₂ hb] at hfor
  rw [calBandwidthStat, appends_pairStats_iff Malloc.bump_total _ h₁ h₂ hb] at hcal
  rw [hfor, zipWith_eq_iff] at hcal
  have hsame := (bandwidthEntryFor_eq_iff (by decide) _ _).mp (hcal (ethStat 5, ethStat 6) List.mem_cons_self)
  revert hsame
  decide

end Sarah

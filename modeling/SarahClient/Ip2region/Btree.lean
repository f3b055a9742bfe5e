import Mathlib.Data.List.GetD
import Mathlib.Data.List.TakeWhile
import SarahClient.Ip2region.Database

/-!
# The b-tree search

* `HeadedBy.partition_bounds`: the two samples that the header search stops between enclose the range with the address;
* `HeadedBy.searchPartition_answers`: the search of a partition finds the range that it encloses;
* **`btree_agrees`**: where the offsets of the index are `int`s, the b-tree search answers as the binary search does.
-/

namespace Sarah

open Bisect Machine

variable {db : List UInt8} {ks : List ℕ}

/-! ## The samples -/

/-- The block of the sample `j`. -/
def sampled (ks : List ℕ) (j : ℕ) : ℕ := ks.getD j 0

/-- The address of the sample `j`. -/
def sampleSip (db : List UInt8) (ks : List ℕ) (j : ℕ) : ℕ := (indexBlock db (sampled ks j)).sip

theorem sampled_eq {j : ℕ} (hj : j < ks.length) : sampled ks j = ks[j] := List.getD_eq_getElem ks 0 hj

theorem sampleAt_map {A : Type} (f : A → ℕ) (xs : List A) (d : A) {j : ℕ} (hj : j < xs.length) :
    sampleAt (xs.map f) j = some (f (xs.getD j d)) := by
  rw [sampleAt, if_pos (Int.natCast_nonneg j), Int.toNat_natCast, List.getElem?_map, List.getElem?_eq_getElem hj,
    Option.map_some, List.getD_eq_getElem xs d hj]

namespace HeadedBy

variable (hhead : HeadedBy db ks)
include hhead

theorem sampled_lt {a b : ℕ} (hab : a < b) (hb : b < ks.length) : sampled ks a < sampled ks b := by
  rw [sampled_eq (hab.trans hb), sampled_eq hb]
  exact List.pairwise_iff_getElem.mp hhead.sorted a b (hab.trans hb) hb hab

theorem sampled_zero : sampled ks 0 = 0 := by
  have htwo := hhead.two
  have hfirst := hhead.first
  rw [List.head?_eq_getElem?, List.getElem?_eq_getElem (by omega), Option.some.injEq] at hfirst
  rw [sampled_eq (by omega), hfirst]

theorem sampled_last : sampled ks (ks.length - 1) = blockCount db - 1 := by
  have htwo := hhead.two
  have hlast := hhead.last
  rw [List.getLast?_eq_getElem?, List.getElem?_eq_getElem (by omega), Option.some.injEq] at hlast
  rw [sampled_eq (by omega), hlast]

theorem sampled_lt_count (hdb : WellFormed db) {j : ℕ} (hj : j < ks.length) : sampled ks j < blockCount db := by
  have hlast := hhead.sampled_last
  have hcount := hdb.count.1
  obtain heq | hlt := Nat.eq_or_lt_of_le (show j ≤ ks.length - 1 by omega)
  · rw [heq, hlast]
    omega
  · have := hhead.sampled_lt hlt (by omega)
    omega

theorem partition_fits {j : ℕ} (hj : j + 1 < ks.length) :
    (sampled ks (j + 1) - sampled ks j) * indexBlockLength + indexBlockLength ≤ totalHeaderLength := by
  rw [sampled_eq hj, sampled_eq (by omega)]
  exact List.isChain_iff_getElem.mp hhead.fits j hj

theorem sampleSip_lt (hdb : WellFormed db) {a b : ℕ} (hab : a < b) (hb : b < ks.length) :
    sampleSip db ks a < sampleSip db ks b := by
  have hlt := hhead.sampled_lt hab hb
  have hcount := hhead.sampled_lt_count hdb hb
  exact (hdb.range _ (hlt.trans hcount)).trans_lt (hdb.sorted _ _ hlt hcount)

theorem pointer_ne_zero {j : ℕ} (hj : j < ks.length) : firstIndex db + sampled ks j * indexBlockLength ≠ 0 := by
  have hmem : sampleOf db ks[j] ∈ readHeader ((db.drop 8).take totalHeaderLength) := by
    have hsamples := hhead.header
    unfold samples at hsamples
    rw [hsamples]
    exact List.mem_map_of_mem (List.getElem_mem hj)
  have hne := List.mem_takeWhile_imp hmem
  rw [sampled_eq hj]
  exact of_decide_eq_true hne

end HeadedBy

/-! ## The header search -/

/-- The arrays of the object hold the samples, with pointers that are `int`s. -/
structure Sampled (db : List UInt8) (ks : List ℕ) (o : Ip2region) : Prop where
  len : o.headerLen = ks.length
  sip : ∀ j < ks.length, sampleAt o.headerSip j = some (sampleSip db ks j)
  ptr : ∀ j < ks.length, ∃ p : ℕ, sampleAt o.headerPtr j = some p ∧
    i32 p = ((firstIndex db + sampled ks j * indexBlockLength : ℕ) : ℤ)

/-- The samples `j` and `j + 1` enclose the address, as far as the index goes. -/
def Encloses (db : List UInt8) (ks : List ℕ) (ip j : ℕ) : Prop :=
  j + 1 < ks.length ∧ (j = 0 ∨ sampleSip db ks j < ip) ∧ (j + 2 = ks.length ∨ ip ≤ sampleSip db ks (j + 1))

/-- The answer of the header search between the samples `j` and `j + 1`. -/
def partitionPtrs (db : List UInt8) (ks : List ℕ) (j : ℕ) : ℤ × ℤ :=
  (((firstIndex db + sampled ks j * indexBlockLength : ℕ) : ℤ),
    ((firstIndex db + sampled ks (j + 1) * indexBlockLength : ℕ) : ℤ))

theorem Sampled.partition {o : Ip2region} (h : Sampled db ks o) {j : ℕ} (hj : j + 1 < ks.length) :
    o.partition j = some (.stop (partitionPtrs db ks j), ()) := by
  obtain ⟨p, hp, hpi⟩ := h.ptr j (by omega)
  obtain ⟨q, hq, hqi⟩ := h.ptr (j + 1) hj
  rw [Ip2region.partition, hp, Option.bind_some, ← Nat.cast_succ, hq, Option.map_some, hpi, hqi]
  rfl

theorem HeadedBy.probe_cases (hhead : HeadedBy db ks) (hdb : WellFormed db) {o : Ip2region} (h : Sampled db ks o)
    (ip : ℕ) {m : ℕ} (hm : m < ks.length) :
    (∃ j, headerProbe o ip m () = some (.stop (partitionPtrs db ks j), ()) ∧ Encloses db ks ip j) ∨
    (headerProbe o ip m () = some (.left, ()) ∧ 0 < m ∧ ip ≤ sampleSip db ks (m - 1)) ∨
    (headerProbe o ip m () = some (.right, ()) ∧ m + 1 < ks.length ∧ sampleSip db ks (m + 1) < ip) := by
  have htwo := hhead.two
  have hlen := h.len
  have hnext : (m : ℤ) + 1 = ((m + 1 : ℕ) : ℤ) := (Nat.cast_succ m).symm
  unfold headerProbe
  rw [h.sip m hm, Option.bind_some]
  obtain hlt | heq | hgt := lt_trichotomy ip (sampleSip db ks m)
  · rw [if_neg hlt.ne, if_pos hlt]
    by_cases hzero : m = 0
    · subst hzero
      have hone := hhead.sampleSip_lt hdb Nat.one_pos htwo
      rw [if_pos (show ((0 : ℕ) : ℤ) = 0 from rfl), h.partition (by omega)]
      exact .inl ⟨0, rfl, by omega, .inl rfl, .inr (hlt.trans hone).le⟩
    · have hprev : (m : ℤ) - 1 = ((m - 1 : ℕ) : ℤ) := by omega
      rw [if_neg (by omega), hprev, h.sip (m - 1) (by omega), Option.bind_some]
      by_cases hbetween : sampleSip db ks (m - 1) < ip
      · rw [if_pos hbetween, h.partition (by omega)]
        refine .inl ⟨m - 1, rfl, by omega, .inr hbetween, .inr ?_⟩
        rw [show m - 1 + 1 = m by omega]
        exact hlt.le
      · rw [if_neg hbetween]
        exact .inr (.inl ⟨rfl, by omega, not_lt.mp hbetween⟩)
  · -- a sample: the partition that ends there, or the first one
    rw [if_pos heq]
    by_cases hzero : m = 0
    · subst hzero
      have hone := hhead.sampleSip_lt hdb Nat.one_pos htwo
      rw [if_neg (show ¬ (0 : ℤ) < ((0 : ℕ) : ℤ) from lt_irrefl 0), h.partition (by omega)]
      exact .inl ⟨0, rfl, by omega, .inl rfl, .inr (heq.trans_lt hone).le⟩
    · have hprev : (m : ℤ) - 1 = ((m - 1 : ℕ) : ℤ) := by omega
      have hbefore := hhead.sampleSip_lt hdb (show m - 1 < m by omega) hm
      rw [if_pos (by omega), hprev, h.partition (by omega)]
      refine .inl ⟨m - 1, rfl, by omega, .inr (hbefore.trans_eq heq.symm), .inr ?_⟩
      rw [show m - 1 + 1 = m by omega]
      exact heq.le
  · rw [if_neg hgt.ne', if_neg hgt.not_gt]
    by_cases hlast : m + 1 = ks.length
    · have hprev : (m : ℤ) - 1 = ((m - 1 : ℕ) : ℤ) := by omega
      have hbefore := hhead.sampleSip_lt hdb (show m - 1 < m by omega) hm
      rw [if_pos (by omega), hprev, h.partition (by omega)]
      exact .inl ⟨m - 1, rfl, by omega, .inr (hbefore.trans hgt), .inl (by omega)⟩
    · rw [if_neg (by omega), hnext, h.sip (m + 1) (by omega), Option.bind_some]
      by_cases hbetween : ip ≤ sampleSip db ks (m + 1)
      · rw [if_pos hbetween, h.partition (by omega)]
        exact .inl ⟨m, rfl, by omega, .inr hgt, .inr hbetween⟩
      · rw [if_neg hbetween]
        exact .inr (.inr ⟨rfl, by omega, not_le.mp hbetween⟩)

/-- **The header search** ends between two samples that enclose the address. -/
theorem HeadedBy.bisect_headerProbe (hhead : HeadedBy db ks) (hdb : WellFormed db) {o : Ip2region} (h : Sampled db ks o)
    (ip : ℕ) : ∃ j, bisect (headerProbe o ip) (0, 0) 0 o.headerLen () = some (partitionPtrs db ks j, ()) ∧
      Encloses db ks ip j := by
  have htwo := hhead.two
  have hlen := h.len
  refine bisect_rule (I := fun l h _ => 0 ≤ l ∧ (l = 0 ∨ ∃ a < ks.length, l = (a : ℕ) ∧ sampleSip db ks a < ip) ∧
      (h = ks.length ∨ ∃ b < ks.length, h = (b : ℕ) ∧ ip ≤ sampleSip db ks b))
    (Q := fun r => ∃ j, r = some (partitionPtrs db ks j, ()) ∧ Encloses db ks ip j) ?_ ?_
    ⟨le_rfl, .inl rfl, .inl (by rw [hlen])⟩
  · rintro l h' s hlh ⟨hl, hlow, hhigh⟩
    obtain ⟨m, hm⟩ : ∃ m : ℕ, (l + h') / 2 = m := ⟨((l + h') / 2).toNat, by omega⟩
    have hml : m < ks.length := by
      obtain rfl | ⟨a, ha, rfl, -⟩ := hlow <;> obtain rfl | ⟨b, hb, rfl, -⟩ := hhigh <;> omega
    rw [hm]
    obtain ⟨j, hp, hin⟩ | ⟨hp, hpos, hle⟩ | ⟨hp, hlt, hgt⟩ := hhead.probe_cases hdb h ip hml
    · rw [hp]
      exact ⟨j, rfl, hin⟩
    · rw [hp]
      exact ⟨hl, hlow, .inr ⟨m - 1, by omega, by omega, hle⟩⟩
    · rw [hp]
      exact ⟨by omega, .inr ⟨m + 1, hlt, by omega, hgt⟩, hhigh⟩
  · rintro l h' s hlh ⟨hl, hlow, hhigh⟩
    obtain rfl | ⟨a, ha, rfl, hsa⟩ := hlow
    · obtain rfl | ⟨b, hb, rfl, -⟩ := hhigh <;> omega
    · obtain rfl | ⟨b, hb, rfl, hsb⟩ := hhigh
      · omega
      · have := hhead.sampleSip_lt hdb (show b < a by omega) ha
        omega

theorem HeadedBy.partition_bounds (hhead : HeadedBy db ks) (hdb : WellFormed db) {ip j : ℕ} (hin : Encloses db ks ip j)
    {i : ℕ} (hi : i < blockCount db) (hc : (indexBlock db i).Contains ip) :
    sampled ks j ≤ i ∧ i ≤ sampled ks (j + 1) := by
  obtain ⟨hj, hlow, hhigh⟩ := hin
  constructor
  · obtain rfl | hlt := hlow
    · rw [hhead.sampled_zero]
      exact Nat.zero_le i
    · by_contra hbefore
      have hsorted := hdb.sorted i _ (not_le.mp hbefore) (hhead.sampled_lt_count hdb (by omega))
      have hle := hc.2
      unfold sampleSip at hlt
      omega
  · obtain hlast | hle := hhigh
    · have hend := hhead.sampled_last
      rw [← hlast, show j + 2 - 1 = j + 1 by omega] at hend
      omega
    · by_contra hafter
      have hcount := hhead.sampled_lt_count hdb hj
      have hsorted := hdb.sorted _ i (not_le.mp hafter) hi
      have hrange := hdb.range _ hcount
      have hge := hc.1
      unfold sampleSip at hle
      omega

/-! ## The search of a partition -/

theorem partitionProbe_block {k m n : ℕ} (hlen : firstIndex db + k * indexBlockLength + n ≤ db.length)
    (hm : m * indexBlockLength + indexBlockLength ≤ n) (ip : ℕ) :
    partitionProbe ((db.drop (firstIndex db + k * indexBlockLength)).take n) ip m () =
      some ((indexBlock db (k + m)).compare ip, ()) := by
  have hp : (m : ℤ) * (indexBlockLength : ℤ) = ((m * indexBlockLength : ℕ) : ℤ) := by push_cast; rfl
  have hroom : ((db.drop (firstIndex db + k * indexBlockLength)).take n).length = n := by
    rw [List.length_take, List.length_drop]
    omega
  rw [partitionProbe, hp, bufferProbe_of_le (by rw [hroom]; exact hm), readBlock_take_drop hm, indexBlock, Nat.add_mul,
    Nat.add_assoc]

/-- The loop over the blocks `k, ..., k + c` finds the range with the address, if it is one of them. -/
theorem WellFormed.bisect_partitionProbe (hdb : WellFormed db) {k c n : ℕ} (hc : k + c < blockCount db)
    (hn : n = c * indexBlockLength + indexBlockLength) {ip : ℕ}
    (hin : ∀ i < blockCount db, (indexBlock db i).Contains ip → k ≤ i ∧ i ≤ k + c) :
    ∃ dptr, bisect (partitionProbe ((db.drop (firstIndex db + k * indexBlockLength)).take n) ip) 0 0 c () =
      some (dptr, ()) ∧ Finds db ip dptr := by
  have hend := hdb.block_end hc
  refine bisect_rule (I := fun l h _ => 0 ≤ l ∧ h ≤ c ∧
      ∀ i < blockCount db, (indexBlock db i).Contains ip → k + l ≤ i ∧ i ≤ k + h)
    (Q := fun r => ∃ dptr, r = some (dptr, ()) ∧ Finds db ip dptr) ?_ ?_
    ⟨le_rfl, le_rfl, fun i hi hci => by have := hin i hi hci; omega⟩
  · rintro l h s hlh ⟨hl, hh, hwindow⟩
    obtain ⟨m, hm⟩ : ∃ m : ℕ, (l + h) / 2 = m := ⟨((l + h) / 2).toNat, by omega⟩
    have hsteers := hdb.compare_steers ip (show k + m < blockCount db by omega)
    rw [hm, partitionProbe_block (by unfold indexBlockLength at *; omega) (by unfold indexBlockLength at *; omega)]
    cases hmove : (indexBlock db (k + m)).compare ip with
    | left =>
      rw [hmove] at hsteers
      refine ⟨hl, by omega, fun i hi hci => ⟨(hwindow i hi hci).1, ?_⟩⟩
      have := hsteers i hi hci
      omega
    | right =>
      rw [hmove] at hsteers
      refine ⟨by omega, hh, fun i hi hci => ⟨?_, (hwindow i hi hci).2⟩⟩
      have := hsteers i hi hci
      omega
    | stop dptr =>
      rw [hmove] at hsteers
      exact ⟨dptr, rfl, hsteers⟩
  · rintro l h s hlh ⟨hl, hh, hwindow⟩
    refine ⟨0, rfl, fun i hi hci => ?_, fun _ => rfl⟩
    have := hwindow i hi hci
    omega

/-- **A partition that encloses the address** answers the lookup. -/
theorem HeadedBy.searchPartition_answers (hhead : HeadedBy db ks) (hdb : WellFormed db) (hint : lastIndex db < 2 ^ 31)
    {ip j : ℕ} (hin : Encloses db ks ip j) (block : Datablock) (pos : ℕ) :
    ∃ r pos', searchPartition db ip block (partitionPtrs db ks j).1 (partitionPtrs db ks j).2 pos = some (r, pos') ∧
      Answers db ip block r := by
  have hfits := hhead.partition_fits hin.1
  have hlt := hhead.sampled_lt (Nat.lt_succ_self j) hin.1
  have hcount := hhead.sampled_lt_count hdb hin.1
  have hbounds := fun i hi hc => hhead.partition_bounds hdb hin (i := i) hi hc
  have hlast := hdb.lastIndex_eq
  have hend := hdb.block_end hcount
  unfold partitionPtrs
  generalize sampled ks j = k at *
  generalize sampled ks (j + 1) = k' at *
  obtain ⟨c, rfl⟩ : ∃ c, k' = k + c := ⟨k' - k, by omega⟩
  rw [Nat.add_sub_cancel_left] at hfits
  have hlen : i32 (((firstIndex db + (k + c) * indexBlockLength : ℕ) : ℤ) -
      ((firstIndex db + k * indexBlockLength : ℕ) : ℤ)) = ((c * indexBlockLength : ℕ) : ℤ) := by
    rw [i32_of_range] <;> unfold indexBlockLength at * <;> omega
  have hsize : ((((c * indexBlockLength : ℕ) : ℤ) + (indexBlockLength : ℤ)) % 2 ^ 64).toNat =
      c * indexBlockLength + indexBlockLength := by
    unfold indexBlockLength totalHeaderLength at *
    omega
  have hdiv : (((c * indexBlockLength : ℕ) : ℤ)).tdiv (indexBlockLength : ℤ) = c := by
    rw [Nat.cast_mul, Int.mul_tdiv_cancel _ (by decide)]
  have hroom : firstIndex db + k * indexBlockLength + (c * indexBlockLength + indexBlockLength) ≤ db.length := by
    unfold indexBlockLength at *
    omega
  obtain ⟨dptr, hfound, hfinds⟩ := hdb.bisect_partitionProbe hcount rfl hbounds
  obtain ⟨r, pos', hfetch, hanswers⟩ := hdb.fetchData_answers hfinds block
    (firstIndex db + k * indexBlockLength + (c * indexBlockLength + indexBlockLength))
  refine ⟨r, pos', ?_, hanswers⟩
  unfold searchPartition
  dsimp only
  rw [hlen, hsize, hdiv, fseek_of_nonneg (Int.natCast_nonneg _), Int.toNat_natCast, if_neg (by omega),
    fread_of_le (by unfold indexBlockLength; omega) hroom]
  dsimp only
  rw [hfound, Option.bind_some]
  exact hfetch

/-! ## The lookup -/

theorem HeadedBy.loadHeader_spec (hhead : HeadedBy db ks) (hdb : WellFormed db) (hint : lastIndex db < 2 ^ 31)
    {o : Ip2region} (h : Loaded db o) : ∃ o', loadHeader db o = (true, o') ∧ Sampled db ks o' := by
  have hsamples := hhead.header
  have hlast := hdb.lastIndex_eq
  have hholds : ∀ o' : Ip2region, o'.headerLen = (samples db).length → o'.headerSip = (samples db).map Prod.fst →
      o'.headerPtr = (samples db).map Prod.snd → Sampled db ks o' := by
    intro o' hlen hsip hptr
    rw [hsamples] at hlen hsip hptr
    rw [List.length_map] at hlen
    rw [List.map_map] at hsip hptr
    refine ⟨hlen, fun j hj => ?_, fun j hj => ⟨firstIndex db + sampled ks j * indexBlockLength, ?_, ?_⟩⟩
    · rw [hsip, sampleAt_map _ _ 0 hj]
      rfl
    · rw [hptr, sampleAt_map _ _ 0 hj]
      rfl
    · have hcount := hhead.sampled_lt_count hdb hj
      rw [i32_of_range] <;> unfold indexBlockLength at * <;> omega
  unfold loadHeader
  by_cases hzero : o.headerLen = 0
  · rw [if_pos hzero, fread_of_le totalHeaderLength_pos hhead.room]
    dsimp only
    rw [show readHeader ((db.drop 8).take totalHeaderLength) = samples db from rfl]
    generalize hheader : samples db = header at *
    exact ⟨_, rfl, hholds _ rfl rfl rfl⟩
  · rw [if_neg hzero]
    obtain ⟨hlen, hsip, hptr⟩ := h.header.resolve_left hzero
    exact ⟨o, rfl, hholds o hlen hsip hptr⟩

theorem HeadedBy.btreeSearch_answers (hhead : HeadedBy db ks) (hdb : WellFormed db) (hint : lastIndex db < 2 ^ 31)
    {o : Ip2region} (h : Loaded db o) (ip : ℕ) (block : Datablock) :
    ∃ r o', btreeSearch db ip block o = some (r, o') ∧ Answers db ip block r := by
  obtain ⟨o₁, hload, hsampled⟩ := hhead.loadHeader_spec hdb hint h
  obtain ⟨j, hfound, hin⟩ := hhead.bisect_headerProbe hdb hsampled ip
  obtain ⟨r, pos, hsearch, hanswers⟩ := hhead.searchPartition_answers hdb hint hin block o₁.dbHandler
  have hne : (partitionPtrs db ks j).1 ≠ 0 :=
    Int.natCast_ne_zero.mpr (hhead.pointer_ne_zero ((Nat.lt_succ_self j).trans hin.1))
  unfold btreeSearch
  rw [hload]
  dsimp only
  rw [hfound, Option.bind_some, if_neg hne, hsearch, Option.map_some]
  exact ⟨r, _, rfl, hanswers⟩

theorem Answers.unique {ip : ℕ} {block : Datablock} {r r' : ℕ × Datablock} (h : Answers db ip block r)
    (h' : Answers db ip block r') : r = r' := by
  by_cases hex : ∃ i, i < blockCount db ∧ (indexBlock db i).Contains ip
  · obtain ⟨i, hi, hc⟩ := hex
    rw [h.1 i hi hc, h'.1 i hi hc]
  · have hnone : ∀ i < blockCount db, ¬ (indexBlock db i).Contains ip := fun i hi hc => hex ⟨i, hi, hc⟩
    rw [h.2 hnone, h'.2 hnone]

/-- **Both searches in the file give the data of the range with the address.** -/
theorem btree_agrees (malloc : ℕ → Bool) (hdb : WellFormed db) (hhead : WellHeaded db) (hint : lastIndex db < 2 ^ 31)
    (lookups : List Lookup) (o : Ip2region) (outs : List (ℕ × Datablock))
    (hrun : exec (searchStep malloc db) ip2regionCreate lookups = some (o, outs)) (ip : ℕ) (block : Datablock) :
    ∃ r o₁ o₂, binarySearch db ip block o = some (r, o₁) ∧ btreeSearch db ip block o = some (r, o₂) ∧
      Answers db ip block r := by
  obtain ⟨ks, hhead⟩ := hhead
  have hloaded := loaded_of_run hdb.ne_nil hrun
  obtain ⟨r, o₁, hbinary, hanswers⟩ := hdb.binarySearch_answers hint hloaded ip block
  obtain ⟨r', o₂, hbtree, hanswers'⟩ := hhead.btreeSearch_answers hdb hint hloaded ip block
  rw [hanswers'.unique hanswers] at hbtree
  exact ⟨r, o₁, o₂, hbinary, hbtree, hanswers⟩

/-! ## A database of two ranges -/

/-- The bytes of an `unsigned int`. -/
def putUnsignedInt (n : ℕ) : List UInt8 :=
  [UInt8.ofNat n, UInt8.ofNat (n / 2 ^ 8), UInt8.ofNat (n / 2 ^ 16), UInt8.ofNat (n / 2 ^ 24)]

/-- The samples of the two blocks, the first one at `first`. -/
def twoSamples (first : ℕ) : List UInt8 :=
  putUnsignedInt 0 ++ (putUnsignedInt first ++ (putUnsignedInt 10 ++ (putUnsignedInt (first + 12) ++
    List.replicate 8176 0)))

/-- The ranges 0 to 9 and 10 to 19, with the cities 7 and 8. -/
def twoBlocks : List UInt8 :=
  putUnsignedInt 0 ++ (putUnsignedInt 9 ++ (putUnsignedInt 0x04002008 ++
    (putUnsignedInt 10 ++ (putUnsignedInt 19 ++ (putUnsignedInt 0x0400200c ++ [])))))

/-- The database, with `pad` unused bytes before the index. -/
def twoRanges (pad : ℕ) : List UInt8 :=
  putUnsignedInt (8208 + pad) ++ (putUnsignedInt (8208 + pad + 12) ++ (twoSamples (8208 + pad) ++
    (putUnsignedInt 7 ++ (putUnsignedInt 8 ++ (List.replicate pad 0 ++ twoBlocks)))))

theorem getUnsignedInt_append (xs ys : List UInt8) (k : ℕ) :
    getUnsignedInt (xs ++ ys) (xs.length + k) = getUnsignedInt ys k := by
  unfold getUnsignedInt
  simp only [Nat.add_assoc, List.getD_eq_getElem?_getD, List.getElem?_append_right (Nat.le_add_right _ _),
    Nat.add_sub_cancel_left]

theorem getUnsignedInt_put {n : ℕ} (h : n < 2 ^ 32) (ys : List UInt8) :
    getUnsignedInt (putUnsignedInt n ++ ys) 0 = n := by
  simp only [getUnsignedInt, putUnsignedInt, List.cons_append, List.getD_cons_zero, List.getD_cons_succ, Nat.zero_add,
    UInt8.toNat_ofNat']
  omega

theorem getUnsignedInt_put_add (n : ℕ) (ys : List UInt8) (k : ℕ) :
    getUnsignedInt (putUnsignedInt n ++ ys) (4 + k) = getUnsignedInt ys k :=
  getUnsignedInt_append (putUnsignedInt n) ys k

theorem getUnsignedInt_zeros (n k : ℕ) : getUnsignedInt (List.replicate n 0) k = 0 := by
  have hzero : ∀ j, (List.replicate n (0 : UInt8)).getD j 0 = 0 := by
    intro j
    rw [List.getD_eq_getElem?_getD, List.getElem?_replicate]
    split_ifs <;> rfl
  unfold getUnsignedInt
  simp only [hzero, UInt8.toNat_zero, Nat.mul_zero]

section TwoRanges

variable {pad : ℕ} (hpad : 8208 + pad + 12 < 2 ^ 32)
include hpad

theorem firstIndex_twoRanges : firstIndex (twoRanges pad) = 8208 + pad := getUnsignedInt_put (by omega) _

theorem lastIndex_twoRanges : lastIndex (twoRanges pad) = 8208 + pad + 12 := by
  rw [lastIndex, twoRanges, getUnsignedInt_put_add _ _ 0, getUnsignedInt_put hpad]

omit hpad in
theorem length_twoRanges : (twoRanges pad).length = 8208 + pad + 24 := by
  simp only [twoRanges, twoSamples, twoBlocks, putUnsignedInt, List.length_append, List.length_cons, List.length_nil,
    List.length_replicate]
  omega

theorem blockCount_twoRanges : blockCount (twoRanges pad) = 2 := by
  have hfirst := firstIndex_twoRanges hpad
  have hlast := lastIndex_twoRanges hpad
  unfold firstIndex lastIndex at *
  unfold blockCount u32 indexBlockLength
  omega

theorem indexBlock_twoRanges (i : ℕ) :
    indexBlock (twoRanges pad) i = readBlock twoBlocks (i * indexBlockLength) := by
  have hfront : twoRanges pad = (putUnsignedInt (8208 + pad) ++ (putUnsignedInt (8208 + pad + 12) ++
      (twoSamples (8208 + pad) ++ (putUnsignedInt 7 ++ (putUnsignedInt 8 ++ List.replicate pad 0))))) ++ twoBlocks := by
    simp only [twoRanges, List.append_assoc]
  have hlength : (putUnsignedInt (8208 + pad) ++ (putUnsignedInt (8208 + pad + 12) ++
      (twoSamples (8208 + pad) ++ (putUnsignedInt 7 ++ (putUnsignedInt 8 ++ List.replicate pad 0))))).length =
      8208 + pad := by
    simp only [twoSamples, putUnsignedInt, List.length_append, List.length_cons, List.length_nil,
      List.length_replicate]
    omega
  rw [indexBlock, firstIndex_twoRanges hpad, hfront]
  generalize hx : putUnsignedInt (8208 + pad) ++ _ = front at hlength
  unfold readBlock
  rw [← hlength]
  simp only [Nat.add_assoc, getUnsignedInt_append]

theorem twoRanges_blocks : indexBlock (twoRanges pad) 0 = ⟨0, 9, 0x04002008⟩ ∧
    indexBlock (twoRanges pad) 1 = ⟨10, 19, 0x0400200c⟩ := by
  rw [indexBlock_twoRanges hpad, indexBlock_twoRanges hpad]
  decide

theorem twoRanges_wellFormed : WellFormed (twoRanges pad) := by
  have hcount := blockCount_twoRanges hpad
  have hlast := lastIndex_twoRanges hpad
  have hlength : (twoRanges pad).length = 8208 + pad + 24 := length_twoRanges
  obtain ⟨h₀, h₁⟩ := twoRanges_blocks hpad
  have hblock : ∀ i < blockCount (twoRanges pad), i = 0 ∨ i = 1 := by
    intro i hi
    omega
  refine ⟨⟨1, by rw [hlast, firstIndex_twoRanges hpad]; rfl⟩, by rw [hlength, hlast]; rfl, fun i hi => ?_,
    fun i j hij hj => ?_, fun i hi => ?_, fun i hi => ?_⟩
  · obtain rfl | rfl := hblock i hi
    · rw [h₀]
      decide
    · rw [h₁]
      decide
  · obtain ⟨rfl, rfl⟩ : i = 0 ∧ j = 1 := by omega
    rw [h₀, h₁]
    decide
  · obtain rfl | rfl := hblock i hi
    · rw [h₀]
      decide
    · rw [h₁]
      decide
  · have hroom : 8208 ≤ (twoRanges pad).length := by omega
    obtain rfl | rfl := hblock i hi
    · rw [h₀]
      exact ⟨by decide, le_trans (by decide) hroom⟩
    · rw [h₁]
      exact ⟨by decide, le_trans (by decide) hroom⟩

theorem samples_twoRanges : samples (twoRanges pad) = [(0, 8208 + pad), (10, 8208 + pad + 12)] := by
  have hheader : ((twoRanges pad).drop 8).take totalHeaderLength = twoSamples (8208 + pad) := by
    have hlength : (twoSamples (8208 + pad)).length = totalHeaderLength := by
      simp only [twoSamples, putUnsignedInt, List.length_append, List.length_cons, List.length_nil,
        List.length_replicate]
      rfl
    rw [← hlength]
    exact List.take_left
  have hrange : List.range (totalHeaderLength / 8) = [0, 1, 2] ++ (List.range 1021).map (3 + ·) := by
    have hadd : List.range (3 + 1021) = List.range 3 ++ (List.range 1021).map (3 + ·) := List.range_add
    exact hadd
  have hptr₀ : getUnsignedInt (twoSamples (8208 + pad)) 4 = 8208 + pad := by
    rw [twoSamples, getUnsignedInt_put_add _ _ 0, getUnsignedInt_put (by omega)]
  have hsip₁ : getUnsignedInt (twoSamples (8208 + pad)) 8 = 10 := by
    rw [twoSamples, getUnsignedInt_put_add _ _ 4, getUnsignedInt_put_add _ _ 0, getUnsignedInt_put (by decide)]
  have hptr₁ : getUnsignedInt (twoSamples (8208 + pad)) 12 = 8208 + pad + 12 := by
    rw [twoSamples, getUnsignedInt_put_add _ _ 8, getUnsignedInt_put_add _ _ 4, getUnsignedInt_put_add _ _ 0,
      getUnsignedInt_put hpad]
  have hptr₂ : getUnsignedInt (twoSamples (8208 + pad)) 20 = 0 := by
    rw [twoSamples, getUnsignedInt_put_add _ _ 16, getUnsignedInt_put_add _ _ 12, getUnsignedInt_put_add _ _ 8,
      getUnsignedInt_put_add _ _ 4, getUnsignedInt_zeros]
  have hsip₀ : getUnsignedInt (twoSamples (8208 + pad)) 0 = 0 := getUnsignedInt_put (by decide) _
  rw [samples, hheader, readHeader, hrange]
  generalize (List.range 1021).map (3 + ·) = rest
  simp only [List.cons_append, List.nil_append, List.map_cons, Nat.mul_zero, Nat.mul_one, Nat.reduceMul, Nat.reduceAdd,
    Nat.zero_add, hsip₀, hptr₀, hsip₁, hptr₁, hptr₂, List.takeWhile_cons]
  simp

theorem twoRanges_wellHeaded : WellHeaded (twoRanges pad) := by
  have hcount := blockCount_twoRanges hpad
  have hlength : (twoRanges pad).length = 8208 + pad + 24 := length_twoRanges
  obtain ⟨h₀, h₁⟩ := twoRanges_blocks hpad
  refine ⟨[0, 1], ?_, ?_, le_rfl, by decide, rfl, ?_, by decide⟩
  · rw [hlength]
    unfold totalHeaderLength
    omega
  · rw [samples_twoRanges hpad, List.map_cons, List.map_cons, List.map_nil, sampleOf, sampleOf, h₀, h₁,
      firstIndex_twoRanges hpad]
    rfl
  · rw [hcount]
    rfl

end TwoRanges

theorem btree_agrees_twoRanges : ∃ r o₁ o₂, binarySearch (twoRanges 0) 3 ⟨0, []⟩ ip2regionCreate = some (r, o₁) ∧
    btreeSearch (twoRanges 0) 3 ⟨0, []⟩ ip2regionCreate = some (r, o₂) ∧ Answers (twoRanges 0) 3 ⟨0, []⟩ r := by
  have hpad : 8208 + 0 + 12 < 2 ^ 32 := by decide
  have hint : lastIndex (twoRanges 0) < 2 ^ 31 := by
    rw [lastIndex_twoRanges hpad]
    decide
  exact btree_agrees (fun _ => true) (twoRanges_wellFormed hpad) (twoRanges_wellHeaded hpad) hint [] _ [] rfl 3 ⟨0, []⟩

/-- With the index at 2 GiB, seeking to a block fails, and the header is read in its place. -/
theorem binaryProbe_far {pad : ℕ} (hpad : 8208 + pad = 2 ^ 31) :
    binaryProbe (twoRanges pad) (firstIndex (twoRanges pad)) 3 1 8 = some (.stop (some 10), 20) := by
  have hpad' : 8208 + pad + 12 < 2 ^ 32 := by omega
  have hlength : (twoRanges pad).length = 8208 + pad + 24 := length_twoRanges
  have hfirst : firstIndex (twoRanges pad) = 2 ^ 31 := (firstIndex_twoRanges hpad').trans hpad
  have hseek : fseek 8 (i32 (firstIndex (twoRanges pad) + 1 * indexBlockLength)) = 8 := by
    rw [hfirst]
    decide
  have hblock : readBlock (((twoRanges pad).drop 8).take indexBlockLength) 0 = ⟨0, 2 ^ 31, 10⟩ := by
    rw [readBlock_take_drop (by decide), readBlock]
    simp only [twoRanges, twoSamples, List.append_assoc]
    rw [getUnsignedInt_put_add _ _ 4, getUnsignedInt_put_add _ _ 0, getUnsignedInt_put (by decide),
      getUnsignedInt_put_add _ _ 8, getUnsignedInt_put_add _ _ 4, getUnsignedInt_put_add _ _ 0,
      getUnsignedInt_put (by omega), getUnsignedInt_put_add _ _ 12, getUnsignedInt_put_add _ _ 8,
      getUnsignedInt_put_add _ _ 4, getUnsignedInt_put_add _ _ 0, getUnsignedInt_put (by decide), hpad]
  rw [binaryProbe, hseek, fread_of_le (by decide) (by unfold indexBlockLength; omega)]
  dsimp only
  rw [hblock]
  rfl

theorem binarySearch_far {pad : ℕ} (hpad : 8208 + pad = 2 ^ 31) :
    ∃ o, binarySearch (twoRanges pad) 3 ⟨0, []⟩ ip2regionCreate = some ((0, ⟨0, []⟩), o) := by
  have hlength : (twoRanges pad).length = 8208 + pad + 24 := length_twoRanges
  obtain ⟨o, hload, hblocks, hptr, hpos⟩ : ∃ o, loadSuper (twoRanges pad) ip2regionCreate = (true, o) ∧
      o.totalBlocks = 2 ∧ o.firstIndexPtr = firstIndex (twoRanges pad) ∧ o.dbHandler = 8 := by
    refine ⟨{ ip2regionCreate with dbHandler := 8 }.loadIndex (twoRanges pad), ?_, blockCount_twoRanges (by omega), rfl,
      rfl⟩
    rw [loadSuper, if_pos (show ip2regionCreate.totalBlocks = 0 from rfl), fread_of_le (by decide) (by omega)]
    dsimp only
    rw [List.drop_zero, loadIndex_take le_rfl]
  have hsearch : bisect (binaryProbe (twoRanges pad) (firstIndex (twoRanges pad)) 3) (some 0) 0 2 8 =
      some (some 10, 20) := by
    rw [bisect, show ((2 : ℤ) + 1 - 0).toNat = 3 from rfl, bisectFrom, if_pos (by decide),
      show ((0 : ℤ) + 2) / 2 = 1 from rfl, binaryProbe_far hpad]
  rw [binarySearch, hload]
  dsimp only
  rw [hblocks, hptr, hpos, Nat.cast_two, hsearch, Option.bind_some]
  exact ⟨_, rfl⟩

theorem not_btree_agrees : ¬ ∀ db : List UInt8, WellFormed db → WellHeaded db → ∀ ip < 2 ^ 32, ∀ block,
    ∃ r o₁ o₂, binarySearch db ip block ip2regionCreate = some (r, o₁) ∧
      btreeSearch db ip block ip2regionCreate = some (r, o₂) ∧ Answers db ip block r := by
  intro hall
  have hpad : 8208 + (2 ^ 31 - 8208) = 2 ^ 31 := by decide
  generalize 2 ^ 31 - 8208 = pad at hpad
  have hpad' : 8208 + pad + 12 < 2 ^ 32 := by omega
  obtain ⟨r, o₁, -, hbinary, -, hanswers⟩ :=
    hall (twoRanges pad) (twoRanges_wellFormed hpad') (twoRanges_wellHeaded hpad') 3 (by decide) ⟨0, []⟩
  obtain ⟨o, hrun⟩ := binarySearch_far hpad
  rw [hrun, Option.some.injEq, Prod.mk.injEq] at hbinary
  obtain ⟨h₀, -⟩ := twoRanges_blocks hpad'
  have hcount := blockCount_twoRanges hpad'
  have hfound := hanswers.1 0 (by omega) (by rw [h₀]; exact ⟨Nat.zero_le 3, by decide⟩)
  rw [← hbinary.1] at hfound
  cases congrArg Prod.fst hfound

end Sarah

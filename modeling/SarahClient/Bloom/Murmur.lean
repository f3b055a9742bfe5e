import SarahClient.Bloom.Published

/-!
# `cel_murmur_hash32`

The seed is masked with the length instead of mixed with it, and the last bytes do not fall through.

* `celMurmurHash32`, `celMurmurHash32_append`: the function, and its value on words and a rest;
* `final_three`: three different states do not have one hash; `murmur_pair`: nor do two pairs of states with one
  difference;
* **`murmur_iff`**: the lengths and seeds with the published hash.
-/

namespace Sarah

open WordHash

/-- The body of `while ( length >= 4 )`. -/
def murmurStep (h k : UInt32) : UInt32 :=
  let k := k * 0x5bd1e995
  let k := k ^^^ (k >>> 24)
  let k := k * 0x5bd1e995
  (h * 0x5bd1e995) ^^^ k

/-- The words `*(uint32_t *) data` of the loop, with the number of its rounds. -/
def celMurmurWords : ℕ → List UInt8 → List UInt32
  | 0, _ => []
  | n + 1, data => get32bits data :: celMurmurWords n (data.drop 4)

/-- `switch ( length )`; every case ends with a `break`. -/
def celMurmurTail (data : List UInt8) (length : ℕ) (h : UInt32) : UInt32 :=
  match length with
  | 3 => h ^^^ ((data.getD 2 0).toUInt32 <<< 16)
  | 2 => h ^^^ ((data.getD 1 0).toUInt32 <<< 8)
  | 1 => (h ^^^ (data.getD 0 0).toUInt32) * 0x5bd1e995
  | _ => h

/-- `cel_murmur_hash32`: the start value is `seed & length`. -/
def celMurmurHash32 (str : List UInt8) (length : ℕ) (seed : UInt32) : ℕ :=
  let h := seed &&& UInt32.ofNat length
  let h := (celMurmurWords (length / 4) str).foldl murmurStep h
  let h := celMurmurTail (str.drop (4 * (length / 4))) (length % 4) h
  let h := h ^^^ (h >>> 13)
  let h := h * 0x5bd1e995
  let h := h ^^^ (h >>> 15)
  hash31 h

theorem celMurmurWords_eq : ∀ (n : ℕ) (data : List UInt8), celMurmurWords n data = leWords n data
  | 0, _ => rfl
  | n + 1, data => by
    rw [celMurmurWords, leWords, celMurmurWords_eq n]
    rfl

theorem murmurStep_eq : murmurStep = murmurRound := rfl

theorem celMurmurHash32_eq (str : List UInt8) (length : ℕ) (seed : UInt32) : celMurmurHash32 str length seed =
    hash31 (murmurFinal (celMurmurTail (str.drop (4 * (length / 4))) (length % 4)
      ((leWords (length / 4) str).foldl murmurRound (seed &&& UInt32.ofNat length)))) := by
  rw [← celMurmurWords_eq, ← murmurStep_eq]
  rfl

theorem celMurmurHash32_append {q : ℕ} {w t : List UInt8} (hlen : w.length = 4 * q) (ht : t.length < 4)
    (seed : UInt32) :
    celMurmurHash32 (w ++ t) (w ++ t).length seed =
      hash31 (murmurFinal (celMurmurTail t t.length
        ((leWords q w).foldl murmurRound (seed &&& UInt32.ofNat (w ++ t).length)))) := by
  have happ : (w ++ t).length = 4 * q + t.length := by rw [List.length_append, hlen]
  have hdiv : (w ++ t).length / 4 = q := by omega
  have hmod : (w ++ t).length % 4 = t.length := by omega
  rw [celMurmurHash32_eq, hdiv, hmod, leWords_of_append hlen, List.drop_left' hlen]

theorem murmurHash2_append {q : ℕ} {w t : List UInt8} (hlen : w.length = 4 * q) (ht : t.length < 4) (seed : UInt32) :
    murmurHash2 (w ++ t) seed =
      murmurFinal (murmurTail t ((leWords q w).foldl murmurRound (seed ^^^ UInt32.ofNat (w ++ t).length))) := by
  have happ : (w ++ t).length = 4 * q + t.length := by rw [List.length_append, hlen]
  have hdiv : (w ++ t).length / 4 = q := by omega
  rw [murmurHash2, hdiv, leWords_of_append hlen, List.drop_left' hlen]

/-! ## States with one hash -/

theorem final_three {a b c : UInt32} {h : ℕ} (ha : hash31 (murmurFinal a) = h) (hb : hash31 (murmurFinal b) = h)
    (hc : hash31 (murmurFinal c) = h) : a = b ∨ b = c ∨ a = c := by
  have hinj : ∀ {x y : UInt32}, (murmurFinal x).toNat = (murmurFinal y).toNat → x = y := fun h =>
    murmurFinal_injective (UInt32.toNat_inj.mp h)
  rw [hash31_eq_mod] at ha hb hc
  have hltA := (murmurFinal a).toNat_lt
  have hltB := (murmurFinal b).toNat_lt
  have hltC := (murmurFinal c).toNat_lt
  by_cases hab : (murmurFinal a).toNat = (murmurFinal b).toNat
  · exact .inl (hinj hab)
  by_cases hbc : (murmurFinal b).toNat = (murmurFinal c).toNat
  · exact .inr (.inl (hinj hbc))
  · exact .inr (.inr (hinj (by omega)))

theorem hash31_eq_zero {x : UInt32} : hash31 x = 0 ↔ x = 0 ∨ x = 0x80000000 := by
  rw [hash31_eq_mod, ← UInt32.toNat_inj, ← UInt32.toNat_inj (a := x) (b := 0x80000000)]
  have hlt := x.toNat_lt
  show _ ↔ x.toNat = 0 ∨ x.toNat = 2147483648
  omega

/-- `g` is a final mix that takes `0` to `0` and `σ` to the top bit alone. -/
theorem murmur_pair {g : UInt32 → UInt32} (hinj : Function.Injective g) {σ : UInt32} (hzero : g 0 = 0)
    (hσ : g σ = 0x80000000)
    (htwo : hash31 (g 2) ≠ hash31 (g (2 ^^^ σ))) {δ : UInt32} (h₀ : hash31 (g 0) = hash31 (g (0 ^^^ δ)))
    (h₂ : hash31 (g 2) = hash31 (g (2 ^^^ δ))) : δ = 0 := by
  rw [hzero, UInt32.zero_xor] at h₀
  rcases hash31_eq_zero.mp h₀.symm with h | h
  · exact hinj (h.trans hzero.symm)
  · rw [hinj (h.trans hσ.symm)] at h₂
    exact absurd h₂ htwo

/-! ## The two starts -/

theorem and_ne_xor {a b : UInt32} (hb : b ≠ 0) : a &&& b ≠ a ^^^ b := by
  intro h
  refine hb (UInt32.toBitVec_inj.mp (BitVec.eq_of_getLsbD_eq fun i hi => ?_))
  have hbit := congrArg (fun x : UInt32 => x.toBitVec.getLsbD i) h
  simp only [UInt32.toBitVec_and, UInt32.toBitVec_xor, BitVec.getLsbD_and, BitVec.getLsbD_xor] at hbit
  cases hx : a.toBitVec.getLsbD i <;> cases hy : b.toBitVec.getLsbD i <;> simp_all

theorem ofNat_ne_zero {n : ℕ} (hpos : 0 < n) (hn : n < 2 ^ 32) : UInt32.ofNat n ≠ 0 := by
  intro h
  have htoNat := congrArg UInt32.toNat h
  rw [UInt32.toNat_ofNat_of_lt' (by rw [UInt32.size]; omega)] at htoNat
  exact absurd htoNat hpos.ne'

/-- All strings of length `n` have the published hash. -/
def MurmurAgrees (n : ℕ) (seed : UInt32) : Prop :=
  ∀ str : List UInt8, str.length = n → celMurmurHash32 str n seed = hash31 (murmurHash2 str seed)

theorem MurmurAgrees.append {q : ℕ} {w t : List UInt8} {n : ℕ} {seed : UInt32} (h : MurmurAgrees n seed)
    (hlen : w.length = 4 * q) (ht : t.length < 4) (hn : n = (w ++ t).length) :
    hash31 (murmurFinal (celMurmurTail t t.length ((leWords q w).foldl murmurRound (seed &&& UInt32.ofNat n)))) =
      hash31 (murmurFinal (murmurTail t ((leWords q w).foldl murmurRound (seed ^^^ UInt32.ofNat n)))) := by
  have hstr := h (w ++ t) hn.symm
  subst hn
  rw [celMurmurHash32_append hlen ht, murmurHash2_append hlen ht] at hstr
  exact hstr

theorem celMurmurTail_first {t : List UInt8} (ht : t.length = 1 ∨ t.length = 2) (d e : UInt8) (h : UInt32) :
    celMurmurTail (d :: t) (d :: t).length h = celMurmurTail (e :: t) (e :: t).length h := by
  match t, ht with
  | [_], _ => simp only [celMurmurTail, List.length_cons, List.length_nil, List.getD_cons_succ]
  | [_, _], _ => simp only [celMurmurTail, List.length_cons, List.length_nil, List.getD_cons_succ]

theorem murmurTail_first {t : List UInt8} (ht : t.length = 1 ∨ t.length = 2) {d e : UInt8} {h : UInt32}
    (heq : murmurTail (d :: t) h = murmurTail (e :: t) h) : d = e := by
  have hinj := mul_injective murmurM_inverse
  match t, ht with
  | [b], _ =>
    have hxor : (h ^^^ (b.toUInt32 <<< 8)) ^^^ d.toUInt32 = (h ^^^ (b.toUInt32 <<< 8)) ^^^ e.toUInt32 := hinj heq
    exact UInt8.toUInt32_inj.mp ((UInt32.xor_right_inj _).mp hxor)
  | [b, c], _ =>
    have hxor : (h ^^^ (c.toUInt32 <<< 16) ^^^ (b.toUInt32 <<< 8)) ^^^ d.toUInt32 =
        (h ^^^ (c.toUInt32 <<< 16) ^^^ (b.toUInt32 <<< 8)) ^^^ e.toUInt32 := hinj heq
    exact UInt8.toUInt32_inj.mp ((UInt32.xor_right_inj _).mp hxor)

/-- A rest of two or three bytes: the code's hash does not see the first of them. -/
theorem not_murmurAgrees_tail {t : List UInt8} (ht : t.length = 1 ∨ t.length = 2) (q : ℕ) (seed : UInt32) :
    ¬ MurmurAgrees (4 * q + (t.length + 1)) seed := by
  intro h
  have hzeros : (List.replicate (4 * q) (0 : UInt8)).length = 4 * q := List.length_replicate
  have hhash := fun d : UInt8 => h.append (t := d :: t) hzeros (by rw [List.length_cons]; omega)
    (by rw [List.length_append, hzeros, List.length_cons])
  simp only [celMurmurTail_first ht _ 0] at hhash
  rcases final_three (hhash 0).symm (hhash 1).symm (hhash 2).symm with h | h | h
  · exact absurd (murmurTail_first ht h) (by decide)
  · exact absurd (murmurTail_first ht h) (by decide)
  · exact absurd (murmurTail_first ht h) (by decide)

/-- A last word puts the code's state to any value; the published state is apart by a fixed difference. -/
theorem lastWord (q : ℕ) {a b : UInt32} (hne : a ≠ b) : ∃ δ ≠ 0, ∀ s : UInt32, ∃ w :
    List UInt8, w.length = 4 * (q + 1) ∧
    (leWords (q + 1) w).foldl murmurRound a = s ∧ (leWords (q + 1) w).foldl murmurRound b = s ^^^ δ := by
  have hzeros : (List.replicate (4 * q) (0 : UInt8)).length = 4 * q := List.length_replicate
  have hinj := foldl_murmurRound_injective (leWords q (List.replicate (4 * q) 0))
  have hwords : ∀ w : UInt32, leWords (q + 1) (List.replicate (4 * q) 0 ++ leBytes w) =
      leWords q (List.replicate (4 * q) 0) ++ [w] := fun w => by
    have hw := leWord_leBytes w []
    rw [List.append_nil] at hw
    rw [leWords_append 1 _ q hzeros, leWords, hw, leWords]
  generalize leWords q (List.replicate (4 * q) 0) = ws at hinj hwords
  refine ⟨(ws.foldl murmurRound a * murmurM) ^^^ (ws.foldl murmurRound b * murmurM), fun h => ?_, fun s => ?_⟩
  · exact hne (hinj (mul_injective murmurM_inverse (UInt32.xor_eq_zero_iff.mp h)))
  · obtain ⟨w, hw⟩ := murmurMix_surjective (s ^^^ (ws.foldl murmurRound a * murmurM))
    refine ⟨List.replicate (4 * q) 0 ++ leBytes w, by rw [List.length_append, hzeros]; rfl, ?_, ?_⟩
    · rw [hwords, List.foldl_append, List.foldl_cons, List.foldl_nil, murmurRound, hw, UInt32.xor_comm s,
        ← UInt32.xor_assoc, UInt32.xor_self, UInt32.zero_xor]
    · rw [hwords, List.foldl_append, List.foldl_cons, List.foldl_nil, murmurRound, hw]
      ac_rfl

theorem murmurFinal_pair {δ : UInt32} (h : ∀ s, hash31 (murmurFinal s) = hash31 (murmurFinal (s ^^^ δ))) : δ = 0 :=
  murmur_pair murmurFinal_injective (σ := 0x64f014fa) (by decide +kernel) (by decide +kernel) (by decide +kernel) (h 0)
    (h 2)

theorem murmurFinal_mul_pair {δ : UInt32}
    (h₀ : hash31 (murmurFinal (0 * murmurM)) = hash31 (murmurFinal ((0 ^^^ δ) * murmurM)))
    (h₂ : hash31 (murmurFinal (2 * murmurM)) = hash31 (murmurFinal ((2 ^^^ δ) * murmurM))) : δ = 0 :=
  murmur_pair (murmurFinal_injective.comp (mul_injective murmurM_inverse)) (σ := 0x4ca9e692) (by decide +kernel)
    (by decide +kernel) (by decide +kernel) h₀ h₂

theorem celMurmurTail_one (d : UInt8) (h : UInt32) : celMurmurTail [d] 1 h = (h ^^^ d.toUInt32) * murmurM := rfl

theorem murmurTail_one (d : UInt8) (h : UInt32) : murmurTail [d] h = (h ^^^ d.toUInt32) * murmurM := rfl

theorem not_murmurAgrees_words {q : ℕ} (hn : 4 * (q + 1) < 2 ^ 32) (seed : UInt32) :
    ¬ MurmurAgrees (4 * (q + 1)) seed := by
  intro h
  obtain ⟨δ, hne, hword⟩ := lastWord q (and_ne_xor (a := seed) (ofNat_ne_zero (n := 4 * (q + 1)) (by omega) hn))
  refine hne (murmurFinal_pair fun s => ?_)
  obtain ⟨w, hlen, ha, hb⟩ := hword s
  have hhash := h.append (t := []) hlen (by decide) (by rw [List.append_nil, hlen])
  rw [ha, hb] at hhash
  exact hhash

theorem not_murmurAgrees_words_one {q : ℕ} (hn : 4 * (q + 1) + 1 < 2 ^ 32) (seed : UInt32) :
    ¬ MurmurAgrees (4 * (q + 1) + 1) seed := by
  intro h
  obtain ⟨δ, hne, hword⟩ := lastWord q (and_ne_xor (a := seed) (ofNat_ne_zero (n := 4 * (q + 1) + 1) (by omega) hn))
  have hall : ∀ s, hash31 (murmurFinal (s * murmurM)) = hash31 (murmurFinal ((s ^^^ δ) * murmurM)) := fun s => by
    obtain ⟨w, hlen, ha, hb⟩ := hword s
    have hhash := h.append (t := [0]) hlen (by decide) (by rw [List.length_append, hlen]; rfl)
    rw [ha, hb, List.length_singleton, celMurmurTail_one, murmurTail_one, show UInt8.toUInt32 0 = 0 from rfl,
      UInt32.xor_zero, UInt32.xor_zero] at hhash
    exact hhash
  exact hne (murmurFinal_mul_pair (hall 0) (hall 2))

/-- One byte: it reaches the states that a bit of the seed and a small byte make. -/
theorem not_murmurAgrees_one (seed : UInt32) : ¬ MurmurAgrees 1 seed := by
  intro h
  have hbit : seed &&& 1 = 0 ∨ seed &&& 1 = 1 := by
    have hmod : (seed &&& 1).toNat = seed.toNat % 2 := by
      rw [UInt32.toNat_and]
      exact Nat.and_two_pow_sub_one_eq_mod _ 1
    rcases Nat.mod_two_eq_zero_or_one seed.toNat with h | h
    · exact .inl (UInt32.toNat_inj.mp (hmod.trans h))
    · exact .inr (UInt32.toNat_inj.mp (hmod.trans h))
  have hall : ∀ d : UInt8, hash31 (murmurFinal (((seed &&& 1) ^^^ d.toUInt32) * murmurM)) =
      hash31 (murmurFinal (((seed ^^^ 1) ^^^ d.toUInt32) * murmurM)) := fun d =>
    h.append (q := 0) (w := []) (t := [d]) rfl (Nat.succ_lt_succ (Nat.succ_pos 2)) rfl
  have hbyte : ∀ s d, (seed &&& 1) ^^^ d = s → (seed ^^^ 1) ^^^ d = s ^^^ ((seed &&& 1) ^^^ (seed ^^^ 1)) := by
    rintro s d rfl
    have hself : ∀ a b : UInt32, (a ^^^ d) ^^^ (a ^^^ b) = b ^^^ d := fun a b => by
      rw [UInt32.xor_comm a d, UInt32.xor_assoc, ← UInt32.xor_assoc a, UInt32.xor_self, UInt32.zero_xor,
        UInt32.xor_comm]
    exact (hself _ _).symm
  have hpair : ∀ s d, (seed &&& 1) ^^^ UInt8.toUInt32 d = s → hash31 (murmurFinal (s * murmurM)) =
      hash31 (murmurFinal ((s ^^^ ((seed &&& 1) ^^^ (seed ^^^ 1))) * murmurM)) := by
    intro s d hs
    have hd := hall d
    rwa [hbyte s _ hs, hs] at hd
  refine and_ne_xor (a := seed) (b := 1) (by decide) (UInt32.xor_eq_zero_iff.mp ?_)
  rcases hbit with hb | hb
  · exact murmurFinal_mul_pair (hpair 0 0 (by rw [hb]; rfl)) (hpair 2 2 (by rw [hb]; rfl))
  · exact murmurFinal_mul_pair (hpair 0 1 (by rw [hb]; rfl)) (hpair 2 3 (by rw [hb]; rfl))

theorem not_murmurAgrees_pos {n : ℕ} (hpos : 0 < n) (hn : n < 2 ^ 32) (seed : UInt32) : ¬ MurmurAgrees n seed := by
  obtain ⟨q, r, rfl, hr⟩ : ∃ q r, n = 4 * q + r ∧ r < 4 :=
    ⟨n / 4, n % 4, (Nat.div_add_mod n 4).symm, Nat.mod_lt _ (by decide)⟩
  match r, hr with
  | 0, _ =>
    cases q with
    | zero => exact absurd hpos (Nat.lt_irrefl 0)
    | succ q => exact not_murmurAgrees_words hn seed
  | 1, _ =>
    cases q with
    | zero => exact not_murmurAgrees_one seed
    | succ q => exact not_murmurAgrees_words_one hn seed
  | 2, _ => exact not_murmurAgrees_tail (t := [0]) (.inl rfl) q seed
  | 3, _ => exact not_murmurAgrees_tail (t := [0, 0]) (.inr rfl) q seed

/-- The empty string: its hash is the last mix of `0` here and of the seed in the publication. -/
theorem murmurAgrees_zero (seed : UInt32) : MurmurAgrees 0 seed ↔ seed = 0 ∨ seed = 0x64f014fa := by
  have hempty : MurmurAgrees 0 seed ↔ hash31 (murmurFinal 0) = hash31 (murmurFinal seed) := by
    have hmask : seed &&& UInt32.ofNat 0 = 0 := UInt32.and_zero
    have hmix : seed ^^^ UInt32.ofNat 0 = seed := UInt32.xor_zero
    constructor
    · intro h
      have hhash := h.append (q := 0) (w := []) (t := []) rfl (by decide) rfl
      rw [hmask, hmix] at hhash
      exact hhash
    · intro h str hstr
      rw [List.length_eq_zero_iff.mp hstr]
      have hcode := celMurmurHash32_append (q := 0) (w := []) (t := []) rfl (by decide) seed
      have hpub := murmurHash2_append (q := 0) (w := []) (t := []) rfl (by decide) seed
      rw [show ([] ++ [] : List UInt8).length = 0 from rfl, hmask] at hcode
      rw [show ([] ++ [] : List UInt8).length = 0 from rfl, hmix] at hpub
      exact hcode.trans (h.trans (congrArg hash31 hpub.symm))
  have hzero : murmurFinal 0 = 0 := by decide +kernel
  have htop : murmurFinal 0x64f014fa = 0x80000000 := by decide +kernel
  rw [hempty, hzero, show hash31 0 = 0 by decide, eq_comm, hash31_eq_zero, ← htop]
  nth_rewrite 1 [← hzero]
  rw [murmurFinal_injective.eq_iff, murmurFinal_injective.eq_iff]

/-- **MurmurHash2.** All strings of a length have the published hash exactly for the empty string under two seeds. -/
theorem murmur_iff {n : ℕ} (hn : n < 2 ^ 32) (seed : UInt32) :
    MurmurAgrees n seed ↔ n = 0 ∧ (seed = 0 ∨ seed = 0x64f014fa) := by
  rcases Nat.eq_zero_or_pos n with rfl | hpos
  · rw [murmurAgrees_zero]
    exact (and_iff_right rfl).symm
  · exact iff_of_false (not_murmurAgrees_pos hpos hn seed) fun h => absurd h.1 hpos.ne'

/-- The empty string under the seed 0. -/
theorem murmur_iff_empty : MurmurAgrees 0 0 := (murmur_iff (by decide) 0).mpr ⟨rfl, .inl rfl⟩

/-- One letter under the seed that the header file gives. -/
theorem not_murmur : ¬ ∀ (str : List UInt8) (seed : UInt32), str.length < 2 ^ 32 →
    celMurmurHash32 str str.length seed = hash31 (murmurHash2 str seed) := by
  intro h
  have hone := h [97] 0x9747b28c (by decide)
  revert hone
  decide +kernel

end Sarah

import SarahClient.Booter.SingleInstance
import SarahClient.Updater.Safety
import SarahClient.Lib.Stdio
import Mathlib.Algebra.Order.Field.Rat
import Mathlib.Tactic.FieldSimp
import Mathlib.Tactic.Positivity.Basic

/-!
# The version file of the updater (`app_updater.c`)

Decimals are read exactly, so the cast to `float` is the identity.

* `atof`, `sarahUpdaterGetVersion`: reading the file; `sarahUpdaterInit`: the restart;
* `sprintf2f_hundredths`, `atof_point`: the text of a version and its value;
* `getVersion_setVersion`: what is read back after some of the bytes got through;
* **`versionKept_iff`**: when a version survives the file and a restart.
-/

namespace Sarah

open FileBytes Stdio

/-! ## Reading the file -/

/-- Digits with a point, and the text behind them. -/
def decimalFraction (s : List UInt8) : ℚ × List UInt8 :=
  let whole := s.takeWhile isdigit
  match s.dropWhile isdigit with
  | 46 :: t =>
    let fraction := t.takeWhile isdigit
    (digitsValue (whole ++ fraction) / 10 ^ fraction.length, t.dropWhile isdigit)
  | t => (digitsValue whole, t)

/-- The exponent at the start of a text. -/
def decimalExponent : List UInt8 → ℤ
  | 69 :: t | 101 :: t => if (unsign t).takeWhile isdigit = [] then 0 else strtoll t
  | _ => 0

/-- `atof`, exactly; texts in hexadecimal and for NaN are left out. -/
def atof (s : List UInt8) : Double :=
  let s := s.dropWhile isspace
  let negative := s.head? = some 45
  let s := unsign s
  if (s.take 3).map CJson.tolower = lit "inf" then if negative then .ninf else .pinf
  else
    let r := decimalFraction s
    let q := r.1 * 10 ^ decimalExponent r.2
    .fin (if negative then -q else q)

/-- `sarah_updater_get_version`, with the new value of `*version`. -/
def sarahUpdaterGetVersion (toFloat : Double → Double) (env : GetEnv) (verFile : Option (List UInt8))
    (version : Double) :
    ℤ × Double :=
  match sarahFileGetBuffer env verFile 4 with
  -- the five bytes of the buffer are zero before the call
  | some bytes => (0, toFloat (atof (cstr (bytes ++ List.replicate (5 - bytes.length) 0))))
  | none => (1, version)

/-- What `sarah_updater_init` makes of the version, over the files of the last run. -/
def sarahUpdaterInit (toFloat : Double → Double) (env : GetEnv) (updater : Updater) : Updater :=
  { updater with version := (sarahUpdaterGetVersion toFloat env updater.verFile (.fin 0)).2 }

/-! ## The text of a version -/

theorem hundredths_div (k : ℕ) : hundredths ((k : ℚ) / 100).num.natAbs ((k : ℚ) / 100).den = k := by
  have hq : 0 ≤ (k : ℚ) / 100 := div_nonneg (Nat.cast_nonneg k) (by norm_num)
  have hnum : (((k : ℚ) / 100).num.natAbs : ℚ) = ((k : ℚ) / 100).num := by
    rw [← Int.cast_natCast, Int.natAbs_of_nonneg (Rat.num_nonneg.mpr hq)]
  have hmul : 100 * ((k : ℚ) / 100).num.natAbs = k * ((k : ℚ) / 100).den := by
    have heq : (k : ℚ) / 100 * ((k : ℚ) / 100).den = ((k : ℚ) / 100).num := Rat.mul_den_eq_num _
    have : (100 : ℚ) * ((k : ℚ) / 100).num.natAbs = k * ((k : ℚ) / 100).den := by
      rw [hnum, ← heq]
      ring
    exact_mod_cast this
  have hpos : 0 < ((k : ℚ) / 100).den := Rat.den_pos _
  rw [hundredths, hmul, Nat.mul_div_cancel _ hpos, Nat.mul_mod_left, if_neg (by omega)]

theorem sprintf2f_hundredths (k : ℕ) : sprintf2f (.fin ((k : ℚ) / 100)) =
    decimal (k / 100) ++ [46, UInt8.ofNat (48 + k / 10 % 10), UInt8.ofNat (48 + k % 10)] := by
  have hq : ¬ (k : ℚ) / 100 < 0 := not_lt.mpr (div_nonneg (Nat.cast_nonneg k) (by norm_num))
  rw [sprintf2f, hundredths_div, if_neg hq, decimal_of_lt (Nat.mod_lt (k / 10) (by decide)),
    decimal_of_lt (Nat.mod_lt k (by decide)), List.nil_append, List.append_assoc, List.append_assoc]
  rfl

theorem sprintf2f_length_le_iff (k : ℕ) : (sprintf2f (.fin ((k : ℚ) / 100))).length ≤ 4 ↔ k < 1000 := by
  rw [sprintf2f_hundredths, List.length_append]
  rcases Nat.lt_or_ge (k / 100) 10 with h | h
  · rw [decimal_of_lt h]
    simp only [List.length_cons, List.length_nil]
    omega
  · have := List.length_pos_of_ne_nil (decimal_ne_nil (k / 100 / 10))
    rw [decimal_of_le h, List.length_append]
    simp only [List.length_cons, List.length_nil]
    omega

/-! ## Its value -/

theorem decimalFraction_point {w f : List UInt8} (hw : ∀ c ∈ w, isdigit c = true) (hf : ∀ c ∈ f, isdigit c = true) :
    decimalFraction (w ++ 46 :: f) = ((digitsValue (w ++ f) : ℚ) / 10 ^ f.length, []) := by
  have hstop : Stops isdigit (46 :: f) := .cons (by decide)
  have hf' : Stops isdigit ([] : List UInt8) := .nil
  rw [decimalFraction, takeWhile_run hw hstop, dropWhile_run hw hstop]
  have htake : f.takeWhile isdigit = f := List.takeWhile_eq_self_iff.mpr hf
  have hdrop : f.dropWhile isdigit = [] := List.dropWhile_eq_nil_iff.mpr hf
  simp only [htake, hdrop]

theorem decimalFraction_digits {w : List UInt8} (hw : ∀ c ∈ w, isdigit c = true) :
    decimalFraction w = ((digitsValue w : ℚ), []) := by
  have htake : w.takeWhile isdigit = w := List.takeWhile_eq_self_iff.mpr hw
  have hdrop : w.dropWhile isdigit = [] := List.dropWhile_eq_nil_iff.mpr hw
  rw [decimalFraction, htake, hdrop]

/-- A text that begins with a digit has no blank, no sign and no name of a value in front. -/
theorem atof_of_digit {c : UInt8} (hc : isdigit c = true) (s : List UInt8) :
    atof (c :: s) = .fin ((decimalFraction (c :: s)).1 * 10 ^ decimalExponent (decimalFraction (c :: s)).2) := by
  have hspace : isspace c = false := by
    by_contra h
    rw [not_isdigit_of_isspace (Bool.not_eq_false _ ▸ h)] at hc
    cases hc
  have hrange : 48 ≤ c.toNat ∧ c.toNat ≤ 57 := by
    simpa only [isdigit, decide_eq_true_eq] using hc
  have hplus : c ≠ 43 := by
    rintro rfl
    exact absurd hrange (by decide)
  have hminus : c ≠ 45 := by
    rintro rfl
    exact absurd hrange (by decide)
  have hunsign : unsign (c :: s) = c :: s := by
    unfold unsign
    split
    · rename_i heq
      exact absurd (List.cons.inj heq).1 hplus
    · rename_i heq
      exact absurd (List.cons.inj heq).1 hminus
    · rfl
  have hname : ((c :: s).take 3).map CJson.tolower ≠ lit "inf" := by
    intro h
    have hlow : CJson.tolower c = c := if_neg (by omega)
    have : c = 105 := by
      rw [List.take_succ_cons, List.map_cons, hlow] at h
      exact (List.cons.inj h).1
    rw [this] at hrange
    exact absurd hrange (by decide)
  rw [atof, List.dropWhile_cons_of_neg (by rw [hspace]; decide)]
  dsimp only
  rw [hunsign, if_neg hname, if_neg (by simpa using hminus)]

theorem atof_digits {c : UInt8} {w : List UInt8} (hw : ∀ d ∈ c :: w, isdigit d = true) :
    atof (c :: w) = .fin (digitsValue (c :: w)) := by
  rw [atof_of_digit (hw c List.mem_cons_self), decimalFraction_digits hw]
  simp [decimalExponent]

/-- **A text with a point is read as the number that it writes.** -/
theorem atof_point {c : UInt8} {w f : List UInt8} (hw : ∀ d ∈ c :: w, isdigit d = true)
    (hf : ∀ d ∈ f, isdigit d = true) :
    atof (c :: w ++ 46 :: f) = .fin ((digitsValue (c :: w ++ f) : ℚ) / 10 ^ f.length) := by
  have heq := decimalFraction_point hw hf
  rw [List.cons_append] at heq ⊢
  rw [atof_of_digit (hw c List.mem_cons_self), heq]
  simp [decimalExponent]

/-- The first `n` characters of the text of `k/100` write the same number. -/
def DigitsKept (n k : ℕ) : Prop := (n = 0 → k = 0) ∧ (n < 3 → 100 ∣ k) ∧ (n < 4 → 10 ∣ k)

theorem isdigit_digit {d : ℕ} (h : d < 10) : isdigit (UInt8.ofNat (48 + d)) = true :=
  isdigit_of_mem_decimal d _ (by rw [decimal_of_lt h]; exact List.mem_singleton_self _)

theorem digitsValue_cons {d : ℕ} (h : d < 10) (s : List UInt8) :
    digitsValue (UInt8.ofNat (48 + d) :: s) = s.foldl (fun n c => 10 * n + (c.toNat - 48)) d := by
  rw [digitsValue, List.foldl_cons, digit_toNat h]
  congr 1
  omega

theorem atof_take {k : ℕ} (hk : k < 1000) (n : ℕ) : atof ((sprintf2f (.fin ((k : ℚ) / 100))).take n) =
    .fin (if n = 0 then 0 else if n < 3 then (k / 100 : ℕ) else if n < 4 then ((k / 10 : ℕ) : ℚ) / 10
      else (k : ℚ) / 100) := by
  have ha : k / 100 < 10 := by omega
  have hb : k / 10 % 10 < 10 := Nat.mod_lt _ (by decide)
  have hc : k % 10 < 10 := Nat.mod_lt _ (by decide)
  have hda := isdigit_digit ha
  have hdb := isdigit_digit hb
  have hdc := isdigit_digit hc
  have hone : digitsValue [UInt8.ofNat (48 + k / 100)] = k / 100 := digitsValue_cons ha []
  have htwo : digitsValue [UInt8.ofNat (48 + k / 100), UInt8.ofNat (48 + k / 10 % 10)] = k / 10 := by
    rw [digitsValue_cons ha, List.foldl_cons, List.foldl_nil, digit_toNat hb]
    omega
  have hthree :
      digitsValue [UInt8.ofNat (48 + k / 100), UInt8.ofNat (48 + k / 10 % 10), UInt8.ofNat (48 + k % 10)] = k := by
    rw [digitsValue_cons ha, List.foldl_cons, List.foldl_cons, List.foldl_nil, digit_toNat hb, digit_toNat hc]
    omega
  have hpair : ∀ d ∈ [UInt8.ofNat (48 + k / 10 % 10), UInt8.ofNat (48 + k % 10)], isdigit d = true := by
    intro d hd
    rcases List.mem_pair.mp hd with rfl | rfl
    · exact hdb
    · exact hdc
  rw [sprintf2f_hundredths, decimal_of_lt ha, List.singleton_append]
  match n with
  | 0 =>
    rw [List.take_zero, if_pos rfl]
    decide +kernel
  | 1 =>
    rw [List.take_succ_cons, List.take_zero, atof_digits (by simpa using hda), hone]
    simp
  | 2 =>
    have hpoint := atof_point (c := UInt8.ofNat (48 + k / 100)) (w := []) (f := []) (by simpa using hda) (by simp)
    rw [List.take_succ_cons, List.take_succ_cons, List.take_zero]
    refine Eq.trans hpoint ?_
    rw [List.append_nil, hone]
    simp
  | 3 =>
    have hpoint := atof_point (c := UInt8.ofNat (48 + k / 100)) (w := []) (f := [UInt8.ofNat (48 + k / 10 % 10)])
      (by simpa using hda) (by simpa using hdb)
    rw [List.take_succ_cons, List.take_succ_cons, List.take_succ_cons, List.take_zero]
    refine Eq.trans hpoint ?_
    rw [List.singleton_append, htwo]
    simp
  | n + 4 =>
    have hpoint := atof_point (c := UInt8.ofNat (48 + k / 100)) (w := [])
      (f := [UInt8.ofNat (48 + k / 10 % 10), UInt8.ofNat (48 + k % 10)]) (by simpa using hda) hpair
    rw [List.take_of_length_le (by simp)]
    refine Eq.trans hpoint ?_
    rw [List.singleton_append, hthree]
    norm_num

/-- **What is read back is the version exactly when the digits that are lost are zeros.** -/
theorem atof_take_iff {k : ℕ} (hk : k < 1000) (n : ℕ) :
    atof ((sprintf2f (.fin ((k : ℚ) / 100))).take n) = .fin ((k : ℚ) / 100) ↔ DigitsKept n k := by
  rw [atof_take hk, Double.fin.injEq]
  have hdiv {a : ℕ} {q : ℚ} (h : q = (a : ℚ) / 100) : q = (k : ℚ) / 100 ↔ a = k := by
    rw [h, div_left_inj' (by norm_num)]
    exact Nat.cast_inj
  rcases Nat.eq_zero_or_pos n with rfl | hn
  · rw [if_pos rfl, hdiv (a := 0) (by simp), DigitsKept]
    omega
  rw [if_neg (by omega)]
  by_cases h₃ : n < 3
  · rw [if_pos h₃, hdiv (a := k / 100 * 100) (by push_cast; field_simp), DigitsKept]
    omega
  rw [if_neg h₃]
  by_cases h₄ : n < 4
  · rw [if_pos h₄, hdiv (a := k / 10 * 10) (by push_cast; field_simp; norm_num), DigitsKept]
    omega
  · rw [if_neg h₄, hdiv rfl, DigitsKept]
    omega

/-! ## Writing and reading back -/

/-- The bytes that a call stores, where it reports success. -/
def PutEnv.bytes (env : PutEnv) : Option ℕ :=
  if env.opens = true ∧ env.locks = true ∧ env.truncates = true then env.stored else none

/-- The bytes that a call reads at most, where it reports success. -/
def GetEnv.bytes (env : GetEnv) : Option ℕ := if env.opens = true ∧ env.locks = true then env.got else none

theorem sarahFilePutBuffer_of_bytes {env : PutEnv} {n : ℕ} (h : env.bytes = some n) (file : Option (List UInt8))
    (buffer : List UInt8) :
    sarahFilePutBuffer env file buffer 0 = (((min n buffer.length : ℕ) : ℤ), some (buffer.take n)) := by
  unfold PutEnv.bytes at h
  split_ifs at h with hok
  obtain ⟨h₁, h₂, h₃⟩ := hok
  have hwrite : pwrite [] 0 (buffer.take n) = buffer.take n := by
    rw [pwrite_of_le (Nat.zero_le _), List.take_nil, List.drop_nil, List.nil_append, List.append_nil]
  simp [sarahFilePutBuffer, h₁, h₂, h₃, h, hwrite]

theorem sarahFilePutBuffer_of_none {env : PutEnv} (h : env.bytes = none) (file : Option (List UInt8))
    (buffer : List UInt8) : (sarahFilePutBuffer env file buffer 0).1 = -1 := by
  unfold sarahFilePutBuffer
  by_cases h₁ : env.opens = false
  · rw [if_pos h₁]
  rw [if_neg h₁]
  by_cases h₂ : env.locks = false
  · rw [if_pos h₂]
  rw [if_neg h₂]
  by_cases h₃ : (0 : ℤ) ≠ 1 ∧ env.truncates = false
  · rw [if_pos h₃]
  rw [if_neg h₃]
  have htruncates : env.truncates = true := by
    by_contra hc
    exact h₃ ⟨by decide, Bool.not_eq_true _ ▸ hc⟩
  have hstored : env.stored = none := by
    rw [Bool.not_eq_false] at h₁ h₂
    rw [PutEnv.bytes, if_pos ⟨h₁, h₂, htruncates⟩] at h
    exact h
  simp only [hstored]

theorem sarahFileGetBuffer_of_bytes {env : GetEnv} {m : ℕ} (h : env.bytes = some m) (content : List UInt8) (size : ℕ) :
    sarahFileGetBuffer env (some content) size = some ((content.take size).take m) := by
  unfold GetEnv.bytes at h
  split_ifs at h with hok
  simp [sarahFileGetBuffer, hok.1, hok.2, h]

theorem sarahFileGetBuffer_of_none {env : GetEnv} (h : env.bytes = none) (file : Option (List UInt8)) (size : ℕ) :
    sarahFileGetBuffer env file size = none := by
  unfold sarahFileGetBuffer
  cases file with
  | none => rfl
  | some content =>
    dsimp only
    by_cases hfail : env.opens = false ∨ env.locks = false
    · rw [if_pos hfail]
    · rw [if_neg hfail]
      rw [not_or, Bool.not_eq_false, Bool.not_eq_false] at hfail
      rw [GetEnv.bytes, if_pos hfail] at h
      rw [h, Option.map_none]

theorem sarahUpdaterSetVersion_of_lt {k : ℕ} (hk : k < 1000) (updater : Updater) (put : PutEnv) :
    sarahUpdaterSetVersion updater (.fin ((k : ℚ) / 100)) put =
      let r := sarahFilePutBuffer put updater.verFile (sprintf2f (.fin ((k : ℚ) / 100))) 0
      some (if -1 < r.1 then 0 else 1, { updater with version := .fin ((k : ℚ) / 100), verFile := r.2 }) := by
  have hlen := (sprintf2f_length_le_iff k).mpr hk
  have hlen' : 4 ≤ (sprintf2f (.fin ((k : ℚ) / 100))).length := by
    rw [sprintf2f_hundredths, List.length_append]
    have := List.length_pos_of_ne_nil (decimal_ne_nil (k / 100))
    simp only [List.length_cons, List.length_nil]
    omega
  rw [sarahUpdaterSetVersion]
  dsimp only
  rw [if_pos hlen, Nat.sub_eq_zero_of_le hlen', List.replicate_zero, List.append_nil]

theorem zero_notMem_sprintf2f (k : ℕ) : 0 ∉ sprintf2f (.fin ((k : ℚ) / 100)) := by
  have hdigit {d : ℕ} (h : d < 10) : (0 : UInt8) ≠ UInt8.ofNat (48 + d) := by
    intro heq
    have := zero_notMem_decimal d
    rw [decimal_of_lt h, ← heq] at this
    exact this (List.mem_singleton_self 0)
  rw [sprintf2f_hundredths]
  simp only [List.mem_append, List.mem_cons, List.not_mem_nil, or_false, not_or]
  exact ⟨zero_notMem_decimal _, by decide, hdigit (Nat.mod_lt _ (by decide)), hdigit (Nat.mod_lt _ (by decide))⟩

/-- **What is read after a version below 10 was recorded**, when `n` bytes were stored and `m` bytes are read. -/
theorem getVersion_setVersion {k : ℕ} (hk : k < 1000) {get : GetEnv} {n m : ℕ} (hget : get.bytes = some m)
    (version : Double) :
    sarahUpdaterGetVersion id get (some ((sprintf2f (.fin ((k : ℚ) / 100))).take n)) version =
      (0, atof ((sprintf2f (.fin ((k : ℚ) / 100))).take (min n m))) := by
  have hlen := (sprintf2f_length_le_iff k).mpr hk
  have htake : (((sprintf2f (.fin ((k : ℚ) / 100))).take n).take 4).take m =
      (sprintf2f (.fin ((k : ℚ) / 100))).take (min n m) := by
    rw [List.take_take, List.take_take, List.take_eq_take_iff]
    omega
  have hzero : 0 ∉ (sprintf2f (.fin ((k : ℚ) / 100))).take (min n m) :=
    fun h => zero_notMem_sprintf2f k (List.mem_of_mem_take h)
  rw [sarahUpdaterGetVersion, sarahFileGetBuffer_of_bytes hget, htake]
  dsimp only
  rw [cstr_append_zeros, cstr_of_notMem hzero]
  rfl

/-! ## The restart -/

/-- An offer that is not newer than the recorded version is turned down before anything is downloaded. -/
theorem updaterRound_of_old {parse : List UInt8 → Option CJson} {toFloat : Double → Double} {st : UpdaterState}
    {env : RoundEnv} {v : Double} {sign : List UInt8} (hanswer : answer parse toFloat env.query = some (v, sign))
    (hold : v.le st.updater.version = true) : (updaterRound parse toFloat st env).1 = .quiet ∧
      ∀ st', (updaterRound parse toFloat st env).2 = some st' → st'.updater = st.updater := by
  have hget := (getLatestVersion_of_answer hanswer { st.version with value := .fin 0 }).2
  by_cases hrun : env.Runs
  · rw [updaterRound_of_running st hrun, hget]
    by_cases hfits : sign.length ≤ 35
    · rw [if_pos hfits]
      dsimp only
      rw [if_neg (not_not.mpr rfl), if_pos (.inr hold)]
      refine ⟨rfl, fun st' h => ?_⟩
      rw [roundEnd_next h]
    · rw [if_neg hfits]
      exact ⟨rfl, fun st' h => by cases h⟩
  · obtain ⟨hquiet, hnext⟩ := updaterRound_of_not_running st hrun
    exact ⟨hquiet, fun st' h => by rw [hnext st' h]⟩

/-- Recording `k/100` overruns no buffer; and where recording and reading report success, the same version is read
back, and after a restart an offer of it is turned down. -/
def VersionKept (put : PutEnv) (get : GetEnv) (k : ℕ) : Prop :=
  ∀ updater : Updater, ∃ code u, sarahUpdaterSetVersion updater (.fin ((k : ℚ) / 100)) put = some (code, u) ∧
    (code = 0 → ∀ version, (sarahUpdaterGetVersion id get u.verFile version).1 = 0 →
      (sarahUpdaterGetVersion id get u.verFile version).2 = .fin ((k : ℚ) / 100) ∧
      ∀ parse md5Sign exeFile env sign, answer parse id env.query = some (.fin ((k : ℚ) / 100), sign) →
        (updaterRound parse id (updaterStart (sarahUpdaterInit id get u) md5Sign exeFile) env).1 = .quiet ∧
        ∀ st', (updaterRound parse id (updaterStart (sarahUpdaterInit id get u) md5Sign exeFile) env).2 = some st' →
          st'.updater = sarahUpdaterInit id get u)

/-- The condition: a version below 10, and no digit but zeros lost between the two calls. -/
def Keepable (put : PutEnv) (get : GetEnv) (k : ℕ) : Prop :=
  k < 1000 ∧ ∀ n m, put.bytes = some n → get.bytes = some m → DigitsKept (min n m) k

theorem VersionKept.keepable {put : PutEnv} {get : GetEnv} {k : ℕ} (h : VersionKept put get k) :
    Keepable put get k := by
  obtain ⟨code, u, hset, hread⟩ := h ⟨.fin 0, none, none⟩
  have hk : k < 1000 := by
    rw [← sprintf2f_length_le_iff]
    by_contra hlen
    rw [sarahUpdaterSetVersion] at hset
    dsimp only at hset
    rw [if_neg hlen] at hset
    cases hset
  refine ⟨hk, fun n m hput hget => ?_⟩
  rw [sarahUpdaterSetVersion_of_lt hk] at hset
  dsimp only at hset
  rw [sarahFilePutBuffer_of_bytes hput, if_pos (by omega)] at hset
  obtain ⟨rfl, rfl⟩ := Prod.mk.inj (Option.some.inj hset)
  have hback := getVersion_setVersion hk (n := n) hget (.fin 0)
  have hsame := (hread rfl (.fin 0) (by rw [hback])).1
  rw [hback] at hsame
  exact (atof_take_iff hk _).mp hsame

theorem Keepable.versionKept {put : PutEnv} {get : GetEnv} {k : ℕ} (h : Keepable put get k) :
    VersionKept put get k := by
  obtain ⟨hk, hkept⟩ := h
  intro updater
  refine ⟨_, _, sarahUpdaterSetVersion_of_lt hk updater put, fun hcode version hread => ?_⟩
  cases hput : put.bytes with
  | none =>
    rw [sarahFilePutBuffer_of_none hput, if_neg (by decide)] at hcode
    exact absurd hcode (by decide)
  | some n =>
    cases hget : get.bytes with
    | none =>
      rw [sarahUpdaterGetVersion, sarahFileGetBuffer_of_none hget] at hread
      exact absurd hread Int.one_ne_zero
    | some m =>
      have hvalue := (atof_take_iff hk _).mpr (hkept n m hput hget)
      have hback (version : Double) : sarahUpdaterGetVersion id get
          (sarahFilePutBuffer put updater.verFile (sprintf2f (.fin ((k : ℚ) / 100))) 0).2 version =
          (0, .fin ((k : ℚ) / 100)) := by
        rw [sarahFilePutBuffer_of_bytes hput, getVersion_setVersion hk hget, hvalue]
      refine ⟨by rw [hback], fun parse md5Sign exeFile env sign hanswer => ?_⟩
      refine updaterRound_of_old hanswer ?_
      show (Double.fin ((k : ℚ) / 100)).le (sarahUpdaterGetVersion id get _ (.fin 0)).2 = true
      rw [hback]
      simp [Double.le]

/-- **A version survives the file and a restart exactly when it is below 10 and the digits that the two calls do not
move are zeros.** -/
theorem versionKept_iff (put : PutEnv) (get : GetEnv) (k : ℕ) : VersionKept put get k ↔ Keepable put get k :=
  ⟨VersionKept.keepable, Keepable.versionKept⟩

/-- Calls without a failure. -/
def plainPut : PutEnv := ⟨true, true, true, some 4⟩

/-- A read that gets four bytes. -/
def plainGet : GetEnv := ⟨true, true, some 4⟩

/-- The text `10.00` and its end do not fit into five bytes. -/
theorem not_versionKept : ¬ ∀ k : ℕ, VersionKept plainPut plainGet k :=
  fun hall => absurd (hall 1000).keepable.1 (by decide)

end Sarah

import SarahClient.Md5.Stream
import SarahClient.Updater.Model

/-!
# Which packages the updater installs

* `downloadPackage_of_succeeds`: what a successful download leaves in `LSB_file` and in `md5_sign`;
* `answer`, `Offers`: what a version response says, and when a round acts on it;
* `keptAfter`, `tracedStep`: the loop, and the round that downloaded the package it keeps;
* `RoundSafe`: what is installed carries the signature of the round's response;
* `Checked`: what earlier offers and downloads must have been; `Traced`: the invariant;
* **`updater_safe`**: in a run whose rounds are all checked all rounds are safe; **`not_updater_safe`**: a package that
  failed its check.
-/

namespace Sarah

/-! ## Downloads -/

/-- The bytes that the network delivers. -/
def DownloadEnv.received (env : DownloadEnv) : List UInt8 := (env.pieces.map Subtype.val).flatten

/-- The bytes that `fwrite` stores, from the `k`-th piece on. -/
def storedPieces (kept : ℕ → ℕ) : List NetPiece → ℕ → List UInt8
  | [], _ => []
  | b :: bs, k => b.1.take (kept k) ++ storedPieces kept bs (k + 1)

/-- The bytes in `LSB_file` after the download. -/
def DownloadEnv.stored (env : DownloadEnv) : List UInt8 := storedPieces env.kept env.pieces 0

/-- The download returns 0. -/
def DownloadEnv.Succeeds (env : DownloadEnv) : Prop :=
  env.opens = true ∧ env.locks = true ∧ env.curlInit = true ∧ env.performs = true ∧ env.httpCode = 200

theorem receivePieces_eq (kept : ℕ → ℕ) (bs : List NetPiece) : ∀ (k : ℕ) (package : Package) (file : List UInt8),
    receivePieces kept bs k package file =
      ({ package with md5Context := (bs.map Subtype.val).foldl celMd5Update package.md5Context },
        file ++ storedPieces kept bs k) := by
  induction bs with
  | nil =>
    intro k package file
    rw [receivePieces, storedPieces, List.append_nil, List.map_nil, List.foldl_nil]
  | cons b bs ih =>
    intro k package file
    rw [receivePieces, sarahUpdaterPackageUpdate, storedPieces, List.map_cons, List.foldl_cons, ← List.append_assoc]
    dsimp only
    rw [ih]

/-- The package after `sarah_updater_package_end`. -/
def DownloadEnv.package (env : DownloadEnv) : Package :=
  sarahUpdaterPackageEnd { sarahUpdaterPackageStart with
    md5Context := (env.pieces.map Subtype.val).foldl celMd5Update sarahUpdaterPackageStart.md5Context }

theorem md5Fed_pieces (env : DownloadEnv) : (env.pieces.map Subtype.val).map md5Fed = env.pieces.map Subtype.val := by
  apply map_md5Fed_of_short
  intro p hp
  obtain ⟨b, -, rfl⟩ := List.mem_map.mp hp
  exact Nat.lt_of_le_of_lt b.2 (by decide)

theorem DownloadEnv.package_md5Sign (env : DownloadEnv) : env.package.md5Sign = md5Hex env.received ++ [0] := by
  simp only [DownloadEnv.package, sarahUpdaterPackageEnd, sarahUpdaterPackageStart]
  rw [celMd5_stream List.length_replicate, md5Fed_pieces, md5Hex, DownloadEnv.received]

/-- **A successful download** leaves what was kept in the file. -/
theorem downloadPackage_of_succeeds {env : DownloadEnv} (h : env.Succeeds) (lsbFile : Option (List UInt8)) :
    downloadPackage env lsbFile = (0, env.package, some env.stored) := by
  obtain ⟨h₁, h₂, h₃, h₄, h₅⟩ := h
  simp only [downloadPackage, h₁, h₂, h₃, h₄, h₅, receivePieces_eq, List.nil_append]
  rfl

theorem downloadPackage_of_not_succeeds {env : DownloadEnv} (h : ¬ env.Succeeds) (lsbFile : Option (List UInt8)) :
    (downloadPackage env lsbFile).1 ≠ 0 := by
  unfold downloadPackage
  by_cases h₁ : env.opens = false
  · rw [if_pos h₁]
    exact show (1 : ℤ) ≠ 0 by decide
  rw [if_neg h₁]
  by_cases h₂ : env.locks = false
  · rw [if_pos h₂]
    exact show (2 : ℤ) ≠ 0 by decide
  rw [if_neg h₂]
  by_cases h₃ : env.curlInit = false
  · rw [if_pos h₃]
    exact show (2 : ℤ) ≠ 0 by decide
  rw [if_neg h₃]
  have h₄ : env.performs = false ∨ env.httpCode ≠ 200 := by
    by_contra hc
    rw [not_or] at hc
    exact h ⟨Bool.not_eq_false _ ▸ h₁, Bool.not_eq_false _ ▸ h₂, Bool.not_eq_false _ ▸ h₃,
      Bool.not_eq_false _ ▸ hc.1, not_not.mp hc.2⟩
  show (if env.performs = false ∨ env.httpCode ≠ 200 then (3 : ℤ) else 0) ≠ 0
  rw [if_pos h₄]
  decide

theorem strncmpEq_sign_iff {sign : List UInt8} (h0 : 0 ∉ sign) (tail msg : List UInt8) :
    strncmpEq (sign ++ 0 :: tail) (md5Hex msg ++ [0]) 32 = true ↔ md5Hex msg = sign.take 32 := by
  rw [strncmpEq, decide_eq_true_eq, cstr_append_zero h0, cstr_append_zero (zero_notMem_md5Hex msg),
    List.take_of_length_le (Nat.le_of_eq (length_md5Hex msg))]
  exact eq_comm

/-! ## Version responses -/

variable (parse : List UInt8 → Option CJson) (toFloat : Double → Double)

/-- The version and the signature that a response carries. -/
def answer (env : QueryEnv) : Option (Double × List UInt8) :=
  if env.curlInit = true ∧ env.performs = true ∧ env.httpCode = 200 then
    (parse (cstr env.text)).bind fun json =>
      match json.getObjectItem (lit "errno"), json.getObjectItem (lit "data") with
      | some cursor, some data =>
        if cursor.valueint = 0 then
          match data.getObjectItem (lit "version"), data.getObjectItem (lit "md5_sign") with
          | some (.number v), some (.string s) => some (toFloat v, cstr s)
          | _, _ => none
        else none
      | _, _ => none
  else none

/-- The round is not stopped at the top of the loop. -/
def RoundEnv.Runs (env : RoundEnv) : Prop := env.status ≠ .exit ∧ env.status ≠ .stop ∧ env.sameParent = true

/-- The round's response offers the version `v` with `sign`, and `v` is newer than what is installed. -/
structure Offers (st : UpdaterState) (env : RoundEnv) (v : Double) (sign : List UInt8) : Prop where
  runs : env.Runs
  answer : answer parse toFloat env.query = some (v, sign)
  newer : v.le st.currentVersion = false ∧ v.le st.updater.version = false

variable {parse toFloat}

theorem getLatestVersion_of_answer {env : QueryEnv} {v : Double} {sign : List UInt8}
    (h : answer parse toFloat env = some (v, sign)) (version : UpdaterVersion) :
    0 ∉ sign ∧ getLatestVersion parse toFloat env version =
      if sign.length ≤ 35 then some (0, ⟨v, sign ++ 0 :: version.md5Sign.drop (sign.length + 1)⟩) else none := by
  unfold answer at h
  split_ifs at h with hok
  obtain ⟨h₁, h₂, h₃⟩ := hok
  obtain ⟨json, hparse, h⟩ := Option.bind_eq_some_iff.mp h
  simp only [getLatestVersion, h₁, h₂, h₃, hparse]
  cases herr : json.getObjectItem (lit "errno") with
  | none => simp only [herr] at h; cases h
  | some cursor =>
    cases hdata : json.getObjectItem (lit "data") with
    | none => simp only [herr, hdata] at h; cases h
    | some data =>
      simp only [herr, hdata] at h
      split_ifs at h with hcur
      simp only [hcur]
      split at h
      · rename_i v' s hver hsign
        cases h
        refine ⟨zero_notMem_cstr s, ?_⟩
        simp only [readVersion, hver, hsign]
        rfl
      · cases h

theorem eq_of_code_zero {code : ℤ} {version version' : UpdaterVersion} (h : some (code, version) = some (0, version')) :
    code = 0 ∧ version' = version := by
  cases h
  exact ⟨rfl, rfl⟩

/-- A query that returns 0 has read a version and a signature, or has left `version` alone. -/
theorem getLatestVersion_zero {env : QueryEnv} {version version' : UpdaterVersion}
    (h : getLatestVersion parse toFloat env version = some (0, version')) :
    version' = version ∨ ∃ v sign, answer parse toFloat env = some (v, sign) ∧ sign.length ≤ 35 := by
  unfold getLatestVersion at h
  split_ifs at h with h₁ h₂
  · exact Or.inl (eq_of_code_zero h).2
  · exact Or.inl (eq_of_code_zero h).2
  cases hparse : parse (cstr env.text) with
  | none =>
    rw [hparse] at h
    exact Or.inl (eq_of_code_zero h).2
  | some json =>
    simp only [hparse] at h
    cases herr : json.getObjectItem (lit "errno") with
    | none => simp only [herr] at h; cases h
    | some cursor =>
      cases hdata : json.getObjectItem (lit "data") with
      | none =>
        -- the server's errno -10 gives 0
        simp only [herr, hdata] at h
        exact Or.inl (eq_of_code_zero h).2
      | some data =>
        simp only [herr, hdata] at h
        split_ifs at h with hcur
        · exact Or.inl (eq_of_code_zero h).2
        · rw [not_or] at h₂
          have hok : env.curlInit = true ∧ env.performs = true ∧ env.httpCode = 200 :=
            ⟨Bool.not_eq_false _ ▸ h₁, Bool.not_eq_false _ ▸ h₂.1, not_not.mp h₂.2⟩
          unfold readVersion at h
          split at h
          · rename_i v hver
            split at h
            · rename_i s hsign
              dsimp only at h
              split_ifs at h with hlen
              refine Or.inr ⟨toFloat v, cstr s, ?_, hlen⟩
              simp only [answer, if_pos hok, hparse, Option.bind_some, herr, hdata, if_pos (not_not.mp hcur), hver,
                hsign]
            · exact absurd (eq_of_code_zero h).1 (by decide)
          · exact absurd (eq_of_code_zero h).1 (by decide)

/-! ## Rounds -/

/-- The file has the signature. -/
def HasSign (file : Option (List UInt8)) (sign : List UInt8) : Prop :=
  ∃ bytes, file = some bytes ∧ md5Hex bytes = sign

/-- The round that downloaded the package which is kept for the next round: `kept` is the one of the package that was
kept before. -/
def keptAfter (st : UpdaterState) (kept : Option RoundEnv) (env : RoundEnv) (st' : UpdaterState) : Option RoundEnv :=
  if st'.downloadStatus = 1 then if st.downloadStatus = 1 then kept else some env else none

/-- A round, with the round that downloaded the kept package beside the state. -/
def tracedStep (parse : List UInt8 → Option CJson) (toFloat : Double → Double) (s : UpdaterState × Option RoundEnv)
    (env : RoundEnv) : Option ((UpdaterState × Option RoundEnv) × RoundLog) :=
  (updaterStep parse toFloat s.1 env).map fun r => ((r.1, keptAfter s.1 s.2 env r.1), r.2)

/-- **The property of a round**: the response's signature stays inside the struct; what is installed has that signature,
and what is recorded is the version that came with it; and a package kept from an earlier round passed its check there,
and is recorded as the version that it was downloaded for. -/
structure RoundSafe (parse : List UInt8 → Option CJson) (toFloat : Double → Double) (kept : Option RoundEnv)
    (env : RoundEnv) (log : RoundLog) : Prop where
  inside : env.Runs → ∀ v sign, answer parse toFloat env.query = some (v, sign) → sign.length ≤ 35
  signed : ∀ file, log.installed = some file → ∃ v sign, answer parse toFloat env.query = some (v, sign) ∧
    HasSign file sign ∧ ∀ w, log.recorded = some w → w = v
  passed : ∀ earlier, kept = some earlier → ∀ file, log.installed = some file → ∃ v sign,
    answer parse toFloat earlier.query = some (v, sign) ∧ md5Hex earlier.download.received = sign
  sameVersion : ∀ earlier, kept = some earlier → ∀ w, log.recorded = some w → ∃ sign,
    answer parse toFloat earlier.query = some (w, sign)

/-- What a round needs: a signature that stays inside the struct; where a newer version is offered and no package is
kept, a download that passes its check has been stored with the MD5 of what was received, and the signature is no
longer than the check; where a package is kept, the offer is the one that it was downloaded for, and it passed its
check. -/
structure Checked (parse : List UInt8 → Option CJson) (toFloat : Double → Double) (s : UpdaterState × Option RoundEnv)
    (env : RoundEnv) : Prop where
  inside : env.Runs → ∀ v sign, answer parse toFloat env.query = some (v, sign) → sign.length ≤ 35
  fresh : s.2 = none → ∀ v sign, Offers parse toFloat s.1 env v sign → env.download.Succeeds →
    md5Hex env.download.received = sign.take 32 →
    sign.length ≤ 32 ∧ md5Hex env.download.stored = md5Hex env.download.received
  kept : ∀ earlier, s.2 = some earlier → ∀ v sign, Offers parse toFloat s.1 env v sign →
    answer parse toFloat earlier.query = some (v, sign) ∧ md5Hex earlier.download.received = sign

theorem roundEnd_next {env : RoundEnv} {st st' : UpdaterState} {log : RoundLog}
    (h : (roundEnd env st log).2 = some st') : st' = st := by
  unfold roundEnd at h
  split_ifs at h
  cases h
  rfl

/-- What step 3 does: it installs the file and records at most the round's version; then the package is kept, or the
version is the installed one. -/
theorem installStep_spec (env : RoundEnv) (st : UpdaterState) :
    (installStep env st).1.installed = some st.updater.lsbFile ∧
      (∀ w, (installStep env st).1.recorded = some w → w = st.version.value) ∧
      ∀ st', (installStep env st).2 = some st' →
        (st'.currentVersion = st.currentVersion ∧ st'.downloadStatus = st.downloadStatus ∧
          st'.updater.lsbFile = st.updater.lsbFile) ∨
        (st'.currentVersion = st.version.value ∧ st'.downloadStatus = 0) := by
  unfold installStep
  cases hfile : st.updater.lsbFile with
  | none =>
    dsimp only
    refine ⟨rfl, ?_, ?_⟩
    · intro w hw
      cases hw
    · intro st' h
      rw [roundEnd_next h]
      exact .inl ⟨rfl, rfl, hfile⟩
  | some package =>
    dsimp only
    split_ifs with hcode
    · refine ⟨rfl, ?_, ?_⟩
      · intro w hw
        cases hw
      · intro st' h
        rw [roundEnd_next h]
        exact .inl ⟨rfl, rfl, hfile⟩
    · split
      · refine ⟨rfl, ?_, ?_⟩
        · intro w hw
          cases hw
          rfl
        · intro st' h
          cases h
      · refine ⟨rfl, ?_, ?_⟩
        · intro w hw
          cases hw
          rfl
        · intro st' h
          rw [roundEnd_next h]
          exact .inr ⟨rfl, rfl⟩

theorem updaterRound_of_running (st : UpdaterState) {env : RoundEnv} (hrun : env.Runs) :
    updaterRound parse toFloat st env =
      match getLatestVersion parse toFloat env.query { st.version with value := .fin 0 } with
      | none => (.quiet, none)
      | some r =>
        if r.1 ≠ 0 then roundEnd env { st with version := r.2 } .quiet
        else if r.2.value.le st.currentVersion ∨ r.2.value.le st.updater.version then
          roundEnd env { st with version := r.2 } .quiet
        else downloadStep env { st with version := r.2 } := by
  obtain ⟨hexit, hstop, hparent⟩ := hrun
  unfold updaterRound
  cases hs : env.status with
  | exit => exact absurd hs hexit
  | stop => exact absurd hs hstop
  | _ =>
    simp only [hparent]
    rfl

theorem updaterRound_of_not_running (st : UpdaterState) {env : RoundEnv} (hrun : ¬ env.Runs) :
    (updaterRound parse toFloat st env).1 = .quiet ∧
      ∀ st', (updaterRound parse toFloat st env).2 = some st' → st' = st := by
  unfold updaterRound
  cases hs : env.status with
  | exit => exact ⟨rfl, fun st' h => by cases h⟩
  | stop => exact ⟨rfl, fun st' h => by cases h; rfl⟩
  | _ =>
    have hparent : env.sameParent = false := by
      by_contra hc
      exact hrun ⟨by rw [hs]; decide, by rw [hs]; decide, Bool.not_eq_false _ ▸ hc⟩
    dsimp only
    rw [if_pos hparent]
    exact ⟨rfl, fun st' h => by cases h⟩

/-- A round that gets past the version test goes on with the response's version and signature. -/
theorem updaterRound_of_offers {st : UpdaterState} {env : RoundEnv} {v : Double} {sign : List UInt8}
    (h : Offers parse toFloat st env v sign) (hinside : sign.length ≤ 35) : updaterRound parse toFloat st env =
      downloadStep env { st with version := ⟨v, sign ++ 0 :: st.version.md5Sign.drop (sign.length + 1)⟩ } := by
  have hget := (getLatestVersion_of_answer h.answer { st.version with value := .fin 0 }).2
  rw [if_pos hinside] at hget
  rw [updaterRound_of_running st h.runs]
  simp only [hget, h.newer.1, h.newer.2]
  rfl

/-- A round without an offer installs nothing and keeps the versions, the flag and the package. -/
theorem updaterRound_of_not_offers {st : UpdaterState} {env : RoundEnv}
    (hpos : (Double.fin 0).le st.currentVersion = true)
    (h : ∀ v sign, ¬ Offers parse toFloat st env v sign) : (updaterRound parse toFloat st env).1 = .quiet ∧
      ∀ st', (updaterRound parse toFloat st env).2 = some st' → ∃ version, st' = { st with version := version } := by
  by_cases hrun : env.Runs
  · have hround : updaterRound parse toFloat st env = _ := updaterRound_of_running st hrun
    cases hget : getLatestVersion parse toFloat env.query { st.version with value := .fin 0 } with
    | none =>
      simp only [hround, hget]
      exact ⟨trivial, fun st' h => by cases h⟩
    | some r =>
      simp only [hround, hget]
      split_ifs with hcode hold
      · exact ⟨rfl, fun st' h => ⟨_, roundEnd_next h⟩⟩
      · exact ⟨rfl, fun st' h => ⟨_, roundEnd_next h⟩⟩
      · -- the version test was passed, so there was an offer
        exfalso
        rw [not_or, Bool.not_eq_true, Bool.not_eq_true] at hold
        have hr : r = (0, r.2) := by rw [← not_not.mp hcode]
        rw [hr] at hget
        rcases getLatestVersion_zero hget with hver | ⟨v, sign, hans, hfits⟩
        · have := hold.1
          rw [hver, hpos] at this
          cases this
        · have hget' := (getLatestVersion_of_answer hans { st.version with value := .fin 0 }).2
          rw [if_pos hfits, hget, Option.some.injEq, Prod.mk.injEq] at hget'
          rw [hget'.2] at hold
          exact h v sign ⟨hrun, hans, hold⟩
  · obtain ⟨hquiet, hnext⟩ := updaterRound_of_not_running st hrun
    exact ⟨hquiet, fun st' h => ⟨st.version, hnext st' h⟩⟩

/-- What step 2 goes on to: a kept package is installed; a new one is, if its first 32 characters pass the check. -/
theorem downloadStep_cases {env : RoundEnv} {st : UpdaterState} {sign tail : List UInt8} (h0 : 0 ∉ sign)
    (hsign : st.version.md5Sign = sign ++ 0 :: tail) :
    (st.downloadStatus = 1 ∧ downloadStep env st = installStep env st) ∨
      (st.downloadStatus ≠ 1 ∧ ¬ env.download.Succeeds ∧ ∃ file, downloadStep env st =
        roundEnd env { st with updater := { st.updater with lsbFile := file } } .quiet) ∨
      (st.downloadStatus ≠ 1 ∧ env.download.Succeeds ∧ ∃ st₁,
        st₁ = { st with downloadStatus := 1, updater := { st.updater with lsbFile := some env.download.stored } } ∧
        ((md5Hex env.download.received = sign.take 32 ∧ downloadStep env st = installStep env st₁) ∨
          (md5Hex env.download.received ≠ sign.take 32 ∧ downloadStep env st = roundEnd env st₁ .quiet))) := by
  unfold downloadStep
  by_cases hflag : st.downloadStatus = 1
  · exact .inl ⟨hflag, if_pos hflag⟩
  rw [if_neg hflag]
  by_cases hsucc : env.download.Succeeds
  · refine .inr (.inr ⟨hflag, hsucc, _, rfl, ?_⟩)
    have hcheck : strncmpEq st.version.md5Sign env.download.package.md5Sign 32 = true ↔
        md5Hex env.download.received = sign.take 32 := by
      rw [hsign, DownloadEnv.package_md5Sign, strncmpEq_sign_iff h0]
    rw [downloadPackage_of_succeeds hsucc]
    dsimp only
    rw [if_neg (not_not.mpr rfl)]
    by_cases hmatch : md5Hex env.download.received = sign.take 32
    · exact .inl ⟨hmatch, if_pos (hcheck.mpr hmatch)⟩
    · exact .inr ⟨hmatch, if_neg (mt hcheck.mp hmatch)⟩
  · exact .inr (.inl ⟨hflag, hsucc, _, if_pos (downloadPackage_of_not_succeeds hsucc _)⟩)

theorem roundSafe_quiet {kept : Option RoundEnv} {env : RoundEnv}
    (hinside : env.Runs → ∀ v sign, answer parse toFloat env.query = some (v, sign) → sign.length ≤ 35) :
    RoundSafe parse toFloat kept env .quiet :=
  ⟨hinside, fun _ h => (by cases h), fun _ _ _ h => (by cases h), fun _ _ _ h => by cases h⟩

theorem roundSafe_install {kept : Option RoundEnv} {env : RoundEnv} {st : UpdaterState} {v : Double} {sign : List UInt8}
    (hanswer : answer parse toFloat env.query = some (v, sign)) (hinside : sign.length ≤ 35)
    (hsign : HasSign st.updater.lsbFile sign) (hv : st.version.value = v)
    (hkept : ∀ earlier, kept = some earlier →
      answer parse toFloat earlier.query = some (v, sign) ∧ md5Hex earlier.download.received = sign) :
    RoundSafe parse toFloat kept env (installStep env st).1 := by
  obtain ⟨hinst, hrec, -⟩ := installStep_spec env st
  refine ⟨fun _ v' sign' h => ?_, fun file hfile => ?_, fun earlier h file _ => ?_, fun earlier h w hw => ?_⟩
  · rw [hanswer, Option.some.injEq, Prod.mk.injEq] at h
    rw [← h.2]
    exact hinside
  · rw [hinst] at hfile
    cases hfile
    exact ⟨v, sign, hanswer, hsign, fun w hw => (hrec w hw).trans hv⟩
  · exact ⟨v, sign, hkept earlier h⟩
  · rw [hrec w hw, hv]
    exact ⟨sign, (hkept earlier h).1⟩

/-! ## Runs -/

/-- What holds in every round: the installed version is positive; a package is kept exactly if the flag says so, the
file is what its download stored, and one that passed its check was stored with its MD5. -/
structure Traced (parse : List UInt8 → Option CJson) (toFloat : Double → Double) (s : UpdaterState × Option RoundEnv) :
    Prop where
  positive : (Double.fin 0).le s.1.currentVersion = true
  none : s.1.downloadStatus ≠ 1 → s.2 = none
  kept : s.1.downloadStatus = 1 → ∃ earlier, s.2 = some earlier ∧ s.1.updater.lsbFile = some earlier.download.stored ∧
    ∀ v sign, answer parse toFloat earlier.query = some (v, sign) → md5Hex earlier.download.received = sign →
      md5Hex earlier.download.stored = sign

theorem take_sign {sign msg : List UInt8} (h : md5Hex msg = sign) : md5Hex msg = sign.take 32 := by
  rw [← h, List.take_of_length_le (Nat.le_of_eq (length_md5Hex msg))]

/-- **One round**: a checked round is safe. -/
theorem roundSafe_of_checked {s : UpdaterState × Option RoundEnv} (hs : Traced parse toFloat s) {env : RoundEnv}
    (hcheck : Checked parse toFloat s env) :
    RoundSafe parse toFloat s.2 env (updaterRound parse toFloat s.1 env).1 := by
  by_cases hoff : ∃ v sign, Offers parse toFloat s.1 env v sign
  · obtain ⟨v, sign, hoff⟩ := hoff
    have hinside := hcheck.inside hoff.runs v sign hoff.answer
    have h0 := (getLatestVersion_of_answer hoff.answer s.1.version).1
    rw [updaterRound_of_offers hoff hinside]
    obtain ⟨hflag, heq⟩ | ⟨hflag, -, file, heq⟩ | ⟨hflag, hsucc, st₁, rfl, ⟨hmatch, heq⟩ | ⟨-, heq⟩⟩ :=
      @downloadStep_cases env
        { s.1 with version := ⟨v, sign ++ 0 :: s.1.version.md5Sign.drop (sign.length + 1)⟩ } sign _ h0 rfl
    · -- the package that is kept
      obtain ⟨earlier, hearlier, hfile, hstored⟩ := hs.kept hflag
      obtain ⟨hanswer, hreceived⟩ := hcheck.kept earlier hearlier v sign hoff
      rw [heq]
      refine roundSafe_install hoff.answer hinside ⟨_, hfile, hstored v sign hanswer hreceived⟩ rfl fun e he => ?_
      rw [hearlier, Option.some.injEq] at he
      rw [← he]
      exact ⟨hanswer, hreceived⟩
    · rw [heq]
      exact roundSafe_quiet hcheck.inside
    · -- the package that was downloaded in this round
      have hnone := hs.none hflag
      obtain ⟨hlen, hstored⟩ := hcheck.fresh hnone v sign hoff hsucc hmatch
      rw [List.take_of_length_le hlen] at hmatch
      rw [heq]
      refine roundSafe_install hoff.answer hinside ⟨_, rfl, hstored.trans hmatch⟩ rfl fun e he => ?_
      rw [hnone] at he
      cases he
    · rw [heq]
      exact roundSafe_quiet hcheck.inside
  · rw [(updaterRound_of_not_offers hs.positive fun v sign h => hoff ⟨v, sign, h⟩).1]
    exact roundSafe_quiet hcheck.inside

/-- A package that stays is the one that was kept, or the one that was downloaded. -/
theorem traced_kept {s : UpdaterState × Option RoundEnv}
    (hs : Traced parse toFloat s) {env : RoundEnv} {st' : UpdaterState}
    (hpos : (Double.fin 0).le st'.currentVersion = true) (hflag : s.1.downloadStatus = 1)
    (hstatus : st'.downloadStatus = 1)
    (hfile : st'.updater.lsbFile = s.1.updater.lsbFile) : Traced parse toFloat (st', keptAfter s.1 s.2 env st') := by
  rw [keptAfter, if_pos hstatus, if_pos hflag]
  obtain ⟨earlier, hearlier, hlsb, hstored⟩ := hs.kept hflag
  exact ⟨hpos, fun h => absurd hstatus h, fun _ => ⟨earlier, hearlier, hfile.trans hlsb, hstored⟩⟩

theorem traced_none {s : UpdaterState × Option RoundEnv} {env : RoundEnv} {st' : UpdaterState}
    (hpos : (Double.fin 0).le st'.currentVersion = true) (hstatus : st'.downloadStatus ≠ 1) :
    Traced parse toFloat (st', keptAfter s.1 s.2 env st') := by
  rw [keptAfter, if_neg hstatus]
  exact ⟨hpos, fun _ => rfl, fun h => absurd h hstatus⟩

/-- **The step lemma**: a checked round keeps the invariant. -/
theorem Traced.step {s : UpdaterState × Option RoundEnv} (hs : Traced parse toFloat s) {env : RoundEnv}
    (hcheck : Checked parse toFloat s env) {r : (UpdaterState × Option RoundEnv) × RoundLog}
    (h : tracedStep parse toFloat s env = some r) : Traced parse toFloat r.1 := by
  obtain ⟨q, hq, rfl⟩ := Option.map_eq_some_iff.mp h
  obtain ⟨st', hst', rfl⟩ := Option.map_eq_some_iff.mp hq
  -- a state with the version, the flag and the file of the old one
  have hsame (hcur : st'.currentVersion = s.1.currentVersion) (hstatus : st'.downloadStatus = s.1.downloadStatus)
      (hfile : s.1.downloadStatus = 1 → st'.updater.lsbFile = s.1.updater.lsbFile) :
      Traced parse toFloat (st', keptAfter s.1 s.2 env st') := by
    have hpos : (Double.fin 0).le st'.currentVersion = true := by
      rw [hcur]
      exact hs.positive
    by_cases hflag : s.1.downloadStatus = 1
    · exact traced_kept hs hpos hflag (hstatus.trans hflag) (hfile hflag)
    · exact traced_none hpos (by rw [hstatus]; exact hflag)
  by_cases hoff : ∃ v sign, Offers parse toFloat s.1 env v sign
  · obtain ⟨v, sign, hoff⟩ := hoff
    have hinside := hcheck.inside hoff.runs v sign hoff.answer
    have h0 := (getLatestVersion_of_answer hoff.answer s.1.version).1
    have hpos : (Double.fin 0).le v = true := Double.le_trans hs.positive (Double.le_total _ _ hoff.newer.1)
    rw [updaterRound_of_offers hoff hinside] at hst'
    -- the package of this round, installed or not
    have hnew (hflag : s.1.downloadStatus ≠ 1) (hsucc : env.download.Succeeds)
        (hcur : st'.currentVersion = s.1.currentVersion) (hstatus : st'.downloadStatus = 1)
        (hfile : st'.updater.lsbFile = some env.download.stored) :
        Traced parse toFloat (st', keptAfter s.1 s.2 env st') := by
      rw [keptAfter, if_pos hstatus, if_neg hflag]
      refine ⟨by rw [hcur]; exact hs.positive, fun h => absurd hstatus h, fun _ => ⟨env, rfl, hfile, ?_⟩⟩
      intro v' sign' hanswer hreceived
      rw [hoff.answer, Option.some.injEq, Prod.mk.injEq] at hanswer
      rw [← hanswer.2] at hreceived ⊢
      exact (hcheck.fresh (hs.none hflag) v sign hoff hsucc (take_sign hreceived)).2.trans hreceived
    obtain ⟨hflag, heq⟩ | ⟨hflag, -, file, heq⟩ | ⟨hflag, hsucc, st₁, rfl, ⟨-, heq⟩ | ⟨-, heq⟩⟩ :=
      @downloadStep_cases env
        { s.1 with version := ⟨v, sign ++ 0 :: s.1.version.md5Sign.drop (sign.length + 1)⟩ } sign _ h0 rfl
    · rw [heq] at hst'
      obtain ⟨hcur, hstatus, hfile⟩ | ⟨hcur, hstatus⟩ := (installStep_spec env _).2.2 st' hst'
      · exact hsame hcur hstatus fun _ => hfile
      · exact traced_none (by rw [hcur]; exact hpos) (by rw [hstatus]; decide)
    · rw [heq] at hst'
      rw [roundEnd_next hst']
      exact traced_none hs.positive hflag
    · rw [heq] at hst'
      obtain ⟨hcur, hstatus, hfile⟩ | ⟨hcur, hstatus⟩ := (installStep_spec env _).2.2 st' hst'
      · exact hnew hflag hsucc hcur hstatus hfile
      · exact traced_none (by rw [hcur]; exact hpos) (by rw [hstatus]; decide)
    · rw [heq] at hst'
      have hnext := roundEnd_next hst'
      exact hnew hflag hsucc (by rw [hnext]) (by rw [hnext]) (by rw [hnext])
  · obtain ⟨version, hnext⟩ := (updaterRound_of_not_offers hs.positive fun v sign h => hoff ⟨v, sign, h⟩).2 st' hst'
    exact hsame (by rw [hnext]) (by rw [hnext]) fun _ => by rw [hnext]

/-- **Which runs install only what was signed.** Over any number of rounds, if every round is checked, every round is
safe. -/
theorem updater_safe (parse : List UInt8 → Option CJson) (toFloat : Double → Double) (updater : Updater)
    (md5Sign : List UInt8) (exeFile : Option (List UInt8)) (rounds : List RoundEnv)
    (h : Machine.Guarded (tracedStep parse toFloat) (Checked parse toFloat)
      (updaterStart updater md5Sign exeFile, none) rounds) :
    Machine.Guarded (tracedStep parse toFloat)
      (fun s env => RoundSafe parse toFloat s.2 env (updaterRound parse toFloat s.1 env).1)
      (updaterStart updater md5Sign exeFile, none) rounds := by
  refine Machine.guarded_of_guarded_invariant (Traced parse toFloat) (fun s env r hs hcheck hr => hs.step hcheck hr)
    (fun s env hs hcheck => roundSafe_of_checked hs hcheck) rounds _ ⟨?_, fun _ => rfl, ?_⟩ h
  · show (Double.fin 0).le sarahVersion = true
    decide +kernel
  · intro hflag
    cases hflag

/-- A response that offers version 2 with the MD5 of `abc`. -/
def offerTwo : CJson :=
  .object [(lit "errno", .number (.fin 0)),
    (lit "data", .object [(lit "version", .number (.fin 2)),
      (lit "md5_sign", .string (lit "900150983cd24fb0d6963f7d28e17f72"))])]

/-- The text of the response. -/
def offerText : List UInt8 :=
  lit "\x7b\"errno\":0,\"data\":\x7b\"version\":2,\"md5_sign\":\"900150983cd24fb0d6963f7d28e17f72\"\x7d\x7d"

/-- A parser that reads this text. -/
def parseOffer (text : List UInt8) : Option CJson := if text = offerText then some offerTwo else none

/-- The server offers version 2 and sends the piece; the installation fails at its first read. -/
def packageRound (piece : NetPiece) : RoundEnv where
  status := .ready
  statusEnd := .ready
  sameParent := true
  query := ⟨true, true, 200, offerText⟩
  download := ⟨true, true, true, [piece], fun _ => piece.1.length, true, 200⟩
  install := fun package => ⟨true, true, true, true, true, ⟨[], true, List.nil_prefix, fun h => by cases h⟩,
    fun _ => .fail⟩
  put := ⟨true, true, true, some 4⟩
  kills := [true]

theorem answer_packageRound (piece : NetPiece) : answer parseOffer id (packageRound piece).query =
    some (.fin 2, lit "900150983cd24fb0d6963f7d28e17f72") := by
  show answer parseOffer id ⟨true, true, 200, offerText⟩ = _
  decide +kernel

/-- The bytes `abc`. -/
def abcPiece : NetPiece := ⟨lit "abc", by decide⟩

theorem received_abc : md5Hex (packageRound abcPiece).download.received = lit "900150983cd24fb0d6963f7d28e17f72" := by
  decide +kernel

/-- The package is downloaded and not installed, and the next round tries again with the package that is kept. -/
theorem updater_safe_again : Machine.Guarded (tracedStep parseOffer id)
    (fun s env => RoundSafe parseOffer id s.2 env (updaterRound parseOffer id s.1 env).1)
    (updaterStart ⟨.fin 1, none, none⟩ [] none, none) [packageRound abcPiece, packageRound abcPiece] := by
  have hanswer {v : Double} {sign : List UInt8}
    (h : answer parseOffer id (packageRound abcPiece).query = some (v, sign)) :
      sign = lit "900150983cd24fb0d6963f7d28e17f72" ∧ v = .fin 2 := by
    rw [answer_packageRound, Option.some.injEq, Prod.mk.injEq] at h
    exact ⟨h.2.symm, h.1.symm⟩
  have hinside : (packageRound abcPiece).Runs → ∀ v sign,
      answer parseOffer id (packageRound abcPiece).query = some (v, sign) → sign.length ≤ 35 := by
    intro _ v sign h
    rw [(hanswer h).1]
    decide
  refine updater_safe parseOffer id ⟨.fin 1, none,
    none⟩ [] none _ ⟨⟨hinside, fun _ v sign hoff _ _ => ?_, fun _ h => (by cases h)⟩, ?_⟩
  · rw [(hanswer hoff.answer).1]
    exact ⟨by decide, by decide +kernel⟩
  · intro r hr
    have hkept : r.1.2 = some (packageRound abcPiece) := by
      obtain ⟨q, hq, rfl⟩ := Option.map_eq_some_iff.mp hr
      have hstatus : q.1.downloadStatus = 1 := by
        have hone : ((updaterStep parseOffer id (updaterStart ⟨.fin 1, none, none⟩ [] none)
            (packageRound abcPiece)).map fun q => q.1.downloadStatus) = some 1 := by decide +kernel
        rw [hq] at hone
        exact Option.some.inj hone
      show keptAfter _ _ _ q.1 = _
      rw [keptAfter, if_pos hstatus]
      rfl
    refine ⟨⟨hinside, fun h => ?_, fun earlier h v sign hoff => ?_⟩, fun _ _ => trivial⟩
    · rw [hkept] at h
      cases h
    · rw [hkept, Option.some.injEq] at h
      rw [← h, (hanswer hoff.answer).1, (hanswer hoff.answer).2]
      exact ⟨answer_packageRound _, received_abc⟩

/-- The server sends the byte `x`: the package that failed its check in the first round is installed in the second. -/
theorem not_updater_safe : ¬ Machine.Guarded (tracedStep parseOffer id)
    (fun s env => RoundSafe parseOffer id s.2 env (updaterRound parseOffer id s.1 env).1)
    (updaterStart ⟨.fin 1, none, none⟩ [] none, none)
    [packageRound ⟨lit "x", by decide⟩, packageRound ⟨lit "x", by decide⟩] := by
  intro h
  have hstep : updaterStep parseOffer id (updaterStart ⟨.fin 1, none, none⟩ [] none)
    (packageRound ⟨lit "x", by decide⟩) =
      some (⟨⟨.fin 1, none, some (lit "x")⟩, sarahVersion, 1,
        ⟨.fin 2, lit "900150983cd24fb0d6963f7d28e17f72" ++ [0]⟩, none⟩, .quiet) := by decide +kernel
  have hfirst := congrArg (Option.map fun r : UpdaterState × RoundLog => ((r.1, keptAfter
    (updaterStart ⟨.fin 1, none, none⟩ [] none) none (packageRound ⟨lit "x", by decide⟩) r.1), r.2)) hstep
  obtain ⟨hsecond, -⟩ := h.2 _ hfirst
  obtain ⟨v, sign, hans, ⟨bytes, hbytes, hsign⟩, -⟩ := hsecond.signed (some (lit "x")) (by decide +kernel)
  cases hbytes
  rw [answer_packageRound] at hans
  cases hans
  exact absurd hsign (by decide +kernel)

end Sarah

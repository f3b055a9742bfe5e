import SarahClient.Booter.Model
import SarahClient.Json
import SarahClient.Lib.FileBytes
import SarahClient.Md5.Model
import SarahClient.Strbuff.Model
import SarahClient.Updater.Install

/-!
# The updater application of `app_updater.c`

`parse` stands for `cJSON_Parse` on a C string, `toFloat` for the cast of a `double` to `float`.

* `getLatestVersion`: the version query;
* `DownloadEnv`, `downloadPackage`: the download into `LSB_file`, with its running MD5;
* `sarahFilePutBuffer`, `sarahUpdaterSetVersion`: recording an installed version;
* `UpdaterState`, `RoundEnv`, `updaterRound`: one round of the loop of `sarah_updater_application`;
* `updaterStep`: the rounds one after the other.
-/

namespace Sarah

open FileBytes

/-! ## The version query -/

/-- `sarah_updater_version_t`. -/
structure UpdaterVersion where
  value : Double
  md5Sign : List UInt8
  deriving DecidableEq

variable (parse : List UInt8 → Option CJson) (toFloat : Double → Double)

/-- The part of `_get_latest_version` that reads `data`. -/
def readVersion (data : CJson) (version : UpdaterVersion) : Option (ℤ × UpdaterVersion) :=
  match data.getObjectItem (lit "version") with
  | some (.number v) =>
    let version := { version with value := toFloat v }
    match data.getObjectItem (lit "md5_sign") with
    | some (.string s) =>
      let s := cstr s
      -- 36 bytes are left of the struct: the 33 of `md5_sign` and 3 of padding
      if s.length ≤ 35 then some (0, { version with md5Sign := s ++ 0 :: version.md5Sign.drop (s.length + 1) })
      else none
    | _ => some (6, version)
  | _ => some (5, version)

/-- `_get_latest_version`; `none` is a crash, or an `md5_sign` that overruns the struct. -/
def getLatestVersion (env : QueryEnv) (version : UpdaterVersion) : Option (ℤ × UpdaterVersion) :=
  if env.curlInit = false then some (1, version)
  else if env.performs = false ∨ env.httpCode ≠ 200 then some (2, version)
  else
    match parse (cstr env.text) with
    | none => some (3, version)
    | some json =>
      match json.getObjectItem (lit "errno"), json.getObjectItem (lit "data") with
      -- the code of the error is read through the null `cursor`
      | none, _ => none
      | some cursor, none => some (i32 (10 + cursor.valueint), version)
      | some cursor, some data =>
        if cursor.valueint ≠ 0 then some (i32 (10 + cursor.valueint), version)
        else readVersion toFloat data version

/-! ## The download -/

/-- What happens to a download. -/
structure DownloadEnv where
  opens : Bool
  locks : Bool
  curlInit : Bool
  pieces : List NetPiece
  /-- How many bytes of the `k`-th piece `fwrite` stores. -/
  kept : ℕ → ℕ
  performs : Bool
  httpCode : ℤ

/-- `sarah_updater_package_t`, without the file. -/
structure Package where
  md5Context : Md5
  md5Sign : List UInt8

/-- `sarah_updater_package_start`. -/
def sarahUpdaterPackageStart : Package where
  md5Context := celMd5Init ⟨0, 0, ⟨0, 0, 0, 0⟩, List.replicate 64 0⟩
  md5Sign := List.replicate 33 0

/-- `sarah_updater_package_update`; the result of `fwrite` is not looked at. -/
def sarahUpdaterPackageUpdate (kept : ℕ) (package : Package) (file buffer : List UInt8) : Package × List UInt8 :=
  ({ package with md5Context := celMd5Update package.md5Context buffer }, file ++ buffer.take kept)

/-- `sarah_updater_package_end`: the digest in hexadecimal. -/
def sarahUpdaterPackageEnd (package : Package) : Package :=
  { package with md5Sign := celMd5Print (celMd5Final package.md5Context) ++ [0] }

/-- The receive callback on each piece, from the `k`-th on. -/
def receivePieces (kept : ℕ → ℕ) : List NetPiece → ℕ → Package → List UInt8 → Package × List UInt8
  | [], _, package, file => (package, file)
  | b :: bs, k, package, file =>
    let r := sarahUpdaterPackageUpdate (kept k) package file b.1
    receivePieces kept bs (k + 1) r.1 r.2

/-- `_download_package`, with the new content of `LSB_file`. -/
def downloadPackage (env : DownloadEnv) (lsbFile : Option (List UInt8)) : ℤ × Package × Option (List UInt8) :=
  if env.opens = false then (1, sarahUpdaterPackageStart, lsbFile)
  else if env.locks = false then (2, sarahUpdaterPackageEnd sarahUpdaterPackageStart, some [])
  else if env.curlInit = false then (2, sarahUpdaterPackageEnd sarahUpdaterPackageStart, some [])
  else
    let r := receivePieces env.kept env.pieces 0 sarahUpdaterPackageStart []
    (if env.performs = false ∨ env.httpCode ≠ 200 then 3 else 0, sarahUpdaterPackageEnd r.1, some r.2)

/-! ## The version file -/

/-- One call of `sarah_file_put_buffer`: which steps succeed, and what `write` returns. -/
structure PutEnv where
  opens : Bool
  locks : Bool
  truncates : Bool
  stored : Option ℕ

/-- `sarah_file_put_buffer`. -/
def sarahFilePutBuffer (env : PutEnv) (file : Option (List UInt8)) (buffer : List UInt8) (append : ℤ) :
    ℤ × Option (List UInt8) :=
  if env.opens = false then (-1, file)
  else if env.locks = false then (-1, some (file.getD []))
  else if append ≠ 1 ∧ env.truncates = false then (-1, some (file.getD []))
  else
    let content := if append = 1 then file.getD [] else []
    match env.stored with
    | none => (-1, some content)
    | some n => ((min n buffer.length : ℕ), some (pwrite content 0 (buffer.take n)))

/-- Hundredths of `num / den`, rounded to the nearest, ties to even. -/
def hundredths (num den : ℕ) : ℕ :=
  let n := 100 * num / den
  let r := 100 * num % den
  if den < 2 * r ∨ (den = 2 * r ∧ n % 2 = 1) then n + 1 else n

/-- `sprintf` with `%.2f`. -/
def sprintf2f : Double → List UInt8
  | .ninf => lit "-inf"
  | .pinf => lit "inf"
  | .fin q =>
    let h := hundredths q.num.natAbs q.den
    (if q < 0 then lit "-" else []) ++ decimal (h / 100) ++ lit "." ++ decimal (h / 10 % 10) ++ decimal (h % 10)

/-- The fields of `sarah_updater_t` that the loop changes, with the files they name. -/
structure Updater where
  version : Double
  verFile : Option (List UInt8)
  lsbFile : Option (List UInt8)
  deriving DecidableEq

/-- `sarah_updater_set_version`; a text of more than four characters overruns its buffer (`none`). -/
def sarahUpdaterSetVersion (updater : Updater) (version : Double) (env : PutEnv) : Option (ℤ × Updater) :=
  let text := sprintf2f version
  if text.length ≤ 4 then
    let r := sarahFilePutBuffer env updater.verFile (text ++ List.replicate (4 - text.length) 0) 0
    some (if -1 < r.1 then 0 else 1, { updater with version := version, verFile := r.2 })
  else none

/-! ## The loop -/

/-- The variables of `sarah_updater_application`, and `booter->exe_file`. -/
structure UpdaterState where
  updater : Updater
  currentVersion : Double
  downloadStatus : ℤ
  version : UpdaterVersion
  exeFile : Option (List UInt8)
  deriving DecidableEq

/-- `(float) sarah_version()`: the single-precision number nearest to 1.57. -/
def sarahVersion : Double := .fin (13170115 / 8388608)

/-- The variables before the first round, after any `sarah_updater_init`. -/
def updaterStart (updater : Updater) (md5Sign : List UInt8) (exeFile : Option (List UInt8)) : UpdaterState where
  updater := updater
  currentVersion := sarahVersion
  downloadStatus := 0
  version := ⟨.fin 0, md5Sign⟩
  exeFile := exeFile

/-- What one round meets. -/
structure RoundEnv where
  /-- `booter->status` at the top of the loop and at `loop:`. -/
  status : ProcStatus
  statusEnd : ProcStatus
  /-- `getppid()` is unchanged, where `_SARAH_ASSERT_PARENT_PROCESS` asks for it. -/
  sameParent : Bool
  query : QueryEnv
  download : DownloadEnv
  install : ∀ package, InstallEnv package
  put : PutEnv
  kills : List Bool

/-- What a round did: the file that `_install_package` was called on, the version that was recorded, and
whether the booter was told to restart. -/
structure RoundLog where
  installed : Option (Option (List UInt8))
  recorded : Option Double
  restarted : Bool
  deriving DecidableEq

/-- A round without an installation. -/
def RoundLog.quiet : RoundLog := ⟨none, none, false⟩

/-- The label `loop`. -/
def roundEnd (env : RoundEnv) (st : UpdaterState) (log : RoundLog) : RoundLog × Option UpdaterState :=
  (log, if env.statusEnd = .exit then none else some st)

/-- Step 3 and what follows a successful installation. -/
def installStep (env : RoundEnv) (st : UpdaterState) : RoundLog × Option UpdaterState :=
  let log := { RoundLog.quiet with installed := some st.updater.lsbFile }
  match st.updater.lsbFile with
  | none => roundEnd env st log
  | some package =>
    let r := installPackage package (env.install package) st.exeFile
    let st := { st with exeFile := r.2 }
    if r.1 ≠ 0 then roundEnd env st log
    else
      let log := { log with recorded := some st.version.value }
      match sarahUpdaterSetVersion st.updater st.version.value env.put with
      | none => (log, none)
      | some s =>
        roundEnd env { st with currentVersion := st.version.value, downloadStatus := 0, updater := s.2 }
          { log with restarted := (env.kills.take 5).any id }

/-- Step 2: download and verify, unless `download_status` says that a package is stored. -/
def downloadStep (env : RoundEnv) (st : UpdaterState) : RoundLog × Option UpdaterState :=
  if st.downloadStatus = 1 then installStep env st
  else
    let r := downloadPackage env.download st.updater.lsbFile
    let st := { st with updater := { st.updater with lsbFile := r.2.2 } }
    if r.1 ≠ 0 then roundEnd env st .quiet
    else
      let st := { st with downloadStatus := 1 }
      if strncmpEq st.version.md5Sign r.2.1.md5Sign 32 then installStep env st else roundEnd env st .quiet

/-- One round of the loop, with the state for the next one; `none` when the loop is left or crashes. -/
def updaterRound (st : UpdaterState) (env : RoundEnv) : RoundLog × Option UpdaterState :=
  match env.status with
  | .exit => (.quiet, none)
  | .stop => (.quiet, some st)
  | _ =>
    if env.sameParent = false then (.quiet, none)
    else
      match getLatestVersion parse toFloat env.query { st.version with value := .fin 0 } with
      | none => (.quiet, none)
      | some r =>
        let st := { st with version := r.2 }
        if r.1 ≠ 0 then roundEnd env st .quiet
        else if st.version.value.le st.currentVersion ∨ st.version.value.le st.updater.version then
          roundEnd env st .quiet
        else downloadStep env st

/-- The rounds one after the other. -/
def updaterStep (st : UpdaterState) (env : RoundEnv) : Option (UpdaterState × RoundLog) :=
  (updaterRound parse toFloat st env).2.map fun st' => (st', (updaterRound parse toFloat st env).1)

end Sarah

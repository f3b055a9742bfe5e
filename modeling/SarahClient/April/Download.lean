import SarahClient.Updater.Safety

/-!
# Downloads into a file (`sarah_http_download` of `utils.c`) and the module cache of `lua_import`

The file at the path is its content, or `none` where there is none.

* `sarahHttpDownload`: the code and the file; `HttpDownloadEnv.left`: what a call that opens the file writes;
* `sarahHttpDownload_leaves`: what each kind of call leaves;
* **`cleanFailure_iff`**: when a failed download leaves no partial file;
* `luaImportFetch`: the caller that removes the file itself; **`importRun_whole`**: its cache over any run.
-/

namespace Sarah

/-- What happens to a download, and whether `unlink` succeeds. -/
structure HttpDownloadEnv extends DownloadEnv where
  unlinks : Bool

/-- `_download_recv_callback`, where `fwrite` stores `kept` bytes; its result is not looked at. -/
def downloadRecvCallback (kept : ℕ) (file buffer : List UInt8) : List UInt8 := file ++ buffer.take kept

/-- The callback on each piece, from the `k`-th on. -/
def performPieces (kept : ℕ → ℕ) : List NetPiece → ℕ → List UInt8 → List UInt8
  | [], _, file => file
  | b :: bs, k, file => performPieces kept bs (k + 1) (downloadRecvCallback (kept k) file b.1)

/-- `sarah_http_download`, with the file after it. -/
def sarahHttpDownload (env : HttpDownloadEnv) (file : Option (List UInt8)) (override : ℤ) : ℤ × Option (List UInt8) :=
  if override = 0 ∧ file.isSome then (1, file)
  else if env.opens = false then (2, file)
  -- `fopen(file, "wb")` has emptied the file
  else if env.locks = false then (3, some [])
  else if env.curlInit = false then (4, some [])
  else
    let body := performPieces env.kept env.pieces 0 []
    if env.performs = false then (5, some body)
    else if env.httpCode ≠ 200 then (6, if env.unlinks then none else some body)
    else (0, some body)

theorem performPieces_eq (kept : ℕ → ℕ) : ∀ (bs : List NetPiece) (k : ℕ) (file : List UInt8),
    performPieces kept bs k file = file ++ storedPieces kept bs k
  | [], _, file => by rw [performPieces, storedPieces, List.append_nil]
  | b :: bs, k, file => by
    rw [performPieces, downloadRecvCallback, performPieces_eq kept bs, storedPieces, List.append_assoc]

/-! ## What a call leaves -/

namespace HttpDownloadEnv

/-- What a call that opens the file writes into it. -/
def left (env : HttpDownloadEnv) : List UInt8 := if env.locks = true ∧ env.curlInit = true then env.stored else []

/-- A response with another code than 200 arrives, and the file is unlinked. -/
def Unlinked (env : HttpDownloadEnv) : Prop :=
  env.locks = true ∧ env.curlInit = true ∧ env.performs = true ∧ env.httpCode ≠ 200 ∧ env.unlinks = true

end HttpDownloadEnv

/-- The call does not reach `fopen`, or `fopen` fails. -/
def Unopened (env : HttpDownloadEnv) (file : Option (List UInt8)) (override : ℤ) : Prop :=
  (override = 0 ∧ file.isSome = true) ∨ env.opens = false

/-- What each kind of call returns and leaves. -/
inductive HttpLeaves (env : HttpDownloadEnv) (file : Option (List UInt8)) (override : ℤ) :
    ℤ × Option (List UInt8) → Prop
  | unopened (h : Unopened env file override) {code : ℤ} (hcode : 0 < code) : HttpLeaves env file override (code, file)
  | succeeds (h : ¬ Unopened env file override) (hs : env.Succeeds) : HttpLeaves env file override (0, some env.left)
  | unlinked (h : ¬ Unopened env file override) (hu : env.Unlinked) : HttpLeaves env file override (6, none)
  | written (h : ¬ Unopened env file override) (hs : ¬ env.Succeeds) (hu : ¬ env.Unlinked) {code : ℤ}
    (hcode : 0 < code) :
      HttpLeaves env file override (code, some env.left)

/-- **Every call is of one of these kinds.** -/
theorem sarahHttpDownload_leaves (env : HttpDownloadEnv) (file : Option (List UInt8)) (override : ℤ) :
    HttpLeaves env file override (sarahHttpDownload env file override) := by
  unfold sarahHttpDownload
  by_cases hexists : override = 0 ∧ file.isSome = true
  · rw [if_pos hexists]
    exact .unopened (.inl hexists) (by decide)
  rw [if_neg hexists]
  by_cases hopens : env.opens = false
  · rw [if_pos hopens]
    exact .unopened (.inr hopens) (by decide)
  rw [if_neg hopens]
  have htouched : ¬ Unopened env file override := not_or.mpr ⟨hexists, hopens⟩
  by_cases hlocks : env.locks = false
  · have hleft : env.left = [] := if_neg fun h => by rw [hlocks] at h; cases h.1
    rw [if_pos hlocks, ← hleft]
    refine .written htouched (fun h => ?_) (fun h => ?_) (by decide)
    · exact absurd h.2.1 (by rw [hlocks]; decide)
    · exact absurd h.1 (by rw [hlocks]; decide)
  rw [if_neg hlocks]
  by_cases hcurl : env.curlInit = false
  · have hleft : env.left = [] := if_neg fun h => by rw [hcurl] at h; cases h.2
    rw [if_pos hcurl, ← hleft]
    refine .written htouched (fun h => ?_) (fun h => ?_) (by decide)
    · exact absurd h.2.2.1 (by rw [hcurl]; decide)
    · exact absurd h.2.1 (by rw [hcurl]; decide)
  rw [if_neg hcurl]
  rw [Bool.not_eq_false] at hopens hlocks hcurl
  have hleft : performPieces env.kept env.pieces 0 [] = env.left := by
    rw [performPieces_eq, List.nil_append, HttpDownloadEnv.left, if_pos ⟨hlocks, hcurl⟩]
    rfl
  dsimp only
  rw [hleft]
  by_cases hperforms : env.performs = false
  · rw [if_pos hperforms]
    refine .written htouched (fun h => ?_) (fun h => ?_) (by decide)
    · exact absurd h.2.2.2.1 (by rw [hperforms]; decide)
    · exact absurd h.2.2.1 (by rw [hperforms]; decide)
  rw [if_neg hperforms]
  rw [Bool.not_eq_false] at hperforms
  by_cases hcode : env.httpCode ≠ 200
  · rw [if_pos hcode]
    by_cases hunlinks : env.unlinks = true
    · rw [if_pos hunlinks]
      exact .unlinked htouched ⟨hlocks, hcurl, hperforms, hcode, hunlinks⟩
    · rw [if_neg hunlinks]
      exact .written htouched (fun h => hcode h.2.2.2.2) (fun h => hunlinks h.2.2.2.2) (by decide)
  · rw [if_neg hcode]
    exact .succeeds htouched ⟨hopens, hlocks, hcurl, hperforms, not_not.mp hcode⟩

/-! ## Failed downloads -/

/-- A failed call leaves the file as it was, or no file. -/
def CleanFailure (env : HttpDownloadEnv) (file : Option (List UInt8)) (override : ℤ) : Prop :=
  (sarahHttpDownload env file override).1 ≠ 0 →
    (sarahHttpDownload env file override).2 = file ∨ (sarahHttpDownload env file override).2 = none

/-- **A failed download leaves no partial file exactly when** the call does not get as far as opening the file, or it
succeeds, or the server's refusal is followed by a successful `unlink`, or what it writes is what was there before. -/
theorem cleanFailure_iff (env : HttpDownloadEnv) (file : Option (List UInt8)) (override : ℤ) :
    CleanFailure env file override ↔
      Unopened env file override ∨ env.Succeeds ∨ env.Unlinked ∨ file = some env.left := by
  unfold CleanFailure
  have hleaves := sarahHttpDownload_leaves env file override
  generalize sarahHttpDownload env file override = r at hleaves
  cases hleaves with
  | unopened h hcode => exact iff_of_true (fun _ => .inl rfl) (.inl h)
  | succeeds h hs => exact iff_of_true (fun hc => absurd rfl hc) (.inr (.inl hs))
  | unlinked h hu => exact iff_of_true (fun _ => .inr rfl) (.inr (.inr (.inl hu)))
  | written h hs hu hcode =>
    constructor
    · intro hclean
      rcases hclean hcode.ne' with heq | hnone
      · exact .inr (.inr (.inr heq.symm))
      · cases hnone
    · rintro (hc | hc | hc | hc)
      · exact absurd hc h
      · exact absurd hc hs
      · exact absurd hc hu
      · exact fun _ => .inl hc.symm

/-- A transfer that breaks off behind one byte. -/
def brokenOff : HttpDownloadEnv where
  opens := true
  locks := true
  curlInit := true
  pieces := [⟨[60], by decide⟩]
  kept := fun _ => 1
  performs := false
  httpCode := 0
  unlinks := true

/-- The byte stays in a file that was not there before. -/
theorem not_cleanFailure : ¬ ∀ (env : HttpDownloadEnv) (file : Option (List UInt8)) (override : ℤ),
    CleanFailure env file override := by
  intro hall
  rcases hall brokenOff none 1 (by decide) with h | h <;> cases h

/-! ## The module cache -/

/-- What happens while a module is fetched: `sarah_mkdir`, the download, and `remove`. -/
structure ImportEnv where
  mkdirs : Bool
  download : HttpDownloadEnv
  removes : Bool

/-- The part of `lua_import` that fills the cache: the error number, and the cached file. -/
def luaImportFetch (env : ImportEnv) (modfile : Option (List UInt8)) : ℤ × Option (List UInt8) :=
  if modfile.isSome then (0, modfile)
  else if env.mkdirs = false then (2, modfile)
  else
    let r := sarahHttpDownload env.download modfile 1
    if 0 < r.1 then (3, if env.removes then none else r.2) else (0, r.2)

/-- The fetches of one module, one after the other. -/
def importRun (envs : List ImportEnv) (modfile : Option (List UInt8)) : Option (List UInt8) :=
  envs.foldl (fun file env => (luaImportFetch env file).2) modfile

/-- A fetch whose `remove` succeeds keeps the file, leaves none, or leaves a whole download. -/
theorem luaImportFetch_cases {env : ImportEnv} (hremoves : env.removes = true) (modfile : Option (List UInt8)) :
    (luaImportFetch env modfile).2 = modfile ∨ (luaImportFetch env modfile).2 = none ∨
      (env.download.Succeeds ∧ (luaImportFetch env modfile).2 = some env.download.left) := by
  unfold luaImportFetch
  by_cases hcached : modfile.isSome = true
  · rw [if_pos hcached]
    exact .inl rfl
  rw [if_neg hcached]
  by_cases hmkdirs : env.mkdirs = false
  · rw [if_pos hmkdirs]
    exact .inl rfl
  rw [if_neg hmkdirs, hremoves]
  have hleaves := sarahHttpDownload_leaves env.download modfile 1
  generalize sarahHttpDownload env.download modfile 1 = r at hleaves
  cases hleaves with
  | unopened h hcode | written h hs hu hcode =>
    dsimp only
    rw [if_pos hcode]
    exact .inr (.inl rfl)
  | unlinked h hu => exact .inr (.inl rfl)
  | succeeds h hs => exact .inr (.inr ⟨hs, rfl⟩)

/-- **The cache of a module whose failed downloads are removed** holds what was there at first, or a whole download. -/
theorem importRun_whole : ∀ {envs : List ImportEnv} (_ : ∀ env ∈ envs, env.removes = true)
    {modfile : Option (List UInt8)} {body : List UInt8}, importRun envs modfile = some body →
      modfile = some body ∨ ∃ env ∈ envs, env.download.Succeeds ∧ body = env.download.left
  | [], _, _, _, h => .inl h
  | env :: envs, hremoves, modfile, body, h => by
    rcases importRun_whole (fun e he => hremoves e (List.mem_cons_of_mem env he)) h with hfile | ⟨e, he, hs⟩
    · rcases luaImportFetch_cases (hremoves env List.mem_cons_self) modfile with hc | hc | ⟨hs, hc⟩
      · exact .inl (hc.symm.trans hfile)
      · cases hc.symm.trans hfile
      · exact .inr ⟨env, List.mem_cons_self, hs, (Option.some.inj (hc.symm.trans hfile)).symm⟩
    · exact .inr ⟨e, List.mem_cons_of_mem env he, hs⟩

end Sarah

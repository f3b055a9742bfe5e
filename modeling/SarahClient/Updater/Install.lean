import Mathlib.Data.List.Basic
import Mathlib.Tactic.Ring

/-!
# Installing a package: `_install_package` of `app_updater.c`

* `Reads`: how `read()` delivers the package, in chunks that fit the copy buffer;
* `InstallEnv`, `copyLoop`, `installPackage`: the function, over every outcome of its system calls;
* `buffers`: the copy buffer at each `write`, which always writes the whole of it;
* **`installPackage_exact_iff`**: a successful installation is exact only when no read is short.
-/

namespace Sarah

/-- What one `read` into the copy buffer delivers. -/
abbrev Chunk := { c : List UInt8 // 0 < c.length ∧ c.length ≤ 1024 }

/-- The successive reads of `package`, up to its end or to a read that returns -1. -/
structure Reads (package : List UInt8) where
  chunks : List Chunk
  failed : Bool
  isPrefix : (chunks.map Subtype.val).flatten <+: package
  atEnd : failed = false → (chunks.map Subtype.val).flatten = package

/-- What `write` returns. -/
inductive WriteResult
  | fail
  | wrote (n : ℕ)
  deriving DecidableEq

/-- What the system calls of `_install_package` give. -/
structure InstallEnv (package : List UInt8) where
  openSrc : Bool
  lockSrc : Bool
  remove : Bool
  openDst : Bool
  lockDst : Bool
  reads : Reads package
  writes : ℕ → WriteResult

/-- The copy loop at its `k`-th read; `dst` is the target file so far. -/
def copyLoop (failed : Bool) (writes : ℕ → WriteResult) : List Chunk → ℕ → List UInt8 → List UInt8 →
    ℤ × List UInt8
  | [], _, _, dst => (if failed then 6 else 0, dst)
  | c :: cs, k, buffer, dst =>
    let buffer := c.1 ++ buffer.drop c.1.length
    match writes k with
    | .fail => (7, dst)
    | .wrote 0 => (0, dst)
    -- the count is `sizeof(buffer)`, whatever `read` returned
    | .wrote (n + 1) => copyLoop failed writes cs (k + 1) buffer (dst ++ buffer.take (n + 1))

/-- `_install_package` on the package at `LSB_file` and the present `bin_file`. -/
def installPackage (package : List UInt8) (env : InstallEnv package) (binFile : Option (List UInt8)) :
    ℤ × Option (List UInt8) :=
  if env.openSrc = false then (1, binFile)
  else if env.lockSrc = false then (2, binFile)
  else if binFile.isSome ∧ env.remove = false then (3, binFile)
  else if env.openDst = false then (4, none)
  else if env.lockDst = false then (5, some [])
  else
    let r := copyLoop env.reads.failed env.writes env.reads.chunks 0 (List.replicate 1024 0) []
    (r.1, some r.2)

/-! ## The copy loop -/

/-- The copy buffer at each `write`. -/
def buffers : List UInt8 → List Chunk → List (List UInt8)
  | _, [] => []
  | buffer, c :: cs => (c.1 ++ buffer.drop c.1.length) :: buffers (c.1 ++ buffer.drop c.1.length) cs

theorem length_refill {buffer : List UInt8} (h : buffer.length = 1024) (c : Chunk) :
    (c.1 ++ buffer.drop c.1.length).length = 1024 := by
  have := c.2.2
  rw [List.length_append, List.length_drop]
  omega

theorem length_flatten_buffers : ∀ (cs : List Chunk) {buffer : List UInt8}, buffer.length = 1024 →
    (buffers buffer cs).flatten.length = 1024 * cs.length
  | [], _, _ => rfl
  | c :: cs, buffer, h => by
    rw [buffers, List.flatten_cons, List.length_append, length_refill h c,
      length_flatten_buffers cs (length_refill h c), List.length_cons]
    ring

theorem buffers_of_full : ∀ (cs : List Chunk) {buffer : List UInt8}, buffer.length = 1024 →
    (∀ c ∈ cs, c.1.length = 1024) → buffers buffer cs = cs.map Subtype.val
  | [], _, _, _ => rfl
  | c :: cs, buffer, h, hfull => by
    have hc : c.1 ++ buffer.drop c.1.length = c.1 := by
      rw [List.drop_of_length_le (by rw [h, hfull c List.mem_cons_self]), List.append_nil]
    rw [buffers, hc, List.map_cons, buffers_of_full cs (hfull c List.mem_cons_self) fun c' hc' =>
      hfull c' (List.mem_cons_of_mem c hc')]

theorem length_flatten_le : ∀ cs : List Chunk, (cs.map Subtype.val).flatten.length ≤ 1024 * cs.length
  | [] => le_refl 0
  | c :: cs => by
    have := c.2.2
    have := length_flatten_le cs
    rw [List.map_cons, List.flatten_cons, List.length_append, List.length_cons]
    omega

/-- Chunks of 1024 bytes at most fill `1024 * n` bytes only when each of them is full. -/
theorem full_of_length_flatten : ∀ cs : List Chunk,
    (cs.map Subtype.val).flatten.length = 1024 * cs.length → ∀ c ∈ cs, c.1.length = 1024
  | [], _, _, hc => absurd hc List.not_mem_nil
  | c :: cs, h, c', hc' => by
    have h₁ := c.2.2
    have h₂ := length_flatten_le cs
    rw [List.map_cons, List.flatten_cons, List.length_append, List.length_cons] at h
    rcases List.mem_cons.mp hc' with rfl | hmem
    · omega
    · exact full_of_length_flatten cs (by omega) c' hmem

/-- What is written is what was read exactly when every read is full. -/
theorem flatten_buffers_eq_iff (cs : List Chunk) {buffer : List UInt8} (h : buffer.length = 1024) :
    (buffers buffer cs).flatten = (cs.map Subtype.val).flatten ↔ ∀ c ∈ cs, c.1.length = 1024 := by
  constructor
  · intro heq
    refine full_of_length_flatten cs ?_
    rw [← heq, length_flatten_buffers cs h]
  · intro hfull
    rw [buffers_of_full cs h hfull]

/-- No `write` is partial: each stores the 1024 bytes it is given, or fails. -/
def WritesAll (writes : ℕ → WriteResult) : Prop := ∀ k, writes k = .fail ∨ writes k = .wrote 1024

theorem copyLoop_of_wrote (failed : Bool) {writes : ℕ → WriteResult} :
    ∀ (cs : List Chunk) (k : ℕ) (buffer dst : List UInt8), buffer.length = 1024 →
      (∀ i < cs.length, writes (k + i) = .wrote 1024) →
      copyLoop failed writes cs k buffer dst = (if failed then 6 else 0, dst ++ (buffers buffer cs).flatten)
  | [], _, _, dst, _, _ => by rw [buffers, List.flatten_nil, List.append_nil]; rfl
  | c :: cs, k, buffer, dst, h, hw => by
    have hlen := length_refill h c
    have hk : writes k = .wrote (1023 + 1) := hw 0 (Nat.succ_pos _)
    have hrec := copyLoop_of_wrote failed cs (k + 1) _
      (dst ++ (c.1 ++ buffer.drop c.1.length)) hlen fun i hi => by
        rw [Nat.add_assoc, Nat.add_comm 1 i]
        exact hw (i + 1) (Nat.succ_lt_succ hi)
    simp only [copyLoop, hk]
    rw [List.take_of_length_le hlen.le, hrec, buffers, List.flatten_cons, List.append_assoc]

theorem copyLoop_of_fail (failed : Bool) {writes : ℕ → WriteResult} (hall : WritesAll writes) :
    ∀ (cs : List Chunk) (k : ℕ) (buffer dst : List UInt8),
      (∃ i < cs.length, writes (k + i) = .fail) → (copyLoop failed writes cs k buffer dst).1 = 7
  | [], _, _, _, h => by obtain ⟨i, hi, -⟩ := h; exact absurd hi (Nat.not_lt_zero i)
  | c :: cs, k, buffer, dst, h => by
    rcases hall k with hk | hk
    · simp only [copyLoop, hk]
    · have hk' : writes k = .wrote (1023 + 1) := hk
      simp only [copyLoop, hk']
      refine copyLoop_of_fail failed hall cs (k + 1) _ _ ?_
      obtain ⟨i, hi, hf⟩ := h
      cases i with
      | zero => rw [Nat.add_zero, hk] at hf; cases hf
      | succ i => exact ⟨i, Nat.lt_of_succ_lt_succ hi, by rw [Nat.add_assoc, Nat.add_comm 1 i]; exact hf⟩

/-! ## The installed file -/

variable {package : List UInt8}

/-- A system call fails on the way. -/
def InstallEnv.Fails (env : InstallEnv package) (binFile : Option (List UInt8)) : Prop :=
  env.openSrc = false ∨ env.lockSrc = false ∨ (binFile.isSome ∧ env.remove = false) ∨ env.openDst = false ∨
    env.lockDst = false ∨ env.reads.failed = true ∨ ∃ k < env.reads.chunks.length, env.writes k = .fail

/-- The property of one installation: what is reported as installed is the package. -/
def InstallsExactly (env : InstallEnv package) (binFile : Option (List UInt8)) : Prop :=
  (installPackage package env binFile).1 = 0 → (installPackage package env binFile).2 = some package

theorem installPackage_of_fails {env : InstallEnv package} (hall : WritesAll env.writes)
    {binFile : Option (List UInt8)} (h : env.Fails binFile) : (installPackage package env binFile).1 ≠ 0 := by
  unfold installPackage
  split_ifs with h₁ h₂ h₃ h₄ h₅
  · exact show (1 : ℤ) ≠ 0 by decide
  · exact show (2 : ℤ) ≠ 0 by decide
  · exact show (3 : ℤ) ≠ 0 by decide
  · exact show (4 : ℤ) ≠ 0 by decide
  · exact show (5 : ℤ) ≠ 0 by decide
  · by_cases hw : ∃ k < env.reads.chunks.length, env.writes k = .fail
    · have hw' : ∃ k < env.reads.chunks.length, env.writes (0 + k) = .fail := by simpa using hw
      simp only [copyLoop_of_fail _ hall _ _ _ _ hw']
      decide
    · have hf : env.reads.failed = true := by
        rcases h with h | h | h | h | h | h | h
        exacts [absurd h h₁, absurd h h₂, absurd h h₃, absurd h h₄, absurd h h₅, h, absurd h hw]
      have hw' : ∀ i < env.reads.chunks.length, env.writes (0 + i) = .wrote 1024 := fun i hi => by
        rw [Nat.zero_add]
        exact (hall i).resolve_left fun hi' => hw ⟨i, hi, hi'⟩
      simp only [copyLoop_of_wrote _ _ _ _ _ List.length_replicate hw', hf]
      decide

theorem installPackage_of_not_fails {env : InstallEnv package} (hall : WritesAll env.writes)
    {binFile : Option (List UInt8)} (h : ¬ env.Fails binFile) : installPackage package env binFile =
      (0, some (buffers (List.replicate 1024 0) env.reads.chunks).flatten) := by
  simp only [InstallEnv.Fails, not_or, not_exists, not_and] at h
  obtain ⟨h₁, h₂, h₃, h₄, h₅, hf, hw⟩ := h
  have hw' : ∀ i < env.reads.chunks.length, env.writes (0 + i) = .wrote 1024 := fun i hi => by
    rw [Nat.zero_add]
    exact (hall i).resolve_left (hw i hi)
  rw [installPackage, if_neg h₁, if_neg h₂, if_neg fun h => h₃ h.1 h.2, if_neg h₄, if_neg h₅]
  simp only [copyLoop_of_wrote _ _ _ _ _ List.length_replicate hw', List.nil_append, if_neg hf]

/-- **Installations are exact only without short reads.** A successful installation holds the package's
bytes exactly when every read filled the copy buffer. -/
theorem installPackage_exact_iff {env : InstallEnv package} (hall : WritesAll env.writes)
    (binFile : Option (List UInt8)) :
    InstallsExactly env binFile ↔ env.Fails binFile ∨ ∀ c ∈ env.reads.chunks, c.1.length = 1024 := by
  rw [InstallsExactly]
  by_cases h : env.Fails binFile
  · exact iff_of_true (fun h0 => absurd h0 (installPackage_of_fails hall h)) (Or.inl h)
  · have hend : (env.reads.chunks.map Subtype.val).flatten = package := by
      refine env.reads.atEnd ?_
      by_contra hf
      exact h (Or.inr (Or.inr (Or.inr (Or.inr (Or.inr (Or.inl (Bool.not_eq_false _ ▸ hf)))))))
    rw [installPackage_of_not_fails hall h, or_iff_right h,
      ← flatten_buffers_eq_iff env.reads.chunks List.length_replicate, hend]
    exact ⟨fun heq => Option.some.inj (heq rfl), fun heq _ => congrArg some heq⟩

/-- Nothing fails, and `read` delivers the package in the given chunks. -/
def plainInstall (chunks : List Chunk) : InstallEnv (chunks.map Subtype.val).flatten where
  openSrc := true
  lockSrc := true
  remove := true
  openDst := true
  lockDst := true
  reads := ⟨chunks, false, List.prefix_rfl, fun _ => rfl⟩
  writes := fun _ => .wrote 1024

/-- A read that fills the copy buffer. -/
def fullChunk : Chunk :=
  ⟨List.replicate 1024 7, by rw [List.length_replicate]; decide, by rw [List.length_replicate]⟩

/-- A package of one byte is installed as 1024 bytes. -/
theorem not_installs_exactly : ¬ InstallsExactly (plainInstall [⟨[1], by decide⟩]) none := by
  unfold InstallsExactly
  decide +kernel

theorem installPackage_exact_iff_full :
    InstallsExactly (plainInstall [fullChunk]) none ↔
      (plainInstall [fullChunk]).Fails none ∨ ∀ c ∈ (plainInstall [fullChunk]).reads.chunks, c.1.length = 1024 :=
  installPackage_exact_iff (fun _ => Or.inr rfl) none

end Sarah

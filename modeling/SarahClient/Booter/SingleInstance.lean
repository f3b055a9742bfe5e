import Mathlib.Data.Fintype.Basic
import SarahClient.CNum
import SarahClient.Lib.Machine
import SarahClient.Updater.Model

/-!
# One booter at a time

A start-up reads the pid file, checks that the process it names is not running, and writes its own pid. The three are
separate steps: two start-ups may both read before either writes.

* `sarahFileGetBuffer`, `sarahBooterGetpid`, `sarahBooterSetpid`: the pid file;
* `Startup`, `PidState`, `StartupEvent`, `pidStep`: any number of start-ups on one pid file, step by step;
* `Serial`: no start-up reads the file while another one is between its own reading and writing, and no call on the file
  is cut short;
* **`single_instance`**: in a run with `Serial` steps at most one booter gets past the pid file.
-/

namespace Sarah

open Machine FileBytes

/-! ## The pid file -/

/-- One call of `sarah_file_get_buffer`: which steps succeed, and how many bytes `read` gives. -/
structure GetEnv where
  opens : Bool
  locks : Bool
  got : Option ℕ

/-- `sarah_file_get_buffer`: at most `size` bytes of the file, or `NULL`. -/
def sarahFileGetBuffer (env : GetEnv) (file : Option (List UInt8)) (size : ℕ) : Option (List UInt8) :=
  match file with
  | none => none
  | some content =>
    if env.opens = false ∨ env.locks = false then none else env.got.map fun n => (content.take size).take n

/-- The first 11 bytes of the file, in a buffer of 12. -/
def sarahBooterGetpid (env : GetEnv) (pidFile : Option (List UInt8)) : ℤ :=
  match sarahFileGetBuffer env pidFile 11 with
  | some bytes => atoi (bytes ++ List.replicate (12 - bytes.length) 0)
  | none => 0

/-- `sarah_booter_setpid`: 11 bytes are written, with NULs behind the number. -/
def sarahBooterSetpid (env : PutEnv) (pid : ℤ) (pidFile : Option (List UInt8)) : ℤ × Option (List UInt8) :=
  let buffer := decimalInt pid ++ List.replicate (12 - (decimalInt pid).length) 0
  let r := sarahFilePutBuffer env pidFile (buffer.take 11) 0
  (if -1 < r.1 then 0 else 1, r.2)

/-! ## Start-ups -/

/-- Where a start-up is. -/
inductive Startup
  | init
  | read (pid : ℤ)
  | cleared
  | main
  | gone
  deriving DecidableEq

/-- The process is known to run. -/
def Startup.Runs : Startup → Bool
  | .read _ | .cleared | .main => true
  | .init | .gone => false

/-- It has read the pid file, and not written it yet. -/
def Startup.Between : Startup → Bool
  | .read _ | .cleared => true
  | .init | .main | .gone => false

/-- The process ids of the start-ups. -/
structure Pids (ι : Type) where
  pid : ι → ℤ
  pos : ∀ i, 0 < pid i
  lt : ∀ i, pid i < 2 ^ 31
  injective : Function.Injective pid

/-- The pid file, and how far every start-up has come. -/
structure PidState (ι : Type) where
  pidFile : Option (List UInt8)
  startup : ι → Startup

variable {ι : Type} [Fintype ι] [DecidableEq ι]

/-- The next step of a start-up, or its end. In `check`, `others k` is the answer of the `k`-th `kill` when the pid is
not known to be one of the start-ups. -/
inductive StartupEvent (ι : Type)
  | read (i : ι) (env : GetEnv)
  | check (i : ι) (others : ℕ → Bool)
  | write (i : ι) (env : PutEnv)
  | die (i : ι)

/-- `kill(pid, SARAH_SIGNAL_CHECK) == 0` at the try `k`. -/
def PidState.killCheck (P : Pids ι) (st : PidState ι) (others : ℕ → Bool) (pid : ℤ) (k : ℕ) : Bool :=
  if ∃ i, P.pid i = pid ∧ (st.startup i).Runs = true then true else others k

/-- The value of `_counter` after the loop. -/
def PidState.counter (P : Pids ι) (st : PidState ι) (others : ℕ → Bool) (pid : ℤ) : ℕ :=
  ((List.range 3).find? (st.killCheck P others pid)).getD 3

/-- One start-up moves on. -/
def PidState.goto (st : PidState ι) (i : ι) (s : Startup) : PidState ι :=
  { st with startup := Function.update st.startup i s }

/-- `sarah_booter_init` from the pid file on, and `sarah_booter_setpid` in `main`. -/
def pidStep (P : Pids ι) (st : PidState ι) : StartupEvent ι → Option (PidState ι × Unit)
  | .read i env =>
    match st.startup i with
    | .init => some (st.goto i (.read (sarahBooterGetpid env st.pidFile)), ())
    | _ => none
  | .check i others =>
    match st.startup i with
    | .read pid => some (st.goto i (if 0 < pid ∧ st.counter P others pid < 3 then .gone else .cleared), ())
    | _ => none
  | .write i env =>
    match st.startup i with
    | .cleared =>
      let r := sarahBooterSetpid env (P.pid i) st.pidFile
      some ({ st with pidFile := r.2 }.goto i (if r.1 = 0 then .main else .gone), ())
    | _ => none
  | .die i => some (st.goto i .gone, ())

/-- At most one booter is past the pid file. -/
def SingleInstance (st : PidState ι) : Prop := ∀ i j, st.startup i = .main → st.startup j = .main → i = j

/-! ## Reading back -/

/-- The calls deliver what was asked for. -/
def GetEnv.Completes (env : GetEnv) : Prop := env.opens = true ∧ env.locks = true ∧ 11 ≤ env.got.getD 0

/-- A write that is not cut short; it may fail. -/
def PutEnv.Whole (env : PutEnv) : Prop := 11 ≤ env.stored.getD 11

/-- The 11 bytes that are written for a pid. -/
def pidBytes (pid : ℤ) : List UInt8 := decimalInt pid ++ List.replicate (11 - (decimalInt pid).length) 0

theorem decimalInt_length_le_ten {pid : ℤ} (hpos : 0 < pid) (hlt : pid < 2 ^ 31) : (decimalInt pid).length ≤ 10 := by
  rw [decimalInt, if_neg (by omega)]
  exact decimal_length_le (by decide) (by omega)

theorem length_pidBytes {pid : ℤ} (hpos : 0 < pid) (hlt : pid < 2 ^ 31) : (pidBytes pid).length = 11 := by
  have hlen := decimalInt_length_le_ten hpos hlt
  rw [pidBytes, List.length_append, List.length_replicate]
  omega

/-- A write that reports a success, and is not cut short, stores the buffer. -/
theorem sarahFilePutBuffer_stores {env : PutEnv} {file : Option (List UInt8)} {buffer : List UInt8}
    (hwhole : ∀ n, env.stored = some n → buffer.length ≤ n) (hret : -1 < (sarahFilePutBuffer env file buffer 0).1) :
    (sarahFilePutBuffer env file buffer 0).2 = some buffer := by
  unfold sarahFilePutBuffer at hret ⊢
  dsimp only at hret ⊢
  rw [if_neg (show ¬ (0 : ℤ) = 1 by decide)] at hret ⊢
  split_ifs at hret ⊢
  · exact absurd hret (lt_irrefl _)
  · exact absurd hret (lt_irrefl _)
  · exact absurd hret (lt_irrefl _)
  · cases hstored : env.stored with
    | none =>
      rw [hstored] at hret
      exact absurd hret (lt_irrefl _)
    | some n =>
      dsimp only
      rw [List.take_of_length_le (hwhole n hstored), pwrite_of_le (Nat.zero_le _), List.take_zero, List.nil_append,
        List.drop_nil, List.append_nil]

theorem sarahBooterSetpid_stores {pid : ℤ} (hpos : 0 < pid) (hlt : pid < 2 ^ 31) {env : PutEnv} (henv : env.Whole)
    {file : Option (List UInt8)} (hset : (sarahBooterSetpid env pid file).1 = 0) :
    (sarahBooterSetpid env pid file).2 = some (pidBytes pid) := by
  have hlen := decimalInt_length_le_ten hpos hlt
  have hbytes : (decimalInt pid ++ List.replicate (12 - (decimalInt pid).length) 0).take 11 = pidBytes pid := by
    rw [pidBytes, List.take_append, List.take_of_length_le (by omega), List.take_replicate,
      Nat.min_eq_left (by omega)]
  unfold sarahBooterSetpid at hset ⊢
  dsimp only at hset ⊢
  rw [hbytes] at hset ⊢
  apply sarahFilePutBuffer_stores
  · intro n hn
    rw [PutEnv.Whole, hn] at henv
    rw [length_pidBytes hpos hlt]
    exact henv
  · by_contra hneg
    rw [if_neg hneg] at hset
    exact absurd hset (by decide)

/-- **A pid that was written is read back.** -/
theorem sarahBooterGetpid_pidBytes {pid : ℤ} (hpos : 0 < pid) (hlt : pid < 2 ^ 31) {env : GetEnv}
    (henv : env.Completes) :
    sarahBooterGetpid env (some (pidBytes pid)) = pid := by
  have hlength := length_pidBytes hpos hlt
  obtain ⟨hopens, hlocks, hgot⟩ := henv
  obtain ⟨n, hn⟩ : ∃ n, env.got = some n := by
    cases hgot' : env.got with
    | none =>
      rw [hgot', Option.getD_none] at hgot
      omega
    | some n => exact ⟨n, rfl⟩
  rw [hn, Option.getD_some] at hgot
  have hget : sarahFileGetBuffer env (some (pidBytes pid)) 11 = some (pidBytes pid) := by
    rw [sarahFileGetBuffer, if_neg (by rw [hopens, hlocks]; decide), hn, Option.map_some,
      List.take_of_length_le hlength.le, List.take_of_length_le (by omega)]
  rw [sarahBooterGetpid, hget]
  dsimp only
  rw [hlength, pidBytes, List.append_assoc, ← List.replicate_add]
  exact (atoi_decimalInt_iff (by omega) (by omega) _).mpr ⟨by omega, hlt⟩

/-! ## Serial steps -/

/-- A start-up reads the pid file while no other one is between its reading and its writing, and no call on the file is
cut short. -/
def Serial (st : PidState ι) : StartupEvent ι → Prop
  | .read _ env => env.Completes ∧ ∀ j, (st.startup j).Between = false
  | .write _ env => env.Whole
  | .check _ _ | .die _ => True

instance (env : GetEnv) : Decidable env.Completes := inferInstanceAs (Decidable (_ ∧ _))

instance (env : PutEnv) : Decidable env.Whole := inferInstanceAs (Decidable (_ ≤ _))

instance (st : PidState ι) : ∀ ev, Decidable (Serial st ev)
  | .read _ _ => inferInstanceAs (Decidable (_ ∧ _))
  | .write _ env => inferInstanceAs (Decidable env.Whole)
  | .check _ _ | .die _ => inferInstanceAs (Decidable True)

/-- What holds between serial steps. -/
structure PidState.Ok (P : Pids ι) (st : PidState ι) : Prop where
  between : ∀ i j, (st.startup i).Between = true → (st.startup j).Between = true → i = j
  own : ∀ i, st.startup i = .main → st.pidFile = some (pidBytes (P.pid i))
  seen : ∀ i pid, st.startup i = .read pid → ∀ j, st.startup j = .main → pid = P.pid j
  alone : ∀ i, st.startup i = .cleared → ∀ j, st.startup j ≠ .main

variable {P : Pids ι} {st : PidState ι}

omit [Fintype ι] in
@[simp] theorem goto_startup_self (i : ι) (s : Startup) : (st.goto i s).startup i = s := by
  simp [PidState.goto]

omit [Fintype ι] in
theorem goto_startup_of_ne {i j : ι} (h : j ≠ i) (s : Startup) : (st.goto i s).startup j = st.startup j := by
  simp [PidState.goto, h]

omit [Fintype ι] in
theorem startup_of_goto {i j : ι} {s t : Startup} (h : (st.goto i s).startup j = t) (hne : s ≠ t) :
    j ≠ i ∧ st.startup j = t := by
  have hji : j ≠ i := by
    rintro rfl
    rw [goto_startup_self] at h
    exact hne h
  rw [goto_startup_of_ne hji] at h
  exact ⟨hji, h⟩

omit [Fintype ι] [DecidableEq ι] in
theorem PidState.Ok.singleInstance (h : st.Ok P) : SingleInstance st := by
  intro i j hi hj
  have hbytes := (h.own i hi).symm.trans (h.own j hj)
  have henv : GetEnv.Completes ⟨true, true, some 11⟩ := ⟨rfl, rfl, le_rfl⟩
  have hread := congrArg (sarahBooterGetpid ⟨true, true, some 11⟩) hbytes
  rw [sarahBooterGetpid_pidBytes (P.pos i) (P.lt i) henv, sarahBooterGetpid_pidBytes (P.pos j) (P.lt j) henv] at hread
  exact P.injective hread

omit [Fintype ι] in
theorem PidState.Ok.gone (h : st.Ok P) (i : ι) : (st.goto i .gone).Ok P := by
  have hbetween : ∀ j, ((st.goto i .gone).startup j).Between = true → (st.startup j).Between = true := by
    intro j hj
    by_cases hji : j = i
    · subst hji
      rw [goto_startup_self] at hj
      cases hj
    · rwa [goto_startup_of_ne hji] at hj
  refine ⟨fun j k hj hk => h.between j k (hbetween j hj) (hbetween k hk), fun j hj => ?_, fun j pid hj k hk => ?_,
    fun j hj k hk => ?_⟩
  · exact h.own j (startup_of_goto hj (by decide)).2
  · exact h.seen j pid (startup_of_goto hj Startup.noConfusion).2 k (startup_of_goto hk (by decide)).2
  · exact h.alone j (startup_of_goto hj (by decide)).2 k (startup_of_goto hk (by decide)).2

omit [DecidableEq ι] in
theorem counter_of_main {i : ι} (hi : st.startup i = .main) (others : ℕ → Bool) :
    st.counter P others (P.pid i) = 0 := by
  have hkill : st.killCheck P others (P.pid i) 0 = true := by
    rw [PidState.killCheck, if_pos ⟨i, rfl, by rw [hi]; rfl⟩]
  rw [PidState.counter, List.range_succ_eq_map, List.find?_cons_of_pos hkill]
  rfl

omit [Fintype ι] in
theorem PidState.Ok.read (h : st.Ok P) {env : GetEnv} (henv : env.Completes)
    (hfree : ∀ j, (st.startup j).Between = false) (i : ι) :
    (st.goto i (.read (sarahBooterGetpid env st.pidFile))).Ok P := by
  have hself : ∀ j, ((st.goto i (.read (sarahBooterGetpid env st.pidFile))).startup j).Between = true → j = i := by
    intro j hj
    by_contra hji
    rw [goto_startup_of_ne hji, hfree j] at hj
    cases hj
  refine ⟨fun j k hj hk => (hself j hj).trans (hself k hk).symm, fun j hj => ?_, fun j pid hj k hk => ?_,
    fun j hj k hk => ?_⟩
  · exact h.own j (startup_of_goto hj Startup.noConfusion).2
  · have hmain := (startup_of_goto hk Startup.noConfusion).2
    have hji := hself j (by rw [hj]; rfl)
    subst hji
    rw [goto_startup_self, Startup.read.injEq] at hj
    rw [← hj, h.own k hmain, sarahBooterGetpid_pidBytes (P.pos k) (P.lt k) henv]
  · exact h.alone j (startup_of_goto hj Startup.noConfusion).2 k (startup_of_goto hk Startup.noConfusion).2

theorem PidState.Ok.cleared (h : st.Ok P) {i : ι} {pid : ℤ} (hi : st.startup i = .read pid) {others : ℕ → Bool}
    (hcheck : ¬ (0 < pid ∧ st.counter P others pid < 3)) : (st.goto i .cleared).Ok P := by
  have hbetween : ∀ j, ((st.goto i .cleared).startup j).Between = true → (st.startup j).Between = true := by
    intro j hj
    by_cases hji : j = i
    · rw [hji, hi]
      rfl
    · rwa [goto_startup_of_ne hji] at hj
  refine ⟨fun j k hj hk => h.between j k (hbetween j hj) (hbetween k hk), fun j hj => ?_, fun j n hj k hk => ?_,
    fun j hj k hk => ?_⟩
  · exact h.own j (startup_of_goto hj (by decide)).2
  · exact h.seen j n (startup_of_goto hj Startup.noConfusion).2 k (startup_of_goto hk (by decide)).2
  · have hmain := (startup_of_goto hk (by decide)).2
    by_cases hji : j = i
    · refine hcheck ?_
      rw [h.seen i pid hi k hmain, counter_of_main hmain]
      exact ⟨P.pos k, by decide⟩
    · rw [goto_startup_of_ne hji] at hj
      exact h.alone j hj k hmain

omit [Fintype ι] in
/-- The only start-up that has passed the check writes its pid. -/
theorem PidState.Ok.write (h : st.Ok P) {i : ι} (hi : st.startup i = .cleared) {env : PutEnv} (henv : env.Whole)
    (hset : (sarahBooterSetpid env (P.pid i) st.pidFile).1 = 0) :
    ({ st with pidFile := (sarahBooterSetpid env (P.pid i) st.pidFile).2 }.goto i .main).Ok P := by
  have hother : ∀ j, j ≠ i → (st.startup j).Between = false := by
    intro j hji
    by_contra hj
    exact hji (h.between j i (eq_true_of_ne_false hj) (by rw [hi]; rfl))
  have hnone : ∀ j, j ≠ i → st.startup j ≠ .main := fun j _ => h.alone i hi j
  refine ⟨fun j k hj hk => ?_, fun j hj => ?_, fun j pid hj k hk => ?_, fun j hj k hk => ?_⟩
  · have hj' : j ≠ i := by
      rintro rfl
      rw [goto_startup_self] at hj
      cases hj
    rw [goto_startup_of_ne hj'] at hj
    exact absurd hj (by rw [hother j hj']; exact Bool.false_ne_true)
  · by_cases hji : j = i
    · subst hji
      exact sarahBooterSetpid_stores (P.pos j) (P.lt j) henv hset
    · rw [goto_startup_of_ne hji] at hj
      exact absurd hj (hnone j hji)
  · obtain ⟨hji, hread⟩ := startup_of_goto hj Startup.noConfusion
    have hfree := hother j hji
    rw [show st.startup j = .read pid from hread] at hfree
    cases hfree
  · obtain ⟨hji, hcleared⟩ := startup_of_goto hj Startup.noConfusion
    have hfree := hother j hji
    rw [show st.startup j = .cleared from hcleared] at hfree
    cases hfree

omit [Fintype ι] [DecidableEq ι] in
/-- A write that fails: whatever it left in the file, no booter relies on it. -/
theorem PidState.Ok.file (h : st.Ok P) (hnone : ∀ j, st.startup j ≠ .main) (file : Option (List UInt8)) :
    PidState.Ok P { st with pidFile := file } :=
  ⟨h.between, fun j hj => absurd hj (hnone j), h.seen, h.alone⟩

/-- **A serial step.** -/
theorem pidStep_ok {ev : StartupEvent ι} {r : PidState ι × Unit} (h : st.Ok P) (hserial : Serial st ev)
    (hstep : pidStep P st ev = some r) : r.1.Ok P := by
  cases ev with
  | die i =>
    cases hstep
    exact h.gone i
  | read i env =>
    simp only [pidStep] at hstep
    cases hi : st.startup i <;> rw [hi] at hstep <;> cases hstep
    exact h.read hserial.1 hserial.2 i
  | check i others =>
    simp only [pidStep] at hstep
    cases hi : st.startup i <;> rw [hi] at hstep <;> cases hstep
    dsimp only
    split_ifs with hcheck
    · exact h.gone i
    · exact h.cleared hi hcheck
  | write i env =>
    simp only [pidStep] at hstep
    cases hi : st.startup i <;> rw [hi] at hstep <;> cases hstep
    dsimp only
    split_ifs with hset
    · exact h.write hi hserial hset
    · exact (h.file (h.alone i hi) _).gone i

omit [Fintype ι] [DecidableEq ι] in
theorem ok_start (P : Pids ι) (pidFile : Option (List UInt8)) : PidState.Ok P ⟨pidFile, fun _ => .init⟩ :=
  ⟨(fun _ _ hi => by cases hi), (fun _ hi => by cases hi), (fun _ _ hi => by cases hi), (fun _ hi => by cases hi)⟩

/-- **Single instance**, in every run of serial steps, whatever the pid file held. -/
theorem single_instance (P : Pids ι) (pidFile : Option (List UInt8)) (evs : List (StartupEvent ι)) (st : PidState ι)
    (outs : List Unit) (hrun : exec (pidStep P) ⟨pidFile, fun _ => .init⟩ evs = some (st, outs))
    (hserial : Guarded (pidStep P) Serial ⟨pidFile, fun _ => .init⟩ evs) : SingleInstance st := by
  have hok : PidState.Ok P st := exec_guarded_invariant (PidState.Ok P) (fun _ _ _ h hs hstep => pidStep_ok h hs hstep)
    evs _ _ (ok_start P pidFile) hserial hrun
  exact hok.singleInstance

/-! ## Two start-ups -/

/-- The processes 100 and 200. -/
def twoPids : Pids Bool where
  pid b := if b then 200 else 100
  pos := by decide
  lt := by decide
  injective := by decide

/-- One after the other, over a stale pid. -/
def serialStartups : List (StartupEvent Bool) :=
  [.read false ⟨true, true, some 11⟩, .check false fun _ => false, .write false ⟨true, true, true, some 11⟩,
    .read true ⟨true, true, some 11⟩, .check true fun _ => false]

theorem single_instance_serial :
    ∃ q, exec (pidStep twoPids) ⟨some (lit "300"), fun _ => .init⟩ serialStartups = some q ∧
    SingleInstance q.1 := by
  obtain ⟨q, hrun⟩ := Option.isSome_iff_exists.mp (show (exec (pidStep twoPids) ⟨some (lit "300"), fun _ => .init⟩
    serialStartups).isSome = true by decide +kernel)
  exact ⟨q, hrun, single_instance twoPids _ serialStartups q.1 q.2 hrun (by decide +kernel)⟩

/-- Both read before either writes. -/
def racingStartups : List (StartupEvent Bool) :=
  [.read false ⟨true, true, some 11⟩, .read true ⟨true, true, some 11⟩, .check false fun _ => false,
    .check true fun _ => false, .write false ⟨true, true, true, some 11⟩, .write true ⟨true, true, true, some 11⟩]

theorem not_single_instance : ¬ ∀ (P : Pids Bool) (pidFile : Option (List UInt8)) (evs : List (StartupEvent Bool))
    (st : PidState Bool) (outs : List Unit), exec (pidStep P) ⟨pidFile, fun _ => .init⟩ evs = some (st, outs) →
      SingleInstance st := by
  intro hall
  obtain ⟨q, hrun⟩ := Option.isSome_iff_exists.mp (show (exec (pidStep twoPids) ⟨none, fun _ => .init⟩
    racingStartups).isSome = true by decide +kernel)
  have hmain : (exec (pidStep twoPids) ⟨none, fun _ => .init⟩ racingStartups).map (fun q =>
      (q.1.startup false, q.1.startup true)) = some (.main, .main) := by decide +kernel
  rw [hrun, Option.map_some, Option.some.injEq, Prod.mk.injEq] at hmain
  cases hall twoPids none racingStartups q.1 q.2 hrun false true hmain.1 hmain.2

end Sarah

import Mathlib.Data.Finset.Option
import SarahClient.Booter.Model

/-!
# The Ghost build

With `_SARAH_GHOST_UDISK_ENABLE` the main loop looks for a valid u-disk in every pass, and stops or continues the
applications by signals. An application forked from the booter starts with the status of the booter, sets it to stop
when it enters its own loop, and reboots begin that way too.

* `UdiskCheck`, `ghostErrno`: the check for the u-disk;
* `Child`, `killApps`, `bear`: the children, with the signals sent to them and not yet delivered;
* `Ghost`, `GhostEvent`, `ghostStep`: steps of the booter between start-ups, deliveries and crashes;
* `Calm`: the steps that lose no signal; `WakeupKept`: the children follow the u-disk;
* **`ghost_wakeup`**: in a run of calm steps they do;
* **`exec_pass`**: a pass, step by step, does to the applications what one of the plain build does.
-/

namespace Sarah

open Machine Procs

/-! ## The check for the u-disk -/

/-- What a pass meets: a disk that `get_ghost_udisk` takes, its `config.json`, and the app key in it. -/
structure UdiskCheck where
  udisk : Bool
  config : Bool
  appKey : Bool

/-- `ghost_errno`, and `has_ghost_udisk` after the error handling. -/
def ghostErrno (hasGhostUdisk : Bool) (u : UdiskCheck) : ℕ × Bool :=
  if hasGhostUdisk = false ∧ u.udisk = false then (1, false)
  else if u.config = false then (2, false)
  else if u.appKey = false then (3, true)
  else (0, true)

/-! ## The children -/

/-- A child, by its process id: `starting` until it sets its own status, and the signals on their way to it. -/
structure Child where
  name : String
  starting : Bool
  status : ProcStatus
  pending : Finset Signal
  deriving DecidableEq

/-- The applications that stop without a u-disk. -/
def ghostApps : List String := ["sarah-collector", "sarah-executor", "sarah-updater"]

/-- `kill(pid, s)`: the id -1 stands for every child. A signal that is already pending is not queued again. -/
def killApp (running : Finset ℕ) (s : Signal) (pid : Option ℕ) (child : ℕ → Child) (p : ℕ) : Child :=
  if p ∈ running ∧ (pid = some p ∨ pid = none) then { child p with pending := insert s (child p).pending } else child p

/-- The loop over the applications. -/
def killApps (running : Finset ℕ) (s : Signal) : List Application → (ℕ → Child) → ℕ → Child
  | [], child => child
  | app :: apps, child => killApps running s apps (killApp running s app.pid child)

/-- A new child starts with the status of the booter. -/
def bear (status : ProcStatus) (app : Application) (child : ℕ → Child) : ℕ → Child :=
  match app.pid with
  | some p => Function.update child p ⟨app.name, true, status, ∅⟩
  | none => child

/-! ## The main loop -/

/-- Where the booter is in a pass: before the check for the u-disk, before the supervising loop, or at an entry of it.
-/
inductive Phase
  | top
  | supervise
  | entry (i : ℕ)
  deriving DecidableEq

/-- The booter of the Ghost build; `found` is what the last check found. -/
structure Ghost extends Booter where
  phase : Phase
  hasGhostUdisk : Bool
  sigstopSended : Bool
  sigcontSended : Bool
  child : ℕ → Child
  found : Option Bool

variable (K : Kernel)

/-- The booter when it enters the main loop. -/
def ghostStart : Ghost where
  toBooter := booterStart K
  phase := .top
  hasGhostUdisk := false
  sigstopSended := false
  sigcontSended := false
  child := (booterStart K).apps.foldr (bear .ready) fun _ => ⟨"", true, .ready, ∅⟩
  found := none

/-- The check for the u-disk, and the signals after it. -/
def ghostCheck (st : Ghost) (u : UdiskCheck) : Ghost :=
  let r := ghostErrno st.hasGhostUdisk u
  let st' := { st with hasGhostUdisk := r.2, found := some (r.1 = 0), phase := .supervise }
  if 0 < r.1 then
    if st.sigstopSended = false then
      { st' with
        child := killApps st.procs.running .stop st.apps st.child
        sigcontSended := false
        sigstopSended := true }
    else st'
  else if st.sigcontSended = false then
    { st' with
      child := killApps st.procs.running .cont st.apps st.child
      sigstopSended := false
      sigcontSended := true }
  else st'

/-- The body of the supervising loop at the entry `i`, which steps on by two. -/
def ghostEntry (st : Ghost) (i : ℕ) : Ghost :=
  match st.apps[i]? with
  | none => { st with phase := .top }
  | some app =>
    let r := checkApp K app st.procs
    { st with apps := st.apps.set i r.1.1
              procs := r.2
              child := if r.1.2 then bear st.status r.1.1 st.child else st.child
              phase := .entry (i + 2) }

/-- One step of the booter. -/
def ghostBooterStep (st : Ghost) (u : UdiskCheck) : Ghost :=
  match st.phase with
  | .top =>
    if st.status = .restart ∨ st.status = .exit then
      { st with procs := stopApps st.apps st.procs, stopped := true }
    else ghostCheck st u
  | .supervise => { st with phase := if st.status = .running then .entry 0 else .top }
  | .entry i => ghostEntry K st i

/-- What happens next: a step of the booter, a signal to it, the end of a child, its entry into its own loop, or the
delivery of a signal to it. -/
inductive GhostEvent
  | booter (u : UdiskCheck)
  | signal (s : Signal)
  | crash (p : ℕ)
  | started (p : ℕ)
  | deliver (p : ℕ) (s : Signal)

/-- The state of one child is replaced. -/
def Ghost.setChild (st : Ghost) (p : ℕ) (c : Child) : Ghost := { st with child := Function.update st.child p c }

/-- One event; `none` when it cannot happen. -/
def ghostStep (st : Ghost) (ev : GhostEvent) : Option (Ghost × Unit) :=
  if st.stopped then none
  else
    match ev with
    | .booter u => some (ghostBooterStep K st u, ())
    | .signal s => some ({ st with status := signalHandler st.status s }, ())
    | .crash p => some ({ st with procs := st.procs.die p }, ())
    | .started p =>
      if p ∈ st.procs.running ∧ (st.child p).starting = true then
        some (st.setChild p { st.child p with starting := false, status := .stop }, ())
      else none
    | .deliver p s =>
      if p ∈ st.procs.running ∧ s ∈ (st.child p).pending then
        some (st.setChild p { st.child p with status := signalHandler (st.child p).status s
                                              pending := (st.child p).pending.erase s }, ())
      else none

/-! ## The wake-up -/

/-- When every signal has been handled, the children run after a check that found the u-disk, and those that have
started are stopped after one that did not. -/
def WakeupKept (st : Ghost) : Prop :=
  (∀ p ∈ st.procs.running, (st.child p).pending = ∅) →
    ∀ p ∈ st.procs.running, (st.child p).name ∈ ghostApps →
      (st.found = some true → (st.child p).status = .running) ∧
      (st.found = some false → (st.child p).starting = false → (st.child p).status = .stop)

/-- The check sends a signal. -/
def Ghost.Sends (st : Ghost) (u : UdiskCheck) : Prop :=
  if 0 < (ghostErrno st.hasGhostUdisk u).1 then st.sigstopSended = false else st.sigcontSended = false

/-- A step that loses no signal: no pass sends one while an earlier one is pending, no application is rebooted after the
signal to continue was sent, and none gets that signal while it is still starting. -/
def Calm (st : Ghost) : GhostEvent → Prop
  | .booter u =>
    match st.phase with
    | .top => ¬ (st.status = .restart ∨ st.status = .exit) → st.Sends u →
        ∀ p ∈ st.procs.running, (st.child p).name ∈ ghostApps → (st.child p).pending = ∅
    | .supervise => True
    | .entry i => st.sigcontSended = true → ∀ app ∈ st.apps[i]?, app.name ∈ ghostApps →
        wait K st.procs app.pid = none
  | .deliver p .cont => (st.child p).name ∈ ghostApps → (st.child p).starting = false
  | .deliver _ _ | .signal _ | .crash _ | .started _ => True

/-! ## What calm steps keep -/

/-- A child after a check: with a signal to handle, or as that signal left it. -/
def Child.Settled (c : Child) : Option Bool → Prop
  | none => c.pending = ∅
  | some true => c.pending ⊆ {.cont} ∧ (Signal.cont ∈ c.pending ∨ (c.starting = false ∧ c.status = .running))
  | some false => c.pending ⊆ {.stop} ∧ (Signal.stop ∈ c.pending ∨ c.starting = true ∨ c.status = .stop)

/-- The invariant of calm runs: the flags tell what the last check found, and its signal is on the way or handled. -/
structure Ghost.Ok (st : Ghost) : Prop where
  split : st.procs.Split
  covered : ∀ p ∈ st.procs.running, ∃ app ∈ st.apps, app.pid = some p
  sigstop : st.sigstopSended = true ↔ st.found = some false
  sigcont : st.sigcontSended = true ↔ st.found = some true
  settled : ∀ p ∈ st.procs.running, (st.child p).name ∈ ghostApps → (st.child p).Settled st.found

variable {st : Ghost} {K}

theorem killApps_apply (running : Finset ℕ) (s : Signal) (apps : List Application) (child : ℕ → Child) (p : ℕ) :
    killApps running s apps child p =
      if p ∈ running ∧ ∃ app ∈ apps, app.pid = some p ∨ app.pid = none then
        { child p with pending := insert s (child p).pending }
      else child p := by
  induction apps generalizing child with
  | nil =>
    rw [killApps, if_neg]
    rintro ⟨-, app, happ, -⟩
    exact List.not_mem_nil happ
  | cons app apps ih =>
    rw [killApps, ih]
    by_cases hp : p ∈ running
    · by_cases happ : app.pid = some p ∨ app.pid = none
      · -- killed here, and perhaps once more
        have hkill : killApp running s app.pid child p = { child p with pending := insert s (child p).pending } :=
          if_pos ⟨hp, happ⟩
        rw [hkill]
        dsimp only
        rw [Finset.insert_idem, ite_self, if_pos ⟨hp, app, List.mem_cons_self, happ⟩]
      · have hkill : killApp running s app.pid child p = child p := if_neg fun h => happ h.2
        have hiff : (∃ a ∈ app :: apps, a.pid = some p ∨ a.pid = none) ↔
            ∃ a ∈ apps, a.pid = some p ∨ a.pid = none := by
          rw [List.exists_mem_cons_iff, or_iff_right happ]
        simp only [hkill, hiff]
    · have hkill : killApp running s app.pid child p = child p := if_neg fun h => hp h.1
      rw [if_neg fun h => hp h.1, if_neg fun h => hp h.1, hkill]

theorem bear_apply (status : ProcStatus) (app : Application) (child : ℕ → Child) (p : ℕ) :
    bear status app child p = if app.pid = some p then ⟨app.name, true, status, ∅⟩ else child p := by
  cases hpid : app.pid with
  | none => rw [bear, hpid, if_neg fun h => by cases h]
  | some q =>
    rw [bear, hpid]
    dsimp only
    by_cases hqp : p = q
    · rw [hqp, Function.update_self, if_pos rfl]
    · rw [Function.update_of_ne hqp, if_neg fun h => hqp (Option.some.inj h).symm]

/-- The body of the supervising loop: the entry is left, or a child that had ended is reaped and the entry forked. -/
theorem checkApp_cases (app : Application) (t : Procs) :
    (wait K t app.pid = none ∧ checkApp K app t = ((app, false), t)) ∨
    (wait K t app.pid ≠ none ∧ ∃ q ∈ t.zombie, (∀ p, app.pid = some p → p = q) ∧
      checkApp K app t = (({ app with pid := (fork K (t.reap q)).1 }, true), (fork K (t.reap q)).2)) := by
  cases hwait : wait K t app.pid with
  | none =>
    left
    exact ⟨rfl, by rw [checkApp, hwait]⟩
  | some t' =>
    obtain ⟨q, hq, rfl, hpid⟩ := wait_eq_some hwait
    right
    exact ⟨Option.some_ne_none _, q, hq, hpid, by rw [checkApp, hwait]⟩

theorem Ghost.Ok.wakeupKept (h : st.Ok) : WakeupKept st := by
  intro hquiet p hp hname
  have hsettled := h.settled p hp hname
  have hempty := hquiet p hp
  constructor
  · intro hfound
    rw [hfound] at hsettled
    obtain hpending | ⟨-, hrunning⟩ := hsettled.2
    · rw [hempty] at hpending
      exact absurd hpending (Finset.notMem_empty _)
    · exact hrunning
  · intro hfound hstarted
    rw [hfound] at hsettled
    obtain hpending | hstarting | hstop := hsettled.2
    · rw [hempty] at hpending
      exact absurd hpending (Finset.notMem_empty _)
    · rw [hstarted] at hstarting
      cases hstarting
    · exact hstop

theorem Ghost.Ok.check (h : st.Ok) (u : UdiskCheck) (hquiet : st.Sends u →
    ∀ p ∈ st.procs.running, (st.child p).name ∈ ghostApps → (st.child p).pending = ∅) : (ghostCheck st u).Ok := by
  have hkilled : ∀ s, ∀ p ∈ st.procs.running, killApps st.procs.running s st.apps st.child p =
      { st.child p with pending := insert s (st.child p).pending } := by
    intro s p hp
    obtain ⟨app, happ, hpid⟩ := h.covered p hp
    rw [killApps_apply, if_pos ⟨hp, app, happ, .inl hpid⟩]
  unfold ghostCheck
  unfold Ghost.Sends at hquiet
  dsimp only
  by_cases herr : 0 < (ghostErrno st.hasGhostUdisk u).1
  · have hfound : decide ((ghostErrno st.hasGhostUdisk u).1 = 0) = false := decide_eq_false (Nat.ne_of_gt herr)
    rw [if_pos herr] at hquiet ⊢
    by_cases hsent : st.sigstopSended = false
    · rw [if_pos hsent, hfound]
      refine ⟨h.split, h.covered, ⟨fun _ => rfl, fun _ => rfl⟩, ⟨(fun hc => by cases hc), (fun hc => by cases hc)⟩, ?_⟩
      intro p hp hname
      dsimp only at hp hname ⊢
      rw [hkilled .stop p hp] at hname ⊢
      rw [hquiet hsent p hp hname]
      exact ⟨Finset.Subset.refl _, .inl (Finset.mem_insert_self _ _)⟩
    · have hfalse := h.sigstop.mp (eq_true_of_ne_false hsent)
      rw [if_neg hsent, hfound, ← hfalse]
      exact ⟨h.split, h.covered, h.sigstop, h.sigcont, h.settled⟩
  · have hfound : decide ((ghostErrno st.hasGhostUdisk u).1 = 0) = true := decide_eq_true (by omega)
    rw [if_neg herr] at hquiet ⊢
    by_cases hsent : st.sigcontSended = false
    · rw [if_pos hsent, hfound]
      refine ⟨h.split, h.covered, ⟨(fun hc => by cases hc), (fun hc => by cases hc)⟩, ⟨fun _ => rfl, fun _ => rfl⟩, ?_⟩
      intro p hp hname
      dsimp only at hp hname ⊢
      rw [hkilled .cont p hp] at hname ⊢
      rw [hquiet hsent p hp hname]
      exact ⟨Finset.Subset.refl _, .inl (Finset.mem_insert_self _ _)⟩
    · have htrue := h.sigcont.mp (eq_true_of_ne_false hsent)
      rw [if_neg hsent, hfound, ← htrue]
      exact ⟨h.split, h.covered, h.sigstop, h.sigcont, h.settled⟩

/-- An entry of the supervising loop, not rebooted once the signal to continue was sent. -/
theorem Ghost.Ok.entry (h : st.Ok) {i : ℕ} (hcalm : st.sigcontSended = true → ∀ app ∈ st.apps[i]?,
    app.name ∈ ghostApps → wait K st.procs app.pid = none) : (ghostEntry K st i).Ok := by
  unfold ghostEntry
  cases hget : st.apps[i]? with
  | none => exact ⟨h.split, h.covered, h.sigstop, h.sigcont, h.settled⟩
  | some app =>
    obtain ⟨hi, rfl⟩ := List.getElem?_eq_some_iff.mp hget
    dsimp only
    obtain ⟨-, hcheck⟩ | ⟨hwait, q, hq, hpid, hcheck⟩ := checkApp_cases (K := K) st.apps[i] st.procs
    · rw [hcheck]
      dsimp only
      rw [List.set_getElem_self, if_neg Bool.false_ne_true]
      exact ⟨h.split, h.covered, h.sigstop, h.sigcont, h.settled⟩
    · rw [hcheck]
      dsimp only
      rw [if_pos rfl]
      have hold : ∀ p ∈ (fork K (st.procs.reap q)).2.running, (fork K (st.procs.reap q)).1 ≠ some p →
          p ∈ st.procs.running := fun p hp hne => (mem_fork_running hp).resolve_right hne
      refine ⟨(h.split.reap q).fork, fun p hp => ?_, h.sigstop, h.sigcont, fun p hp hname => ?_⟩
      · by_cases hnew : (fork K (st.procs.reap q)).1 = some p
        · exact ⟨_, List.mem_of_getElem? (List.getElem?_set_self hi), hnew⟩
        · have hrun := hold p hp hnew
          obtain ⟨app, happ, hp'⟩ := h.covered p hrun
          obtain ⟨j, hj, rfl⟩ := List.getElem_of_mem happ
          have hji : i ≠ j := by
            rintro rfl
            exact h.split p hrun (by rw [hpid p hp']; exact hq)
          refine ⟨st.apps[j], List.mem_of_getElem? (i := j) ?_, hp'⟩
          rw [List.getElem?_set_ne hji, List.getElem?_eq_getElem hj]
      · dsimp only at hp hname ⊢
        rw [bear_apply] at hname ⊢
        dsimp only at hname ⊢
        by_cases hnew : (fork K (st.procs.reap q)).1 = some p
        · rw [if_pos hnew] at hname ⊢
          cases hfound : st.found with
          | none => rfl
          | some b =>
            cases b with
            | false => exact ⟨Finset.empty_subset _, .inr (.inl rfl)⟩
            | true => exact absurd (hcalm (h.sigcont.mpr hfound) _ hget hname) hwait
        · rw [if_neg hnew] at hname ⊢
          exact h.settled p (hold p hp hnew) hname

theorem stopApps_spec (apps : List Application) (t : Procs) (h : t.Split) :
    (stopApps apps t).Split ∧ ∀ p ∈ (stopApps apps t).running, p ∈ t.running := by
  induction apps generalizing t with
  | nil => exact ⟨h, fun _ hp => hp⟩
  | cons app apps ih =>
    rw [stopApps]
    cases app.pid with
    | none => exact ih t h
    | some q =>
      obtain ⟨hsplit, hrun⟩ := ih ((t.die q).reap q) ((h.die q).reap q)
      exact ⟨hsplit, fun p hp => (mem_die_running.mp (hrun p hp)).2⟩

theorem Ghost.Ok.ends (h : st.Ok) {t : Procs} (hsplit : t.Split) (hrun : ∀ p ∈ t.running, p ∈ st.procs.running)
    (stopped : Bool) : Ghost.Ok { st with procs := t, stopped := stopped } :=
  ⟨hsplit, fun p hp => h.covered p (hrun p hp), h.sigstop, h.sigcont, fun p hp => h.settled p (hrun p hp)⟩

theorem Ghost.Ok.setChild (h : st.Ok) {p : ℕ} {c : Child} (hname : c.name = (st.child p).name)
    (hsettled : (st.child p).name ∈ ghostApps → c.Settled st.found) : (st.setChild p c).Ok := by
  refine ⟨h.split, h.covered, h.sigstop, h.sigcont, fun q hq hqname => ?_⟩
  unfold Ghost.setChild at hq hqname ⊢
  dsimp only at hq hqname ⊢
  by_cases hqp : q = p
  · subst hqp
    rw [Function.update_self] at hqname ⊢
    rw [hname] at hqname
    exact hsettled hqname
  · rw [Function.update_of_ne hqp] at hqname ⊢
    exact h.settled q hq hqname

theorem Child.Settled.started {c : Child} {found : Option Bool} (h : c.Settled found) (hstarting : c.starting = true) :
    Child.Settled { c with starting := false, status := .stop } found := by
  cases found with
  | none => exact h
  | some b =>
    cases b with
    | false => exact ⟨h.1, .inr (.inr rfl)⟩
    | true =>
      refine ⟨h.1, .inl (h.2.resolve_right ?_)⟩
      rintro ⟨hstarted, -⟩
      rw [hstarting] at hstarted
      cases hstarted

theorem Child.Settled.deliver {c : Child} {found : Option Bool} (h : c.Settled found) {s : Signal} (hs : s ∈ c.pending)
    (hcalm : s = .cont → c.starting = false) :
    Child.Settled { c with status := signalHandler c.status s, pending := c.pending.erase s } found := by
  cases found with
  | none =>
    rw [show c.pending = ∅ from h] at hs
    exact absurd hs (Finset.notMem_empty s)
  | some b =>
    cases b with
    | false =>
      obtain rfl := Finset.mem_singleton.mp (h.1 hs)
      exact ⟨(Finset.erase_subset _ _).trans h.1, .inr (.inr rfl)⟩
    | true =>
      obtain rfl := Finset.mem_singleton.mp (h.1 hs)
      exact ⟨(Finset.erase_subset _ _).trans h.1, .inr ⟨hcalm rfl, rfl⟩⟩

/-- **A calm step.** -/
theorem ghostStep_ok {ev : GhostEvent} {r : Ghost × Unit} (h : st.Ok) (hcalm : Calm K st ev)
    (hstep : ghostStep K st ev = some r) : r.1.Ok := by
  unfold ghostStep at hstep
  split_ifs at hstep
  cases ev with
  | booter u =>
    cases hstep
    dsimp only [Calm] at hcalm
    dsimp only [ghostBooterStep]
    cases hphase : st.phase with
    | top =>
      rw [hphase] at hcalm
      dsimp only at hcalm ⊢
      split_ifs with hstop
      · obtain ⟨hsplit, hrun⟩ := stopApps_spec st.apps st.procs h.split
        rw [← hphase]
        exact h.ends hsplit hrun true
      · exact h.check u (hcalm hstop)
    | supervise => exact ⟨h.split, h.covered, h.sigstop, h.sigcont, h.settled⟩
    | entry i =>
      rw [hphase] at hcalm
      exact h.entry hcalm
  | signal s =>
    cases hstep
    exact ⟨h.split, h.covered, h.sigstop, h.sigcont, h.settled⟩
  | crash p =>
    cases hstep
    exact h.ends (h.split.die p) (fun q hq => (mem_die_running.mp hq).2) st.stopped
  | started p =>
    dsimp only at hstep
    split_ifs at hstep with hp
    cases hstep
    exact h.setChild rfl fun hname => (h.settled p hp.1 hname).started hp.2
  | deliver p s =>
    dsimp only at hstep
    split_ifs at hstep with hp
    cases hstep
    refine h.setChild rfl fun hname => (h.settled p hp.1 hname).deliver hp.2 ?_
    rintro rfl
    exact hcalm hname

/-! ## Runs -/

theorem startApps_spec (names : List String) (t : Procs) (h : t.Split) : (startApps K names t).2.Split ∧
    ∀ p ∈ (startApps K names t).2.running, p ∈ t.running ∨ ∃ app ∈ (startApps K names t).1, app.pid = some p := by
  induction names generalizing t with
  | nil => exact ⟨h, fun p hp => .inl hp⟩
  | cons name names ih =>
    obtain ⟨hsplit, hrun⟩ := ih (fork K t).2 h.fork
    refine ⟨hsplit, fun p hp => ?_⟩
    obtain hold | ⟨app, happ, hpid⟩ := hrun p hp
    · exact (mem_fork_running hold).imp_right fun hnew => ⟨_, List.mem_cons_self, hnew⟩
    · exact .inr ⟨app, List.mem_cons_of_mem _ happ, hpid⟩

theorem pending_bear (apps : List Application) (child : ℕ → Child) (h : ∀ p, (child p).pending = ∅) (p : ℕ) :
    (apps.foldr (bear .ready) child p).pending = ∅ := by
  induction apps with
  | nil => exact h p
  | cons app apps ih =>
    rw [List.foldr_cons, bear_apply]
    split_ifs
    · rfl
    · exact ih

theorem ok_ghostStart (K : Kernel) : (ghostStart K).Ok := by
  obtain ⟨hsplit, hrun⟩ := startApps_spec (K := K) internalApps ⟨∅, ∅, 0⟩ fun p hp => absurd hp (Finset.notMem_empty p)
  refine ⟨hsplit, fun p hp => (hrun p hp).resolve_left (Finset.notMem_empty p),
    ⟨(fun h => by cases h), (fun h => by cases h)⟩, ⟨(fun h => by cases h), (fun h => by cases h)⟩, fun p _ _ => ?_⟩
  exact pending_bear _ _ (fun _ => rfl) p

/-- **The wake-up is kept** in every run of calm steps. -/
theorem ghost_wakeup (K : Kernel) (evs : List GhostEvent) (st : Ghost) (outs : List Unit)
    (hrun : exec (ghostStep K) (ghostStart K) evs = some (st, outs))
    (hcalm : Guarded (ghostStep K) (Calm K) (ghostStart K) evs) : WakeupKept st := by
  have hok : st.Ok := exec_guarded_invariant Ghost.Ok (fun _ _ _ h hc hstep => ghostStep_ok h hc hstep)
    evs _ _ (ok_ghostStart K) hcalm hrun
  exact hok.wakeupKept

/-! ## A pass of the main loop -/

theorem ghostStep_booter (hstopped : st.stopped = false) (u : UdiskCheck) :
    ghostStep K st (.booter u) = some (ghostBooterStep K st u, ()) := by
  rw [ghostStep, if_neg (by rw [hstopped]; decide)]

theorem exec_booter_succ {st' : Ghost} (hstopped : st.stopped = false) (u : UdiskCheck) {n : ℕ}
    (hrun : exec (ghostStep K) (ghostBooterStep K st u) (List.replicate n (.booter u)) =
      some (st', List.replicate n ())) :
    exec (ghostStep K) st (List.replicate (n + 1) (.booter u)) = some (st', List.replicate (n + 1) ()) := by
  rw [List.replicate_succ, exec_cons_of_step (ghostStep_booter hstopped u), hrun]
  rfl

theorem exec_entries (u : UdiskCheck) : ∀ (post pre : List Application) (st : Ghost) {r : List (Application × Bool)}
    {t : Procs}, st.stopped = false → st.phase = .entry pre.length → st.apps = pre ++ post →
    superviseFrom K post st.procs = some (r, t) →
    ∃ n st', exec (ghostStep K) st (List.replicate n (.booter u)) = some (st', List.replicate n ()) ∧
      st'.phase = .top ∧ st'.toBooter = { st.toBooter with apps := pre ++ r.map Prod.fst, procs := t }
  | [], pre, st, r, t, hstopped, hphase, happs, hr => by
    cases hr
    have hstep : ghostBooterStep K st u = { st with phase := .top } := by
      rw [ghostBooterStep, hphase]
      dsimp only
      rw [ghostEntry, happs, List.append_nil, List.getElem?_eq_none (Nat.le_refl _)]
    refine ⟨1, _, exec_booter_succ hstopped u (n := 0) rfl, ?_, ?_⟩
    · rw [hstep]
    · rw [hstep, List.map_nil, ← happs]
  | [app], pre, st, r, t, hstopped, hphase, happs, hr => by cases hr
  | app :: skipped :: rest, pre, st, r, t, hstopped, hphase, happs, hr => by
    rw [superviseFrom] at hr
    obtain ⟨q, hq, heq⟩ := Option.map_eq_some_iff.mp hr
    cases heq
    have hget : st.apps[pre.length]? = some app := by
      rw [happs, List.getElem?_append_right (Nat.le_refl _), Nat.sub_self, List.getElem?_cons_zero]
    obtain ⟨st₁, hst₁⟩ : ∃ st₁, st₁ = ghostBooterStep K st u := ⟨_, rfl⟩
    have hstep := hst₁
    rw [ghostBooterStep, hphase] at hstep
    dsimp only at hstep
    rw [ghostEntry, hget] at hstep
    have happs₁ : st₁.apps = (pre ++ [(checkApp K app st.procs).1.1, skipped]) ++ rest := by
      rw [hstep, happs]
      simp
    obtain ⟨n, st', hrun, htop, hbooter⟩ := exec_entries u rest (pre ++ [(checkApp K app st.procs).1.1, skipped]) st₁
      (by rw [hstep]; exact hstopped) (by rw [hstep, List.length_append]; rfl) happs₁ (by rw [hstep]; exact hq)
    refine ⟨n + 1, st', exec_booter_succ hstopped u (hst₁ ▸ hrun), htop, ?_⟩
    rw [hbooter, hstep]
    simp

theorem ghostCheck_spec (st : Ghost) (u : UdiskCheck) :
    (ghostCheck st u).toBooter = st.toBooter ∧ (ghostCheck st u).phase = .supervise := by
  unfold ghostCheck
  dsimp only
  split_ifs <;> exact ⟨rfl, rfl⟩

theorem supervisorPass_cases {st b : Booter} {l : List (Application × Bool)} (h : supervisorPass K st = some (l, b)) :
    ((st.status = .restart ∨ st.status = .exit) ∧ b = { st with procs := stopApps st.apps st.procs, stopped := true }) ∨
    (¬ (st.status = .restart ∨ st.status = .exit) ∧ st.status ≠ .running ∧ b = st) ∨
    (st.status = .running ∧ ∃ t, superviseFrom K st.apps st.procs = some (l, t) ∧
      b = { st with apps := l.map Prod.fst, procs := t }) := by
  unfold supervisorPass at h
  split at h
  next hstatus =>
    cases h
    exact .inl ⟨.inl hstatus, rfl⟩
  next hstatus =>
    cases h
    exact .inl ⟨.inr hstatus, rfl⟩
  next hstatus =>
    obtain ⟨⟨r, t⟩, hr, heq⟩ := Option.map_eq_some_iff.mp h
    cases heq
    exact .inr (.inr ⟨hstatus, t, hr, rfl⟩)
  next hstatus =>
    cases h
    exact .inr (.inl (by simp [hstatus]))
  next hstatus =>
    cases h
    exact .inr (.inl (by simp [hstatus]))

/-- **A pass of the Ghost build** does to the applications what one of `supervisorPass` does. -/
theorem exec_pass (u : UdiskCheck) {l : List (Application × Bool)} {b : Booter} (hstopped : st.stopped = false)
    (hphase : st.phase = .top) (hpass : supervisorPass K st.toBooter = some (l, b)) :
    ∃ n st', exec (ghostStep K) st (List.replicate n (.booter u)) = some (st', List.replicate n ()) ∧
      st'.phase = .top ∧ st'.toBooter = b := by
  obtain ⟨hbooter₁, hphase₁⟩ := ghostCheck_spec st u
  have hstopped₁ : (ghostCheck st u).stopped = false := by rw [hbooter₁, hstopped]
  -- the step behind the check
  have hstep₂ : ghostBooterStep K (ghostCheck st u) u =
      { ghostCheck st u with phase := if st.status = .running then .entry 0 else .top } := by
    rw [ghostBooterStep, hphase₁]
    dsimp only
    rw [hbooter₁]
  obtain ⟨hstop, rfl⟩ | ⟨hstop, hrunning, rfl⟩ | ⟨hrunning, t, hr, rfl⟩ := supervisorPass_cases hpass
  · have hstep : ghostBooterStep K st u = { st with procs := stopApps st.apps st.procs, stopped := true } := by
      rw [ghostBooterStep, hphase]
      exact if_pos hstop
    refine ⟨1, _, exec_booter_succ hstopped u (n := 0) rfl, ?_, ?_⟩
    · rw [hstep]
      exact hphase
    · rw [hstep]
  · have hstep₁ : ghostBooterStep K st u = ghostCheck st u := by
      rw [ghostBooterStep, hphase]
      exact if_neg hstop
    rw [if_neg hrunning] at hstep₂
    refine ⟨2, { ghostCheck st u with phase := .top }, exec_booter_succ hstopped u ?_, rfl, hbooter₁⟩
    rw [hstep₁]
    refine exec_booter_succ hstopped₁ u (n := 0) ?_
    rw [hstep₂]
    rfl
  · have hstep₁ : ghostBooterStep K st u = ghostCheck st u := by
      rw [ghostBooterStep, hphase]
      exact if_neg (by rw [hrunning]; decide)
    rw [if_pos hrunning] at hstep₂
    obtain ⟨n, st', hrun, htop, hbooter⟩ := exec_entries u st.apps [] { ghostCheck st u with phase := .entry 0 }
      hstopped₁ rfl (by rw [hbooter₁, List.nil_append]) (by rw [hbooter₁]; exact hr)
    refine ⟨n + 2, st', exec_booter_succ hstopped u ?_, htop, ?_⟩
    · rw [hstep₁]
      refine exec_booter_succ hstopped₁ u ?_
      rw [hstep₂]
      exact hrun
    · rw [hbooter]
      dsimp only
      rw [hbooter₁, List.nil_append]

/-! ## Runs of the booter -/

instance (st : Ghost) (u : UdiskCheck) : Decidable (st.Sends u) :=
  inferInstanceAs (Decidable (if 0 < (ghostErrno st.hasGhostUdisk u).1 then st.sigstopSended = false
    else st.sigcontSended = false))

instance (st : Ghost) : ∀ ev, Decidable (Calm K st ev)
  | .booter u =>
    match h : st.phase with
    | .top => decidable_of_iff (¬ (st.status = .restart ∨ st.status = .exit) → st.Sends u →
        ∀ p ∈ st.procs.running, (st.child p).name ∈ ghostApps → (st.child p).pending = ∅) (by rw [Calm, h])
    | .supervise => .isTrue (by rw [Calm, h]; trivial)
    | .entry i => decidable_of_iff (st.sigcontSended = true → ∀ app ∈ st.apps[i]?, app.name ∈ ghostApps →
        wait K st.procs app.pid = none) (by rw [Calm, h])
  | .deliver p .cont => inferInstanceAs (Decidable ((st.child p).name ∈ ghostApps → (st.child p).starting = false))
  | .deliver _ .stop | .deliver _ .exit01 | .deliver _ .exit02 | .deliver _ .check | .deliver _ .restart
  | .signal _ | .crash _ | .started _ => .isTrue trivial

/-- No disk is found. -/
def noUdisk : UdiskCheck := ⟨false, false, false⟩

/-- A valid disk is found. -/
def validUdisk : UdiskCheck := ⟨true, true, true⟩

/-- The executor ends and is rebooted while there is no u-disk; then one is put in. -/
def wakeupEvents : List GhostEvent :=
  [.started 1, .started 2, .started 3, .started 4, .booter noUdisk, .booter noUdisk, .deliver 1 .stop, .deliver 2 .stop,
    .deliver 3 .stop, .deliver 4 .stop, .crash 3, .signal .cont, .booter noUdisk, .booter noUdisk, .booter noUdisk,
    .booter noUdisk, .booter noUdisk, .started 5, .booter validUdisk, .deliver 1 .cont, .deliver 2 .cont,
    .deliver 4 .cont, .deliver 5 .cont]

theorem ghost_wakeup_reboot : ∃ q, exec (ghostStep Kernel.bump) (ghostStart Kernel.bump) wakeupEvents = some q ∧
    WakeupKept q.1 := by
  obtain ⟨q, hrun⟩ := Option.isSome_iff_exists.mp (show (exec (ghostStep Kernel.bump) (ghostStart Kernel.bump)
    wakeupEvents).isSome = true by decide +kernel)
  exact ⟨q, hrun, ghost_wakeup Kernel.bump wakeupEvents q.1 q.2 hrun (by decide +kernel)⟩

/-- The signal to continue comes before the children have set their status. -/
def lostEvents : List GhostEvent :=
  [.booter validUdisk, .deliver 1 .cont, .deliver 2 .cont, .deliver 3 .cont, .deliver 4 .cont, .started 1, .started 2,
    .started 3, .started 4]

theorem not_ghost_wakeup : ¬ ∀ (K : Kernel) (evs : List GhostEvent) (st : Ghost) (outs : List Unit),
    exec (ghostStep K) (ghostStart K) evs = some (st, outs) → WakeupKept st := by
  intro hall
  obtain ⟨q, hrun⟩ := Option.isSome_iff_exists.mp (show (exec (ghostStep Kernel.bump) (ghostStart Kernel.bump)
    lostEvents).isSome = true by decide +kernel)
  have hend : (exec (ghostStep Kernel.bump) (ghostStart Kernel.bump) lostEvents).map (fun q =>
      (decide (∀ p ∈ q.1.procs.running, (q.1.child p).pending = ∅), decide (3 ∈ q.1.procs.running),
        decide ((q.1.child 3).name ∈ ghostApps), q.1.found, (q.1.child 3).status)) =
      some (true, true, true, some true, .stop) := by decide +kernel
  rw [hrun, Option.map_some, Option.some.injEq] at hend
  simp only [Prod.mk.injEq, decide_eq_true_eq] at hend
  obtain ⟨hquiet, hlive, hname, hfound, hstatus⟩ := hend
  have hrunning := (hall Kernel.bump lostEvents q.1 q.2 hrun hquiet 3 hlive hname).1 hfound
  rw [hstatus] at hrunning
  cases hrunning

end Sarah

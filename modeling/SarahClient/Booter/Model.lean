import SarahClient.Lib.Machine
import SarahClient.Lib.Procs

/-!
# The booter of `sarah.c`

The main loop forks the internal applications once and then supervises them; this is the build
without `_SARAH_GHOST_UDISK_ENABLE`.

* `ProcStatus`, `Signal`, `signalHandler`;
* `Application`, `internalApps`, `startApps`: the table and the first `fork` of each entry;
* `checkApp`, `superviseFrom`: the loop that reboots what is down;
* `Booter`, `BooterEvent`, `booterStep`: passes of the main loop between signals and crashes.
-/

namespace Sarah

open Procs

/-- The values of `booter->status`. -/
inductive ProcStatus
  | ready
  | running
  | stop
  | restart
  | exit
  deriving DecidableEq

/-- The signals with a handler. -/
inductive Signal
  | stop
  | cont
  | exit01
  | exit02
  | check
  | restart
  deriving DecidableEq

/-- `_signal_handler`: the status after a signal. -/
def signalHandler (status : ProcStatus) : Signal → ProcStatus
  | .stop => .stop
  | .cont => .running
  | .exit01 => .exit
  | .exit02 => .exit
  | .restart => .restart
  | .check => status

/-- `sarah_application_t`; the pid is `none` for -1. -/
structure Application where
  name : String
  pid : Option ℕ
  deriving DecidableEq

/-- The names in `_internal_apps`, without the terminating `NULL`. -/
def internalApps : List String := ["sarah-smartdisk", "sarah-collector", "sarah-executor", "sarah-updater"]

variable (K : Kernel)

/-- The loop that starts all applications. -/
def startApps : List String → Procs → List Application × Procs
  | [], t => ([], t)
  | name :: names, t =>
    let r := fork K t
    let s := startApps names r.2
    (⟨name, r.1⟩ :: s.1, s.2)

/-- The body of the supervising loop: reap the application if it is down and fork it again. The flag says
whether `fork` was called. -/
def checkApp (app : Application) (t : Procs) : (Application × Bool) × Procs :=
  match wait K t app.pid with
  | some t => (({ app with pid := (fork K t).1 }, true), (fork K t).2)
  | none => ((app, false), t)

/-- The supervising loop on the table from `_app_idx` on. The index moves in `_internal_apps[_app_idx++]`
and again in the header of the `for`, so every other entry is skipped; behind the last entry it passes
over the terminator (`none`). -/
def superviseFrom : List Application → Procs → Option (List (Application × Bool) × Procs)
  | [], t => some ([], t)
  | [_], _ => none
  | app :: skipped :: rest, t =>
    let r := checkApp K app t
    (superviseFrom rest r.2).map fun s => (r.1 :: (skipped, false) :: s.1, s.2)

/-- The booter in its main loop. -/
structure Booter where
  status : ProcStatus
  apps : List Application
  procs : Procs
  /-- The main loop has been left. -/
  stopped : Bool
  deriving DecidableEq

/-- The booter when it enters the main loop. -/
def booterStart : Booter :=
  let r := startApps K internalApps ⟨∅, ∅, 0⟩
  ⟨.ready, r.1, r.2, false⟩

/-- Kill every application and wait for it. What `kill(-1)` reaches after a failed `fork` is left out. -/
def stopApps : List Application → Procs → Procs
  | [], t => t
  | app :: apps, t =>
    match app.pid with
    | some p => stopApps apps ((t.die p).reap p)
    | none => stopApps apps t

/-- One pass of the main loop, with each entry of the table after it and whether it was forked. -/
def supervisorPass (st : Booter) : Option (List (Application × Bool) × Booter) :=
  match st.status with
  | .restart | .exit =>
    some (st.apps.map fun app => (app, false), { st with procs := stopApps st.apps st.procs, stopped := true })
  | .running =>
    (superviseFrom K st.apps st.procs).map fun r =>
      (r.1, { st with apps := r.1.map Prod.fst, procs := r.2 })
  | .ready | .stop => some (st.apps.map fun app => (app, false), st)

/-- What happens next: a pass, a signal to the booter, or the end of a child. -/
inductive BooterEvent
  | pass
  | signal (s : Signal)
  | crash (pid : ℕ)
  deriving DecidableEq

/-- One event, with the flags of a pass; `none` when the booter has stopped. -/
def booterStep (st : Booter) (ev : BooterEvent) : Option (Booter × List Bool) :=
  if st.stopped then none
  else
    match ev with
    | .pass => (supervisorPass K st).map fun r => (r.2, r.1.map Prod.snd)
    | .signal s => some ({ st with status := signalHandler st.status s }, [])
    | .crash p => some ({ st with procs := st.procs.die p }, [])

end Sarah

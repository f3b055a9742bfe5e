import SarahClient.Executor.PullSound

/-!
# The pace of the pulling loop

`empty_count` is not reset when a task arrives.

* `PaceState`, `paceStep`: the loop with the number of pulls with a nonzero code in a row;
* `Paced`: the interval goes back to `norm_pull_duration` after `max_busy_count` such pulls only;
* `CountFresh`: `empty_count` is at most 1 when a task makes or keeps the interval busy;
* **`pull_paced`**: runs with fresh counts are paced, and a run with a stale one goes wrong when the tasks end.
-/

namespace Sarah

variable {parse : List UInt8 → Option CJson} {node : Node}

/-! ## The loop with its streak -/

instance (round : PullRound) : Decidable round.Pulls :=
  inferInstanceAs (Decidable (round.status ≠ .exit ∧ round.status ≠ .stop ∧ round.sameParent = true))

/-- The loop, and how many pulls with a nonzero code it has made in a row. -/
structure PaceState where
  pull : PullState
  streak : ℕ

/-- The state at the start, with no pull counted. -/
def paceStart : PaceState := ⟨pullStart, 0⟩

/-- The return code of the pull of a round. -/
def pullCode (parse : List UInt8 → Option CJson) (st : PullState) (round : PullRound) : Option ℤ :=
  if round.Pulls then (pullRemoteTask parse round.query st.task).map Prod.fst else none

/-- The empty pulls in a row after a round. -/
def nextStreak (parse : List UInt8 → Option CJson) (s : PaceState) (round : PullRound) : ℕ :=
  match pullCode parse s.pull round with
  | none => s.streak
  | some code => if code = 0 then 0 else s.streak + 1

/-- A round of the loop, with its pull counted. -/
def paceStep (parse : List UInt8 → Option CJson) (node : Node) (s : PaceState) (round : PullRound) :
    Option (PaceState × Option SarahTask) :=
  (pullStep parse node s.pull round).map fun r => (⟨r.1, nextStreak parse s round⟩, r.2)

/-- **The property of a round**: the interval leaves `busy_pull_duration` after `max_busy_count` empty pulls only. -/
def Paced (parse : List UInt8 → Option CJson) (node : Node) (s : PaceState) (round : PullRound) : Prop :=
  ∀ r ∈ pullStep parse node s.pull round, s.pull.pullDuration = busyPullDuration →
    r.1.pullDuration = normPullDuration → maxBusyCount ≤ nextStreak parse s round

instance (s : PaceState) (round : PullRound) : Decidable (Paced parse node s round) :=
  inferInstanceAs (Decidable (∀ r ∈ pullStep parse node s.pull round, s.pull.pullDuration = busyPullDuration →
    r.1.pullDuration = normPullDuration → maxBusyCount ≤ nextStreak parse s round))

/-- A task that makes or keeps the interval busy finds at most one empty pull counted. -/
def CountFresh (parse : List UInt8 → Option CJson) (node : Node) (s : PaceState) (round : PullRound) : Prop :=
  ∀ task, round.Pulls → pullRemoteTask parse round.query s.pull.task = some (0, some task) →
    s.pull.pullDuration = busyPullDuration ∨ sarahTaskValidity node task = some 0 → s.pull.emptyCount ≤ 1

/-! ## One round -/

theorem pullCleanup_eq_some {round : PullRound} {st st' : PullState} (h : pullCleanup round st = some st') :
    st' = { st with task := none } := by
  unfold pullCleanup at h
  split_ifs at h
  exact (Option.some.inj h).symm

theorem paceStep_cases {s : PaceState} {round : PullRound} {r : PaceState × Option SarahTask}
    (h : paceStep parse node s round = some r) :
    (¬ round.Pulls ∧ r.1 = s) ∨
    (round.Pulls ∧ (∀ task, pullRemoteTask parse round.query s.pull.task ≠ some (0, task)) ∧ r.1.streak = s.streak + 1 ∧
      ((maxBusyCount ≤ s.pull.emptyCount ∧ r.1.pull.emptyCount = 0 ∧ r.1.pull.pullDuration = normPullDuration) ∨
        (s.pull.emptyCount < maxBusyCount ∧ r.1.pull.emptyCount = s.pull.emptyCount + 1 ∧
          r.1.pull.pullDuration = s.pull.pullDuration))) ∨
    (round.Pulls ∧ r.1.streak = 0 ∧ r.1.pull.emptyCount = s.pull.emptyCount ∧
      ∃ task, pullRemoteTask parse round.query s.pull.task = some (0, some task) ∧
        ((sarahTaskValidity node task ≠ some 0 ∧ r.1.pull.pullDuration = s.pull.pullDuration) ∨
          (sarahTaskValidity node task = some 0 ∧ r.1.pull.pullDuration = busyPullDuration))) := by
  obtain ⟨p, hp, rfl⟩ := Option.map_eq_some_iff.mp h
  obtain ⟨q, hq, hp⟩ := Option.bind_eq_some_iff.mp hp
  obtain ⟨next, hnext, rfl⟩ := Option.map_eq_some_iff.mp hp
  obtain ⟨hpulls, -, hleft | hskipped⟩ | ⟨hpulls, code, task, hpull, hcase⟩ := pullRound_cases hq
  · rw [hleft] at hnext
    cases hnext
  · rw [hskipped] at hnext
    cases hnext
    refine .inl ⟨hpulls, ?_⟩
    rw [nextStreak, pullCode, if_neg hpulls]
  · have hcode : pullCode parse s.pull round = some code := by rw [pullCode, if_pos hpulls, hpull]; rfl
    obtain ⟨hne, rfl⟩ | ⟨rfl, t, rfl, hvalid⟩ := hcase
    · -- a nonzero code
      refine .inr (.inl ⟨hpulls, fun task' h0 => ?_, ?_, ?_⟩)
      · rw [hpull] at h0
        cases h0
        exact hne rfl
      · simp only [nextStreak, hcode, if_neg hne]
      · obtain rfl := pullCleanup_eq_some hnext
        by_cases hmax : maxBusyCount ≤ s.pull.emptyCount
        · rw [if_pos hmax]
          exact .inl ⟨hmax, rfl, rfl⟩
        · rw [if_neg hmax]
          exact .inr ⟨not_le.mp hmax, rfl, rfl⟩
    · -- a task
      have hstreak : nextStreak parse s round = 0 := by simp only [nextStreak, hcode, if_pos]
      obtain ⟨invalid, hinvalid, hne, rfl⟩ | ⟨hok, engine, -, rfl⟩ := hvalid
      · obtain rfl := pullCleanup_eq_some hnext
        refine .inr (.inr ⟨hpulls, hstreak, rfl, t, hpull, .inl ⟨fun h0 => hne ?_, rfl⟩⟩)
        rw [hinvalid] at h0
        exact Option.some.inj h0
      · obtain rfl := pullCleanup_eq_some hnext
        exact .inr (.inr ⟨hpulls, hstreak, rfl, t, hpull, .inr ⟨hok, rfl⟩⟩)

/-- While the interval is busy, the count is at most one ahead of the streak. -/
structure InPace (s : PaceState) : Prop where
  interval : s.pull.pullDuration = normPullDuration ∨ s.pull.pullDuration = busyPullDuration
  ahead : s.pull.pullDuration = busyPullDuration → s.pull.emptyCount ≤ s.streak + 1

theorem norm_ne_busy : normPullDuration ≠ busyPullDuration := by decide

theorem inPace_start : InPace paceStart := ⟨.inl rfl, fun h => absurd h norm_ne_busy⟩

theorem inPace_step {s : PaceState} {round : PullRound} {r : PaceState × Option SarahTask} (hs : InPace s)
    (hround : CountFresh parse node s round) (h : paceStep parse node s round = some r) : InPace r.1 := by
  obtain ⟨-, heq⟩ | ⟨-, -, hstreak, ⟨-, -, hdur⟩ | ⟨-, hcount, hdur⟩⟩ |
    ⟨hpulls, hstreak, hcount, task, hpull, ⟨-, hdur⟩ | ⟨hvalid, hdur⟩⟩ := paceStep_cases h
  · rw [heq]
    exact hs
  · exact ⟨.inl hdur, fun hbusy => absurd (hdur.symm.trans hbusy) norm_ne_busy⟩
  · refine ⟨hdur ▸ hs.interval, fun hbusy => ?_⟩
    have hle := hs.ahead (hdur.symm.trans hbusy)
    omega
  · refine ⟨hdur ▸ hs.interval, fun hbusy => ?_⟩
    have hle := hround task hpulls hpull (.inl (hdur.symm.trans hbusy))
    omega
  · refine ⟨.inr hdur, fun _ => ?_⟩
    have hle := hround task hpulls hpull (.inr hvalid)
    omega

/-- The interval goes back when twelve empty pulls are counted, so at least eleven of them were in a row. -/
theorem paced_of_inPace {s : PaceState} (hs : InPace s) (round : PullRound) : Paced parse node s round := by
  intro p hp hbusy hnorm
  have hstep : paceStep parse node s round = some (⟨p.1, nextStreak parse s round⟩, p.2) := by rw [paceStep, hp]; rfl
  have hahead := hs.ahead hbusy
  obtain ⟨-, heq⟩ | ⟨-, -, hstreak, ⟨hmax, -, -⟩ | ⟨-, -, hdur⟩⟩ | ⟨-, -, -, task, -, ⟨-, hdur⟩ | ⟨-, hdur⟩⟩ :=
    paceStep_cases hstep
  · have hdur := congrArg (fun s => s.pull.pullDuration) heq
    exact absurd (hnorm.symm.trans (hdur.trans hbusy)) norm_ne_busy
  · dsimp only at hstreak
    omega
  · exact absurd (hnorm.symm.trans (hdur.trans hbusy)) norm_ne_busy
  · exact absurd (hnorm.symm.trans (hdur.trans hbusy)) norm_ne_busy
  · exact absurd (hnorm.symm.trans hdur) norm_ne_busy

/-! ## A stale count -/

/-- A round whose pull fails. -/
def emptyRound : PullRound := ⟨.running, .running, true, ⟨false, false, 0, []⟩⟩

/-- The count is two or more ahead of the streak. -/
structure OutOfPace (s : PaceState) : Prop where
  busy : s.pull.pullDuration = busyPullDuration
  ahead : s.streak + 2 ≤ s.pull.emptyCount
  bound : s.pull.emptyCount ≤ maxBusyCount

theorem emptyCount_le {s : PaceState} {round : PullRound} {r : PaceState × Option SarahTask}
    (hs : s.pull.emptyCount ≤ maxBusyCount) (h : paceStep parse node s round = some r) :
    r.1.pull.emptyCount ≤ maxBusyCount := by
  obtain ⟨-, heq⟩ | ⟨-, -, -, ⟨-, hcount, -⟩ | ⟨hlt, hcount, -⟩⟩ | ⟨-, -, hcount, -⟩ := paceStep_cases h
  · rw [heq]
    exact hs
  · omega
  · omega
  · omega

theorem outOfPace_of_stale {s : PaceState} {round : PullRound} {r : PaceState × Option SarahTask}
    (hs : s.pull.emptyCount ≤ maxBusyCount) (hround : ¬ CountFresh parse node s round)
    (h : paceStep parse node s round = some r) : OutOfPace r.1 := by
  unfold CountFresh at hround
  push Not at hround
  obtain ⟨task, hpulls, hpull, hbusy, hcount⟩ := hround
  obtain ⟨hnot, -⟩ | ⟨-, hnot, -⟩ | ⟨-, hstreak, hsame, task', hpull', hcase⟩ := paceStep_cases h
  · exact absurd hpulls hnot
  · exact absurd hpull (hnot _)
  · refine ⟨?_, by omega, by omega⟩
    rw [hpull] at hpull'
    cases hpull'
    obtain ⟨hinvalid, hdur⟩ | ⟨-, hdur⟩ := hcase
    · rcases hbusy with hbusy | hvalid
      · exact hdur.trans hbusy
      · exact absurd hvalid hinvalid
    · exact hdur

theorem pullStep_empty (parse : List UInt8 → Option CJson) (node : Node) (st : PullState) :
    pullStep parse node st emptyRound = some (if maxBusyCount ≤ st.emptyCount then ⟨none, 0, normPullDuration⟩
      else ⟨none, st.emptyCount + 1, st.pullDuration⟩, none) := by
  have hround : pullRound parse node st emptyRound =
      some (none, pullCleanup emptyRound (if maxBusyCount ≤ st.emptyCount then ⟨st.task, 0, normPullDuration⟩
        else ⟨st.task, st.emptyCount + 1, st.pullDuration⟩)) := rfl
  rw [pullStep, hround]
  split_ifs <;> rfl

theorem not_paced_of_outOfPace : ∀ (k : ℕ) {s : PaceState}, OutOfPace s → s.pull.emptyCount + k = maxBusyCount →
    ¬ Machine.Guarded (paceStep parse node) (Paced parse node) s (List.replicate (k + 1) emptyRound)
  | 0, s, hs, hk, hpaced => by
    have hstep := pullStep_empty parse node s.pull
    rw [if_pos (by omega)] at hstep
    have hle : maxBusyCount ≤ s.streak + 1 := hpaced.1 _ hstep hs.busy rfl
    have hahead := hs.ahead
    omega
  | k + 1, s, hs, hk, hpaced => by
    have hstep := pullStep_empty parse node s.pull
    rw [if_neg (by omega)] at hstep
    have hpace : paceStep parse node s emptyRound =
        some (⟨⟨none, s.pull.emptyCount + 1, s.pull.pullDuration⟩, s.streak + 1⟩, none) := by
      rw [paceStep, hstep]
      rfl
    have hahead := hs.ahead
    refine not_paced_of_outOfPace k (s := ⟨⟨none, s.pull.emptyCount + 1, s.pull.pullDuration⟩, s.streak + 1⟩)
      ⟨hs.busy, ?_, ?_⟩ ?_ (hpaced.2 _ hpace)
    · dsimp only
      omega
    · dsimp only
      omega
    · dsimp only
      omega

/-! ## The run -/

/-- **The pace of every run.** While the counts are fresh, the interval goes back after `max_busy_count` empty pulls
in a row only; a run in which a task finds a stale count goes wrong when no further task comes. -/
theorem pull_paced (parse : List UInt8 → Option CJson) (node : Node) (rounds : List PullRound) :
    (Machine.Guarded (paceStep parse node) (CountFresh parse node) paceStart rounds →
      Machine.Guarded (paceStep parse node) (Paced parse node) paceStart rounds) ∧
    ((Machine.exec (paceStep parse node) paceStart rounds).isSome = true →
      ¬ Machine.Guarded (paceStep parse node) (CountFresh parse node) paceStart rounds →
      ∃ pre post k, rounds = pre ++ post ∧ ¬ Machine.Guarded (paceStep parse node) (Paced parse node) paceStart
        (pre ++ List.replicate k emptyRound)) := by
  constructor
  · exact Machine.guarded_of_guarded_invariant InPace (fun _ _ _ hs hround h => inPace_step hs hround h)
      (fun _ round hs _ => paced_of_inPace hs round) rounds paceStart inPace_start
  · intro hrun hstale
    obtain ⟨pre, round, post, q, rfl, hpre, hround⟩ := Machine.exists_of_not_guarded hstale
    have hbound : q.1.pull.emptyCount ≤ maxBusyCount :=
      Machine.exec_invariant (fun s => s.pull.emptyCount ≤ maxBusyCount) (fun _ _ _ hs h => emptyCount_le hs h) pre
        paceStart q (Nat.zero_le _) hpre
    obtain ⟨r, -, hr, -⟩ := Machine.exec_cons_eq_some.mp
      (Option.some_get (Machine.exec_append_isSome hpre hrun)).symm
    have hout := outOfPace_of_stale hbound hround hr
    refine ⟨pre ++ [round], post, maxBusyCount - r.1.pull.emptyCount + 1, by rw [List.append_assoc]; rfl, ?_⟩
    rw [List.append_assoc]
    intro hpaced
    refine not_paced_of_outOfPace _ hout ?_ ((Machine.guarded_append hpre hpaced).2 r hr)
    have hle := hout.bound
    omega

/-- A valid task in its response. -/
def validJson : CJson :=
  .object [(lit "errno", .number (.fin 0)), (lit "data", .object [(lit "id_str", .string (lit "7")),
    (lit "engine", .string (lit "bash")), (lit "cmd_text", .string (lit "ls")),
    (lit "sign", .string (lit "84da3fb509c6de5eeab68cc76720b011"))])]

/-- A round that pulls it. -/
def validRound : PullRound := textRound taskText

/-- A parser that knows the text of the valid task only. -/
def parseValid (text : List UInt8) : Option CJson := if text = taskText then some validJson else none

theorem pull_paced_once : Machine.Guarded (paceStep parseValid blankNode) (Paced parseValid blankNode) paceStart
    [validRound, emptyRound] := by
  refine (pull_paced parseValid blankNode [validRound, emptyRound]).1
    ⟨fun _ _ _ _ => Nat.zero_le 1, fun r _ => ⟨fun task _ hpull _ => ?_, fun _ _ => trivial⟩⟩
  have hcode : some ((1 : ℤ), r.1.pull.task) = some (0, some task) := hpull
  cases hcode

/-- After twelve empty pulls and a task, one empty pull takes the interval back. -/
theorem not_pull_paced : ¬ Machine.Guarded (paceStep parseValid blankNode) (Paced parseValid blankNode) paceStart
    (List.replicate 12 emptyRound ++ [validRound, emptyRound]) := by
  decide +kernel

end Sarah

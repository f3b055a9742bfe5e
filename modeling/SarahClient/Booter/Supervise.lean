import SarahClient.Booter.Model

/-!
# What the supervisor restarts

* `Alive`, `Tracked`: the entries of the table have different children of their own;
* `Passes`: what a loop over the table leaves behind, and how such loops compose;
* `superviseFrom_spec`: the loop reboots the dead entries at even places, and no other entry;
* **`supervisor_restarts_iff`**: along every run, each pass restarts all dead applications exactly
  when each pass starts with none dead, or running with none dead at an odd place.
-/

namespace Sarah

open Procs

/-- The application has a running process. -/
def Alive (t : Procs) (app : Application) : Prop := ∃ p ∈ t.running, app.pid = some p

instance (t : Procs) (app : Application) : Decidable (Alive t app) :=
  inferInstanceAs (Decidable (∃ p ∈ t.running, app.pid = some p))

/-- The entries are children, and no two of them the same. -/
structure Tracked (t : Procs) (apps : List Application) : Prop where
  split : t.Split
  owned : ∀ app ∈ apps, ∃ p, app.pid = some p ∧ t.Owned p
  distinct : apps.Pairwise fun a b => a.pid ≠ b.pid

/-- What a loop over `apps` leaves behind: the new entries are tracked, and the children of others
stay what they were. -/
structure Passes (t : Procs) (apps : List Application) (rows : List (Application × Bool)) (t' : Procs) : Prop where
  tracked : Tracked t' (rows.map Prod.fst)
  frame : ∀ q, t.Owned q → (∀ app ∈ apps, app.pid ≠ some q) →
    (q ∈ t'.running ↔ q ∈ t.running) ∧ (q ∈ t'.zombie ↔ q ∈ t.zombie) ∧ ∀ row ∈ rows, row.1.pid ≠ some q

section Loops

variable {t t₁ t₂ : Procs} {xs ys : List Application} {rs ss : List (Application × Bool)}

theorem Tracked.append (h : Tracked t (xs ++ ys)) :
    Tracked t xs ∧ Tracked t ys ∧ ∀ a ∈ xs, ∀ b ∈ ys, a.pid ≠ b.pid := by
  obtain ⟨hx, hy, hxy⟩ := List.pairwise_append.mp h.distinct
  exact ⟨⟨h.split, fun a ha => h.owned a (List.mem_append_left ys ha), hx⟩,
    ⟨h.split, fun a ha => h.owned a (List.mem_append_right xs ha), hy⟩, hxy⟩

theorem Passes.owned (h : Passes t xs rs t₁) {q : ℕ} (hq : t.Owned q) (hx : ∀ a ∈ xs, a.pid ≠ some q) :
    t₁.Owned q := by
  obtain ⟨hr, hz, -⟩ := h.frame q hq hx
  exact hq.imp hr.mpr hz.mpr

theorem Passes.rest (h : Passes t xs rs t₁) (ht : Tracked t (xs ++ ys)) : Tracked t₁ ys := by
  obtain ⟨-, hy, hxy⟩ := ht.append
  refine ⟨h.tracked.split, fun b hb => ?_, hy.distinct⟩
  obtain ⟨q, hq, hown⟩ := hy.owned b hb
  exact ⟨q, hq, h.owned hown fun a ha => hq ▸ hxy a ha b hb⟩

theorem Passes.alive_rest (h : Passes t xs rs t₁) (ht : Tracked t (xs ++ ys)) {b : Application} (hb : b ∈ ys) :
    Alive t₁ b ↔ Alive t b := by
  obtain ⟨-, hy, hxy⟩ := ht.append
  obtain ⟨q, hq, hown⟩ := hy.owned b hb
  have hrun := (h.frame q hown fun a ha => hq ▸ hxy a ha b hb).1
  constructor
  · rintro ⟨p, hp, hbp⟩
    rw [hq] at hbp
    cases hbp
    exact ⟨q, hrun.mp hp, hq⟩
  · rintro ⟨p, hp, hbp⟩
    rw [hq] at hbp
    cases hbp
    exact ⟨q, hrun.mpr hp, hq⟩

theorem Passes.disjoint_rest (h₁ : Passes t xs rs t₁) (ht : Tracked t (xs ++ ys)) {row : Application × Bool}
    (hrow : row ∈ rs) : ∃ q, row.1.pid = some q ∧ t₁.Owned q ∧ ∀ b ∈ ys, b.pid ≠ some q := by
  obtain ⟨-, hy, hxy⟩ := ht.append
  obtain ⟨q, hq, hown⟩ := h₁.tracked.owned row.1 (List.mem_map_of_mem hrow)
  refine ⟨q, hq, hown, fun b hb hbq => ?_⟩
  obtain ⟨p, hp, hpown⟩ := hy.owned b hb
  rw [hp] at hbq
  cases hbq
  exact (h₁.frame q hpown fun a ha => hp ▸ hxy a ha b hb).2.2 row hrow hq

theorem Passes.append (h₁ : Passes t xs rs t₁) (h₂ : Passes t₁ ys ss t₂) (ht : Tracked t (xs ++ ys)) :
    Passes t (xs ++ ys) (rs ++ ss) t₂ where
  tracked := by
    refine ⟨h₂.tracked.split, ?_, ?_⟩
    · intro app happ
      rw [List.map_append] at happ
      rcases List.mem_append.mp happ with hm | hm
      · obtain ⟨row, hrow, rfl⟩ := List.mem_map.mp hm
        obtain ⟨q, hq, hown, hne⟩ := h₁.disjoint_rest ht hrow
        exact ⟨q, hq, h₂.owned hown hne⟩
      · exact h₂.tracked.owned app hm
    · rw [List.map_append]
      refine List.pairwise_append.mpr ⟨h₁.tracked.distinct, h₂.tracked.distinct, ?_⟩
      intro a ha b hb
      obtain ⟨row, hrow, rfl⟩ := List.mem_map.mp ha
      obtain ⟨row', hrow', rfl⟩ := List.mem_map.mp hb
      obtain ⟨q, hq, hown, hne⟩ := h₁.disjoint_rest ht hrow
      rw [hq]
      exact ((h₂.frame q hown hne).2.2 row' hrow').symm
  frame := by
    intro q hq hne
    have hx : ∀ a ∈ xs, a.pid ≠ some q := fun a ha => hne a (List.mem_append_left ys ha)
    have hy : ∀ a ∈ ys, a.pid ≠ some q := fun a ha => hne a (List.mem_append_right xs ha)
    obtain ⟨hr₁, hz₁, hrow₁⟩ := h₁.frame q hq hx
    obtain ⟨hr₂, hz₂, hrow₂⟩ := h₂.frame q (h₁.owned hq hx) hy
    exact ⟨hr₂.trans hr₁, hz₂.trans hz₁, fun row hrow =>
      (List.mem_append.mp hrow).elim (hrow₁ row) (hrow₂ row)⟩

theorem Passes.skip (ht : Tracked t xs) : Passes t xs (xs.map fun app => (app, false)) t where
  tracked := by rwa [List.map_map, show Prod.fst ∘ (fun app : Application => (app, false)) = id from rfl, List.map_id]
  frame := fun q _ hne => ⟨Iff.rfl, Iff.rfl, fun row hrow => by
    obtain ⟨app, happ, rfl⟩ := List.mem_map.mp hrow
    exact hne app happ⟩

end Loops

/-! ## The supervising loop -/

variable {K : Kernel}

/-- What the loop body does: a dead application is forked again, a live one is left alone. -/
theorem checkApp_spec (hK : K.AlwaysForks) {t : Procs} {app : Application} (ht : Tracked t [app]) :
    Passes t [app] [(checkApp K app t).1] (checkApp K app t).2 ∧
      (Alive t app → (checkApp K app t).1 = (app, false)) ∧
      (¬ Alive t app → (checkApp K app t).1.2 = true ∧ Alive (checkApp K app t).2 (checkApp K app t).1.1) := by
  obtain ⟨p, hp, hown⟩ := ht.owned app (List.mem_singleton_self app)
  by_cases hz : p ∈ t.zombie
  · -- dead: reaped and forked again
    have hcheck : checkApp K app t = (({ app with pid := (fork K (t.reap p)).1 }, true), (fork K (t.reap p)).2) := by
      simp only [checkApp, hp, wait_of_mem hz]
    have hfresh := K.fresh (t.reap p)
    have hdead : ¬ Alive t app := by
      rintro ⟨q, hq, happ⟩
      rw [hp] at happ
      cases happ
      exact ht.split p hq hz
    have hsplit : (fork K (t.reap p)).2.Split := (ht.split.reap p).fork
    rw [fork_of_forks hK] at hsplit
    rw [hcheck, fork_of_forks hK]
    refine ⟨⟨⟨hsplit, ?_, List.pairwise_singleton _ _⟩, ?_⟩, fun h => absurd h hdead, fun _ =>
      ⟨rfl, K.next (t.reap p), Finset.mem_insert_self _ _, rfl⟩⟩
    · intro a ha
      rw [List.map_singleton, List.mem_singleton] at ha
      exact ⟨K.next (t.reap p), by rw [ha], Or.inl (Finset.mem_insert_self _ _)⟩
    · intro q hq hne
      have hqp : q ≠ p := by
        rintro rfl
        exact hne app (List.mem_singleton_self app) hp
      have hqz : q ∈ (t.reap p).zombie ↔ q ∈ t.zombie := by rw [mem_reap_zombie, and_iff_right hqp]
      have hqn : q ≠ K.next (t.reap p) := by
        rintro rfl
        exact hfresh (hq.imp id hqz.mpr)
      refine ⟨?_, hqz, ?_⟩
      · exact ⟨fun h => (Finset.mem_insert.mp h).resolve_left hqn, Finset.mem_insert_of_mem⟩
      · intro row hrow
        rw [List.mem_singleton.mp hrow]
        exact fun h => hqn (Option.some.inj h).symm
  · -- alive: left alone
    have hcheck : checkApp K app t = ((app, false), t) := by simp only [checkApp, hp, wait_of_notMem hz]
    rw [hcheck]
    exact ⟨Passes.skip ht, fun _ => rfl, fun hdead => absurd ⟨p, hown.resolve_right hz, hp⟩ hdead⟩

/-- What the loop does to the entry at place `i`. -/
def Visited (t t' : Procs) (i : ℕ) (app : Application) (row : Application × Bool) : Prop :=
  (i % 2 = 0 ∧ ¬ Alive t app → row.2 = true ∧ Alive t' row.1) ∧
    (¬ (i % 2 = 0 ∧ ¬ Alive t app) → row = (app, false))

/-- **The loop reboots the dead entries at even places**, when the table has an even number of them. -/
theorem superviseFrom_spec (hK : K.AlwaysForks) : ∀ (apps : List Application) (t : Procs), apps.length % 2 = 0 →
    Tracked t apps → ∃ rows t', superviseFrom K apps t = some (rows, t') ∧ Passes t apps rows t' ∧
      rows.length = apps.length ∧ ∀ i app, apps[i]? = some app → ∃ row, rows[i]? = some row ∧ Visited t t' i app row
  | [], t, _, ht => ⟨[], t, rfl, Passes.skip ht, rfl, fun i app h => by simp at h⟩
  | [_], _, h, _ => absurd (show 1 % 2 = 0 from h) (by decide)
  | app :: skipped :: rest, t, hlen, ht => by
    have ht' : Tracked t ([app] ++ (skipped :: rest)) := ht
    obtain ⟨happ, -, -⟩ := ht'.append
    obtain ⟨hpass, halive, hdead⟩ := checkApp_spec hK happ
    have hrest : Tracked (checkApp K app t).2 ([skipped] ++ rest) := hpass.rest ht'
    have hskip : Passes (checkApp K app t).2 [skipped] [(skipped, false)] (checkApp K app t).2 :=
      Passes.skip hrest.append.1
    have hrest' := hskip.rest hrest
    obtain ⟨rows, t', hrun, hrows, hlength, hvisit⟩ := superviseFrom_spec hK rest (checkApp K app t).2
      (by simp only [List.length_cons] at hlen; omega) hrest'
    have htail : Passes (checkApp K app t).2 (skipped :: rest) ((skipped, false) :: rows) t' :=
      hskip.append hrows hrest
    refine ⟨(checkApp K app t).1 :: (skipped, false) :: rows, t', ?_, hpass.append htail ht', ?_, ?_⟩
    · rw [superviseFrom, hrun]
      rfl
    · simp only [List.length_cons, hlength]
    · intro i a ha
      match i, ha with
      | 0, ha =>
        cases ha
        refine ⟨_, rfl, fun h => ?_, fun h => ?_⟩
        · -- the child of a reboot is still running after the rest of the loop
          obtain ⟨hflag, q, hq, hpid⟩ := hdead h.2
          obtain ⟨q', hq', hown, hne⟩ := hpass.disjoint_rest ht' (List.mem_singleton_self _)
          rw [hpid] at hq'
          cases hq'
          exact ⟨hflag, q, (htail.frame q hown hne).1.mpr hq, hpid⟩
        · by_contra hc
          exact h ⟨rfl, fun hal => hc (halive hal)⟩
      | 1, ha =>
        cases ha
        exact ⟨(skipped, false), rfl, fun h => absurd h.1 (by decide), fun _ => rfl⟩
      | i + 2, ha =>
        obtain ⟨row, hrow, hv⟩ := hvisit i a ha
        have hsame : Alive (checkApp K app t).2 a ↔ Alive t a :=
          hpass.alive_rest ht' (List.mem_cons_of_mem _ (List.mem_of_getElem? ha))
        refine ⟨row, hrow, ?_⟩
        simp only [Visited, Nat.add_mod_right, ← hsame]
        exact hv

/-! ## Passes and runs -/

/-- **The property of a pass**: every application that was dead has been forked again, and none that was
alive has been forked. -/
def Restarts (st : Booter) (r : List (Application × Bool) × Booter) : Prop :=
  ∀ (i : ℕ) (app : Application), st.apps[i]? = some app → ∃ row : Application × Bool, r.1[i]? = some row ∧
    (¬ Alive st.procs app → row.2 = true ∧ Alive r.2.procs row.1) ∧ (Alive st.procs app → row.2 = false)

/-- The property at an event of a run. -/
def PassRestarts (K : Kernel) (st : Booter) (ev : BooterEvent) : Prop :=
  ev = .pass → ∃ r, supervisorPass K st = some r ∧ Restarts st r

/-- All applications run, or the booter is in the running status and only entries at even places are dead. -/
def SeesAllDead (st : Booter) (ev : BooterEvent) : Prop :=
  ev = .pass → (∀ app ∈ st.apps, Alive st.procs app) ∨
    (st.status = .running ∧ ∀ i app, st.apps[i]? = some app → ¬ Alive st.procs app → i % 2 = 0)

/-- No `STOP`, `EXIT` or `RESTART` signal. -/
def BooterEvent.Calm (ev : BooterEvent) : Prop := ∀ s, ev = .signal s → s = .cont ∨ s = .check

/-- What holds in the main loop of every such run. -/
structure Supervising (st : Booter) : Prop where
  length : st.apps.length = 4
  status : st.status = .ready ∨ st.status = .running
  tracked : Tracked st.procs st.apps

theorem supervisorPass_of_ready {st : Booter} (h : st.status = .ready) :
    supervisorPass K st = some (st.apps.map fun app => (app, false), st) := by
  simp only [supervisorPass, h]

theorem supervisorPass_of_running (hK : K.AlwaysForks) {st : Booter} (hst : Supervising st)
    (h : st.status = .running) : ∃ rows t', supervisorPass K st =
      some (rows, { st with apps := rows.map Prod.fst, procs := t' }) ∧ Passes st.procs st.apps rows t' ∧
      rows.length = st.apps.length ∧ ∀ i app, st.apps[i]? = some app → ∃ row, rows[i]? = some row ∧
        Visited st.procs t' i app row := by
  obtain ⟨rows, t', hrun, hpass, hlen, hvisit⟩ :=
    superviseFrom_spec hK st.apps st.procs (by rw [hst.length]) hst.tracked
  refine ⟨rows, t', ?_, hpass, hlen, hvisit⟩
  simp only [supervisorPass, h, hrun]
  rfl

theorem passRestarts_iff (hK : K.AlwaysForks) {st : Booter} (hst : Supervising st) (ev : BooterEvent) :
    PassRestarts K st ev ↔ SeesAllDead st ev := by
  refine imp_congr_right fun _ => ?_
  rcases hst.status with h | h
  · -- not running: nobody is forked
    constructor
    · rintro ⟨r, hr, hok⟩
      rw [supervisorPass_of_ready h] at hr
      cases hr
      refine Or.inl fun app happ => ?_
      obtain ⟨i, hi⟩ := List.mem_iff_getElem?.mp happ
      obtain ⟨row, hrow, hdead, -⟩ := hok i app hi
      rw [List.getElem?_map, hi] at hrow
      cases hrow
      by_contra hc
      exact absurd (hdead hc).1 Bool.false_ne_true
    · rintro (hall | ⟨hrun, -⟩)
      · refine ⟨_, supervisorPass_of_ready h, fun i app hi => ⟨(app, false), ?_, ?_, fun _ => rfl⟩⟩
        · rw [List.getElem?_map, hi]
          rfl
        · exact fun hc => absurd (hall app (List.mem_of_getElem? hi)) hc
      · rw [h] at hrun
        cases hrun
  · obtain ⟨rows, t', hpass, -, -, hvisit⟩ := supervisorPass_of_running hK hst h
    constructor
    · rintro ⟨r, hr, hok⟩
      rw [hpass] at hr
      cases hr
      refine Or.inr ⟨h, fun i app hi hdead => ?_⟩
      obtain ⟨row, hrow, hforked, -⟩ := hok i app hi
      obtain ⟨row', hrow', hv⟩ := hvisit i app hi
      rw [hrow] at hrow'
      cases hrow'
      by_contra hodd
      rw [hv.2 fun hc => hodd hc.1] at hforked
      exact absurd (hforked hdead).1 Bool.false_ne_true
    · intro hsees
      refine ⟨_, hpass, fun i app hi => ?_⟩
      obtain ⟨row, hrow, hv⟩ := hvisit i app hi
      refine ⟨row, hrow, fun hdead => ?_, fun halive => ?_⟩
      · have heven : i % 2 = 0 := by
          rcases hsees with hall | ⟨-, heven⟩
          · exact absurd (hall app (List.mem_of_getElem? hi)) hdead
          · exact heven i app hi hdead
        exact hv.1 ⟨heven, hdead⟩
      · rw [hv.2 fun hc => hc.2 halive]

theorem Tracked.die {t : Procs} {apps : List Application} (h : Tracked t apps) (p : ℕ) : Tracked (t.die p) apps where
  split := h.split.die p
  owned := fun app happ => by
    obtain ⟨q, hq, hown⟩ := h.owned app happ
    exact ⟨q, hq, hown.die p⟩
  distinct := h.distinct

theorem supervising_step (hK : K.AlwaysForks) {st : Booter} {ev : BooterEvent} {r : Booter × List Bool}
    (hst : Supervising st) (hev : ev.Calm) (h : booterStep K st ev = some r) : Supervising r.1 := by
  unfold booterStep at h
  split_ifs at h
  cases ev with
  | pass =>
    obtain ⟨q, hq, rfl⟩ := Option.map_eq_some_iff.mp h
    rcases hst.status with hs | hs
    · rw [supervisorPass_of_ready hs] at hq
      cases hq
      exact hst
    · obtain ⟨rows, t', hpass, hrows, hlen, -⟩ := supervisorPass_of_running hK hst hs
      rw [hpass] at hq
      cases hq
      refine ⟨?_, Or.inr hs, hrows.tracked⟩
      rw [List.length_map, hlen, hst.length]
  | signal s =>
    cases h
    refine ⟨hst.length, ?_, hst.tracked⟩
    rcases hev s rfl with rfl | rfl
    · exact Or.inr rfl
    · exact hst.status
  | crash p =>
    cases h
    exact ⟨hst.length, hst.status, hst.tracked.die p⟩

/-- The loop that starts the applications leaves them tracked, whatever children there are. -/
theorem startApps_tracked (hK : K.AlwaysForks) : ∀ (names : List String) (t : Procs), t.Split →
    Tracked (startApps K names t).2 (startApps K names t).1 ∧ (startApps K names t).1.length = names.length ∧
      ∀ q, t.Owned q → (startApps K names t).2.Owned q ∧ ∀ app ∈ (startApps K names t).1, app.pid ≠ some q
  | [], t, ht => ⟨⟨ht, fun _ h => absurd h List.not_mem_nil, List.Pairwise.nil⟩, rfl, fun _ hq =>
      ⟨hq, fun _ h => absurd h List.not_mem_nil⟩⟩
  | name :: names, t, ht => by
    have hfork := fork_of_forks hK t
    have hown : (fork K t).2.Owned (K.next t) := by
      rw [hfork]
      exact Or.inl (Finset.mem_insert_self _ _)
    obtain ⟨hrest, hlen, hframe⟩ := startApps_tracked hK names (fork K t).2 ht.fork
    have hpid : (fork K t).1 = some (K.next t) := by rw [hfork]
    obtain ⟨hown', hne⟩ := hframe _ hown
    refine ⟨⟨hrest.split, ?_, ?_⟩, congrArg (· + 1) hlen, ?_⟩
    · intro app happ
      rcases List.mem_cons.mp happ with rfl | happ
      · exact ⟨K.next t, hpid, hown'⟩
      · exact hrest.owned app happ
    · refine List.pairwise_cons.mpr ⟨fun app happ => ?_, hrest.distinct⟩
      rw [hpid]
      exact (hne app happ).symm
    · intro q hq
      have hq' : (fork K t).2.Owned q := by
        rw [hfork]
        exact hq.imp Finset.mem_insert_of_mem id
      refine ⟨(hframe q hq').1, fun app happ => ?_⟩
      rcases List.mem_cons.mp happ with rfl | happ
      · intro heq
        rw [hpid] at heq
        cases heq
        exact K.fresh t hq
      · exact (hframe q hq').2 app happ

theorem supervising_start (hK : K.AlwaysForks) : Supervising (booterStart K) := by
  obtain ⟨htracked, hlen, -⟩ :=
    startApps_tracked hK internalApps ⟨∅, ∅, 0⟩ fun p hp => absurd hp (Finset.notMem_empty p)
  exact ⟨hlen, Or.inl rfl, htracked⟩

/-- **Which runs restart every dead application.** In every run without `STOP`, `EXIT` and `RESTART`
signals, all passes restart what is dead and nothing else exactly when each pass begins with nothing
dead, or in the running status with nothing dead at an odd place of the table. -/
theorem supervisor_restarts_iff (hK : K.AlwaysForks) {es : List BooterEvent} (hes : ∀ ev ∈ es, ev.Calm) :
    Machine.Guarded (booterStep K) (PassRestarts K) (booterStart K) es ↔
      Machine.Guarded (booterStep K) SeesAllDead (booterStart K) es :=
  Machine.guarded_iff_of_invariant Supervising BooterEvent.Calm
    (fun _ _ _ hst hev h => supervising_step hK hst hev h) (fun _ ev hst _ => passRestarts_iff hK hst ev)
    es (booterStart K) (supervising_start hK) hes

/-- The executor crashes while the booter is running, and is restarted. -/
theorem supervisor_restarts_iff_executor :
    Machine.Guarded (booterStep Kernel.bump) (PassRestarts Kernel.bump) (booterStart Kernel.bump)
        [.signal .cont, .crash 3, .pass] ↔
      Machine.Guarded (booterStep Kernel.bump) SeesAllDead (booterStart Kernel.bump)
        [.signal .cont, .crash 3, .pass] :=
  supervisor_restarts_iff Kernel.bump_alwaysForks fun ev hev s hs => by
    subst hs
    simp only [List.mem_cons, BooterEvent.signal.injEq, reduceCtorEq, List.not_mem_nil, or_false] at hev
    exact Or.inl hev

/-- The collector crashes while the booter is running; the pass does not look at it. -/
theorem not_supervisor_restarts :
    ¬ Machine.Guarded (booterStep Kernel.bump) (PassRestarts Kernel.bump) (booterStart Kernel.bump)
        [.signal .cont, .crash 2, .pass] := by
  intro h
  obtain ⟨-, h⟩ := h
  obtain ⟨-, h⟩ := h _ rfl
  obtain ⟨hpass, -⟩ := h _ rfl
  obtain ⟨r, hr, hok⟩ := hpass rfl
  cases hr
  obtain ⟨row, hrow, hdead, -⟩ := hok 1 ⟨"sarah-collector", some 2⟩ (by decide)
  cases hrow
  exact absurd (hdead (by decide)).1 (by decide)

end Sarah

import SarahClient.CJson.Value
import SarahClient.Executor.Report

/-!
# What a status sync posts

The text that a request posts, as a JSON reader sees it.

* `TaskReport`: what the calls on an executor amount to, with `TaskReport.step` for one call and `TaskReport.package`
  for what it looks like in JSON;
* `Granted`: the arguments are of their types, and the buffers can grow;
* `Shows`: the executor holds what the report says; `shows_step`: every granted call keeps this;
* **`executor_posts`**: after every run of granted calls, the package that is printed is read back as the report.
-/

namespace Sarah

open Block JsonText

/-! ## What the calls amount to -/

/-- A string put into another one; behind its end nothing is put. -/
def insertAt (xs : List UInt8) (idx : ℕ) (s : List UInt8) : List UInt8 :=
  if idx ≤ xs.length then xs.take idx ++ s ++ xs.drop idx else xs

/-- What is to be reported of a task. -/
structure TaskReport where
  status : ℤ
  progress : Double
  errno : ℤ
  attach : ℕ
  error : List UInt8
  data : List UInt8
  limit : ℕ

/-- The report of a new executor. -/
def TaskReport.new : TaskReport := ⟨0, .fin 0, 0, 0, [], [], 1024 * 64 + 1⟩

/-- What a call changes. A new task leaves the report alone, and `clear` leaves the attachment and the limit. -/
def TaskReport.step (r : TaskReport) : ExecutorOp → TaskReport
  | .clear => { r with status := 0, progress := .fin 0, errno := 0, error := [], data := [] }
  | .setTask _ => r
  | .setStatus status progress => { r with status := status, progress := progress }
  | .setErrno errno => { r with errno := errno }
  | .setAttach attach => { r with attach := attach }
  | .setMaxdatalen maxlen => { r with limit := maxlen }
  | .dataAppend data => { r with data := limitedStep r.limit r.data (.append data) }
  | .dataInsert idx data => { r with data := limitedStep r.limit r.data (.insert idx data) }
  | .dataClear => { r with data := [] }
  | .errorAppend errstr => { r with error := r.error ++ errstr }
  | .errorInsert idx errstr => { r with error := insertAt r.error idx errstr }
  | .errorClear => { r with error := [] }
  | .sync _ => r

/-- A number in JSON. -/
def jsonNumber : Double → CJson
  | .fin q => .number (.fin q)
  | _ => .null

/-- A report in JSON. -/
def TaskReport.package (r : TaskReport) : CJson :=
  .object [(lit "version", .number (.fin (7070651414971679 / 4503599627370496))),
    (lit "data", .object [(lit "status", .number (.fin r.status)), (lit "progress", jsonNumber r.progress),
      (lit "errno", .number (.fin r.errno)), (lit "attach", .number (.fin r.attach)),
      (lit "res_error", .string r.error), (lit "res_data", .string r.data)])]

theorem insertAt_length (xs s : List UInt8) : insertAt xs xs.length s = xs ++ s := by
  simp [insertAt]

/-! ## The calls that are served -/

/-- An `int`. -/
abbrev InInt (n : ℤ) : Prop := -2 ^ 31 ≤ n ∧ n < 2 ^ 31

/-- The arguments are of their types, strings end with their NUL, and a buffer that has to grow can. -/
def Granted (mem : ℕ → Bool) (ex : Executor) : ExecutorOp → Prop
  | .setStatus status progress => InInt status ∧ progress.Binary64
  | .setErrno errno => InInt errno
  | .setAttach attach => attach < 2 ^ 32
  | .setMaxdatalen maxlen => maxlen < 2 ^ 32
  | .dataAppend data => 0 ∉ data ∧ Serves mem ex data
  | .dataInsert idx data => 0 ∉ data ∧ (ex.dataBuffer.size < idx ∨ Serves mem ex data)
  | .errorAppend errstr => 0 ∉ errstr ∧ CanHold mem ex.errorBuffer.opacity (ex.errorBuffer.size + errstr.length)
  | .errorInsert idx errstr => 0 ∉ errstr ∧
      (ex.errorBuffer.size < idx ∨ CanHold mem ex.errorBuffer.opacity (ex.errorBuffer.size + errstr.length))
  | _ => True

/-- A buffer holds a string, in an allocation as large as an `int` can say. -/
structure HoldsText (sb : Strbuff) (xs : List UInt8) : Prop where
  holds : sb.Holds xs
  opacity : sb.opacity < 2 ^ 31
  noNul : 0 ∉ xs

/-- **The executor holds the report.** -/
structure Shows (ex : Executor) (r : TaskReport) : Prop where
  status : ex.status = r.status ∧ InInt r.status
  progress : ex.progress = r.progress ∧ r.progress.Binary64
  errno : ex.errno = r.errno ∧ InInt r.errno
  attach : ex.attach = r.attach ∧ r.attach < 2 ^ 32
  limit : ex.maxDatalen = r.limit ∧ r.limit < 2 ^ 32
  error : HoldsText ex.errorBuffer r.error
  data : HoldsText ex.dataBuffer r.data

section Buffers

variable {mem : ℕ → Bool} {sb : Strbuff} {xs s : List UInt8} {idx : ℕ}

theorem HoldsText.size_eq (h : HoldsText sb xs) : sb.size = xs.length := by
  rw [h.holds.2]
  rfl

theorem HoldsText.cstr_buffer (h : HoldsText sb xs) : cstr sb.buffer = xs := by
  have hlt := h.holds.1
  have hzero : 0 < sb.opacity - xs.length := by omega
  rw [h.holds.2, Strbuff.of_buffer, cstr_append_zeros _ _ , cstr_of_notMem h.noNul]

theorem HoldsText.clear (h : HoldsText sb xs) : ∃ sb', celStrbuffClear sb = some (1, sb') ∧ HoldsText sb' [] := by
  have hclear := celStrbuffClear_of h.holds.1.le
  rw [← h.holds.2] at hclear
  exact ⟨_, hclear, Strbuff.holds_of (Nat.zero_lt_of_lt h.holds.1), h.opacity, List.not_mem_nil⟩

theorem HoldsText.grow (h : HoldsText sb xs) (hcan : CanHold mem sb.opacity (sb.size + s.length)) :
    ∃ cap, xs.length + s.length < cap ∧ cap < 2 ^ 31 ∧
      growFor mem (Strbuff.of xs sb.opacity) s.length = some (1, Strbuff.of xs cap) := by
  have hop := h.opacity
  rw [h.size_eq] at hcan
  have hfit : xs.length + s.length < 2 ^ 32 := by
    rcases hcan with hlt | hlt <;> omega
  obtain ⟨cap, hcap, hbound, hgrow⟩ := growFor_of h.holds.1 hfit hcan
  refine ⟨cap, hcap, ?_, hgrow⟩
  rcases hbound with rfl | hlt
  · exact hop
  · exact hlt

theorem HoldsText.append (h : HoldsText sb xs) (hs : 0 ∉ s) (hcan : CanHold mem sb.opacity (sb.size + s.length)) :
    ∃ sb', celStrbuffAppendFrom mem sb s s.length 1 = some (1, sb') ∧ HoldsText sb' (xs ++ s) := by
  obtain ⟨cap, hcap, hbound, hgrow⟩ := h.grow hcan
  have happ := appendFromLoop_succ_of le_rfl hgrow hcap (by omega) 0
  rw [← h.holds.2, List.take_length] at happ
  refine ⟨_, happ, Strbuff.holds_of ?_, hbound, ?_⟩
  · simpa using hcap
  · simp [h.noNul, hs]

/-- An insertion that the buffer can hold; behind the end nothing happens. -/
theorem HoldsText.insert (h : HoldsText sb xs) (hs : 0 ∉ s)
    (hcan : sb.size < idx ∨ CanHold mem sb.opacity (sb.size + s.length)) :
    ∃ sb', celStrbuffInsertFrom mem sb idx s s.length 1 = some (1, sb') ∧ HoldsText sb' (insertAt xs idx s) := by
  unfold insertAt
  by_cases hidx : idx ≤ xs.length
  · obtain ⟨cap, hcap, hbound, hgrow⟩ := h.grow (hcan.resolve_left (by rw [h.size_eq]; omega))
    have hsplit : xs.take idx ++ xs.drop idx = xs := List.take_append_drop idx xs
    have hins := @insertFromLoop_succ_of mem s (xs.take idx) (xs.drop idx) _ sb.opacity cap le_rfl
      (by rw [hsplit]; exact hgrow) (by rw [hsplit]; exact hcap.le) (by rw [hsplit]; omega) 0
    rw [hsplit, List.length_take, Nat.min_eq_left hidx, ← h.holds.2, List.take_length] at hins
    rw [if_pos hidx]
    refine ⟨_, hins, Strbuff.holds_of ?_, hbound, ?_⟩
    · simp only [List.length_append, List.length_take, List.length_drop]
      omega
    · have hmem : ∀ ys, ys ⊆ xs → (0 : UInt8) ∉ ys := fun ys hys hzero => h.noNul (hys hzero)
      simp [hs, hmem _ (List.take_subset idx xs), hmem _ (List.drop_subset idx xs)]
  · rw [if_neg hidx]
    refine ⟨sb, ?_, h⟩
    show insertFromLoop mem s s.length 1 idx sb = _
    rw [insertFromLoop, h.size_eq, if_pos (not_le.mp hidx)]

end Buffers

/-! ## One call -/

section Step

variable {mem : ℕ → Bool} {parse : List UInt8 → Option CJson} {print : CJson → Option (List UInt8)} {ex : Executor}
  {r : TaskReport}

theorem Shows.buffered (h : Shows ex r) : Buffered ex r.data :=
  ⟨h.limit.1 ▸ h.limit.2, h.data.opacity, h.data.holds⟩

theorem noNul_limitedStep {limit idx : ℕ} {xs data : List UInt8} (hxs : 0 ∉ xs) (hdata : 0 ∉ data) :
    0 ∉ limitedStep limit xs (.append data) ∧ 0 ∉ limitedStep limit xs (.insert idx data) := by
  have hpart : ∀ {ys zs : List UInt8}, zs ⊆ ys → 0 ∉ ys → 0 ∉ zs := fun hsub hys hzero => hys (hsub hzero)
  have htake : ∀ n, 0 ∉ data.take n := fun n => hpart (List.take_subset n data) hdata
  constructor
  · simp [limitedStep, hxs, htake]
  · simp only [limitedStep]
    split_ifs
    · simp [hpart (List.take_subset idx xs) hxs, hpart (List.drop_subset idx xs) hxs, htake]
    · exact hxs

theorem dataAppend_frame {data : List UInt8} {q : ℤ × Executor} (h : sarahExecutorDataAppend mem ex data = some q) :
    q.2 = { ex with dataBuffer := q.2.dataBuffer } := by
  unfold sarahExecutorDataAppend at h
  split_ifs at h
  · cases h
    rfl
  · obtain ⟨d, -, rfl⟩ := Option.map_eq_some_iff.mp h
    rfl

theorem dataInsert_frame {idx : ℕ} {data : List UInt8} {q : ℤ × Executor}
    (h : sarahExecutorDataInsert mem ex idx data = some q) : q.2 = { ex with dataBuffer := q.2.dataBuffer } := by
  unfold sarahExecutorDataInsert at h
  split_ifs at h
  · cases h
    rfl
  · obtain ⟨d, -, rfl⟩ := Option.map_eq_some_iff.mp h
    rfl

theorem Shows.setData (h : Shows ex r) {ex' : Executor} {xs : List UInt8}
    (hframe : ex' = { ex with dataBuffer := ex'.dataBuffer })
    (hdata : HoldsText ex'.dataBuffer xs) : Shows ex' { r with data := xs } := by
  rw [hframe] at hdata ⊢
  exact ⟨h.status, h.progress, h.errno, h.attach, h.limit, h.error, hdata⟩

theorem Shows.dataAppend (h : Shows ex r) {data : List UInt8} (hno : 0 ∉ data)
    (hs : Serves mem ex data) {q : ℤ × Executor} (hq : sarahExecutorDataAppend mem ex data = some q) :
    Shows q.2 { r with data := limitedStep r.limit r.data (.append data) } := by
  refine h.setData (dataAppend_frame hq) ?_
  have hzero := (@noNul_limitedStep r.limit 0 _ _ h.data.noNul hno).1
  by_cases hfull : ex.maxDatalen ≤ ex.dataBuffer.size
  · rw [sarahExecutorDataAppend, if_pos hfull] at hq
    cases hq
    rw [h.limit.1, h.data.size_eq] at hfull
    rw [(limitedStep_full hfull 0).1]
    exact h.data
  · obtain ⟨ex', hrun, hholds, -⟩ := append_of_serves (h.buffered.holdsData (not_le.mp hfull)) hs
    obtain rfl : q = (0, ex') := Option.some.inj (hq.symm.trans hrun)
    rw [h.limit.1] at hholds
    exact ⟨hholds.holds, hholds.opacity, hzero⟩

theorem Shows.dataInsert (h : Shows ex r) {idx : ℕ} {data : List UInt8} (hno : 0 ∉ data)
    (hs : ex.dataBuffer.size < idx ∨ Serves mem ex data) {q : ℤ × Executor}
    (hq : sarahExecutorDataInsert mem ex idx data = some q) :
    Shows q.2 { r with data := limitedStep r.limit r.data (.insert idx data) } := by
  refine h.setData (dataInsert_frame hq) ?_
  have hzero := (@noNul_limitedStep r.limit idx _ _ h.data.noNul hno).2
  by_cases hfull : ex.maxDatalen ≤ ex.dataBuffer.size
  · rw [sarahExecutorDataInsert, if_pos hfull] at hq
    cases hq
    rw [h.limit.1, h.data.size_eq] at hfull
    rw [(limitedStep_full hfull idx).2]
    exact h.data
  · obtain ⟨ex', hrun, hholds, -⟩ := insert_of_serves (h.buffered.holdsData (not_le.mp hfull)) hs
    obtain rfl : q = (0, ex') := Option.some.inj (hq.symm.trans hrun)
    rw [h.limit.1] at hholds
    exact ⟨hholds.holds, hholds.opacity, hzero⟩

theorem syncStatus_frame {env : SyncEnv} {q : ℤ × Executor}
    (h : sarahExecutorSyncStatus mem parse print ex env = some q) :
    q.2 = { ex with syncUrl := q.2.syncUrl, resBuffer := q.2.resBuffer } := by
  by_cases hs : Sends print ex env
  · obtain ⟨htask, hcurl, hprint⟩ := hs
    obtain ⟨task, htask⟩ := Option.isSome_iff_exists.mp htask
    obtain ⟨json, hprint⟩ := Option.isSome_iff_exists.mp hprint
    simp only [sarahExecutorSyncStatus, htask, hcurl, hprint] at h
    obtain ⟨url, -, h⟩ := Option.bind_eq_some_iff.mp h
    obtain ⟨sb, -, h⟩ := Option.bind_eq_some_iff.mp h
    obtain ⟨code, -, rfl⟩ := Option.map_eq_some_iff.mp h
    simp [htask]
  · rw [(syncStatus_of_not_sends hs h).1]

theorem inInt_zero : InInt 0 := by decide

theorem binary64_zero : (Double.fin 0).Binary64 := ⟨0, 0, by decide, by decide, by decide, by simp⟩

/-- **One granted call** keeps what the executor shows. -/
theorem shows_step (h : Shows ex r) {op : ExecutorOp} (hg : Granted mem ex op) {res : Executor × ℤ}
    (hstep : executorStep mem parse print ex op = some res) : Shows res.1 (r.step op) := by
  cases op with
  | clear =>
    obtain ⟨ex', hex', rfl⟩ := Option.map_eq_some_iff.mp hstep
    obtain ⟨e, he, herror⟩ := h.error.clear
    obtain ⟨d, hd, hdata⟩ := h.data.clear
    rw [sarahExecutorClear, he, Option.bind_some, hd, Option.map_some] at hex'
    cases hex'
    exact ⟨⟨rfl, inInt_zero⟩, ⟨rfl, binary64_zero⟩, ⟨rfl, inInt_zero⟩, h.attach, h.limit, herror, hdata⟩
  | setTask task =>
    cases hstep
    exact ⟨h.status, h.progress, h.errno, h.attach, h.limit, h.error, h.data⟩
  | setStatus status progress =>
    cases hstep
    exact ⟨⟨rfl, hg.1⟩, ⟨rfl, hg.2⟩, h.errno, h.attach, h.limit, h.error, h.data⟩
  | setErrno errno =>
    cases hstep
    exact ⟨h.status, h.progress, ⟨rfl, hg⟩, h.attach, h.limit, h.error, h.data⟩
  | setAttach attach =>
    cases hstep
    exact ⟨h.status, h.progress, h.errno, ⟨rfl, hg⟩, h.limit, h.error, h.data⟩
  | setMaxdatalen maxlen =>
    cases hstep
    exact ⟨h.status, h.progress, h.errno, h.attach, ⟨rfl, hg⟩, h.error, h.data⟩
  | dataAppend data =>
    obtain ⟨q, hq, rfl⟩ := Option.map_eq_some_iff.mp hstep
    exact h.dataAppend hg.1 hg.2 hq
  | dataInsert idx data =>
    obtain ⟨q, hq, rfl⟩ := Option.map_eq_some_iff.mp hstep
    exact h.dataInsert hg.1 hg.2 hq
  | dataClear =>
    obtain ⟨q, hq, rfl⟩ := Option.map_eq_some_iff.mp hstep
    obtain ⟨d, hd, hdata⟩ := h.data.clear
    rw [sarahExecutorDataClear, hd] at hq
    cases hq
    exact ⟨h.status, h.progress, h.errno, h.attach, h.limit, h.error, hdata⟩
  | errorAppend errstr =>
    obtain ⟨q, hq, rfl⟩ := Option.map_eq_some_iff.mp hstep
    obtain ⟨e, he, herror⟩ := h.error.append hg.1 hg.2
    rw [sarahExecutorErrorAppend, he] at hq
    cases hq
    exact ⟨h.status, h.progress, h.errno, h.attach, h.limit, herror, h.data⟩
  | errorInsert idx errstr =>
    obtain ⟨q, hq, rfl⟩ := Option.map_eq_some_iff.mp hstep
    obtain ⟨e, he, herror⟩ := h.error.insert hg.1 hg.2
    rw [sarahExecutorErrorInsert, he] at hq
    cases hq
    exact ⟨h.status, h.progress, h.errno, h.attach, h.limit, herror, h.data⟩
  | errorClear =>
    obtain ⟨q, hq, rfl⟩ := Option.map_eq_some_iff.mp hstep
    obtain ⟨e, he, herror⟩ := h.error.clear
    rw [sarahExecutorErrorClear, he] at hq
    cases hq
    exact ⟨h.status, h.progress, h.errno, h.attach, h.limit, herror, h.data⟩
  | sync env =>
    obtain ⟨q, hq, rfl⟩ := Option.map_eq_some_iff.mp hstep
    rw [Prod.fst_swap, syncStatus_frame hq]
    exact ⟨h.status, h.progress, h.errno, h.attach, h.limit, h.error, h.data⟩

end Step

/-! ## The package -/

section Package

variable {ex : Executor} {r : TaskReport}

theorem binary64_int {n : ℤ} (h : |n| < 2 ^ 53) : (Double.fin n).Binary64 :=
  ⟨n, 0, h, by decide, by decide, by simp⟩

theorem doubles_syncPackage (h : Shows ex r) : (syncPackage ex).Doubles := by
  have hversion : (Double.fin (7070651414971679 / 4503599627370496)).Binary64 :=
    ⟨7070651414971679, -52, by decide, by decide, by decide, by norm_num⟩
  have hint : ∀ n : ℤ, -2 ^ 31 ≤ n → n < 2 ^ 32 → (Double.fin n).Binary64 := fun n _ _ =>
    binary64_int (abs_lt.mpr ⟨by omega, by omega⟩)
  have hstatus : (Double.fin ex.status).Binary64 := by
    obtain ⟨heq, hlo, hhi⟩ := h.status
    exact hint _ (by omega) (by omega)
  have herrno : (Double.fin ex.errno).Binary64 := by
    obtain ⟨heq, hlo, hhi⟩ := h.errno
    exact hint _ (by omega) (by omega)
  have hattach : (Double.fin ex.attach).Binary64 := by
    obtain ⟨heq, hlt⟩ := h.attach
    have hcast := hint ex.attach (by omega) (by omega)
    rwa [Int.cast_natCast] at hcast
  have hprogress : ex.progress.Binary64 := h.progress.1 ▸ h.progress.2
  exact ⟨hversion, ⟨hstatus, hprogress, herrno, hattach, trivial, trivial, trivial⟩, trivial⟩

theorem seen_syncPackage (h : Shows ex r) : (syncPackage ex).seen = r.package := by
  have hnames : cstr (lit "version") = lit "version" ∧ cstr (lit "data") = lit "data" ∧
      cstr (lit "status") = lit "status" ∧ cstr (lit "progress") = lit "progress" ∧ cstr (lit "errno") = lit "errno" ∧
      cstr (lit "attach") = lit "attach" ∧ cstr (lit "res_error") = lit "res_error" ∧
      cstr (lit "res_data") = lit "res_data" := by decide +kernel
  obtain ⟨hversion, hdata, hstatus, hprogress, herrno, hattach, herror, hresult⟩ := hnames
  have hvalue := h.progress.1
  cases hcase : r.progress with
  | _ =>
    rw [hcase] at hvalue
    simp only [syncPackage, TaskReport.package, CJson.seen, CJson.seenMembers, jsonNumber, hversion, hdata, hstatus,
      hprogress, herrno, hattach, herror, hresult, h.status.1, hvalue, hcase, h.errno.1, h.attach.1,
      h.error.cstr_buffer, h.data.cstr_buffer, cstr_of_notMem h.error.noNul, cstr_of_notMem h.data.noNul]

theorem nesting_syncPackage (ex : Executor) : (syncPackage ex).nesting = 2 := rfl

theorem parseCJson_package {memory : ℕ → Option (ℕ → UInt8)} (h : Shows ex r) {json : List UInt8}
    (hprint : printCJson memory (syncPackage ex) = some json) : parseCJson json = some r.package := by
  rw [← seen_syncPackage h]
  exact (parseCJson_text (doubles_syncPackage h) hprint).1 (by rw [nesting_syncPackage]; decide)

end Package

/-! ## Runs -/

section Run

variable {mem : ℕ → Bool} {memory : ℕ → Option (ℕ → UInt8)} {node : Node} {ex : Executor}

theorem shows_init (h : sarahExecutorInit mem node = some (.ok ex)) : Shows ex .new := by
  obtain ⟨appKey, -, h⟩ := Option.map_eq_some_iff.mp h
  dsimp only at h
  split_ifs at h
  split at h
  · cases h
  · cases h
  · cases h
  · rename_i res error data _ herror hdata
    cases h
    have hfresh : ∀ {n : ℤ} {sb : Strbuff}, celStrbuffInit mem n = some sb → 0 < n → n < 2 ^ 31 → HoldsText sb [] := by
      intro n sb hinit hpos hlt
      obtain ⟨b, hb, rfl⟩ := Option.map_eq_some_iff.mp hinit
      unfold createBuffer at hb
      split_ifs at hb
      cases hb
      have hholds : (Strbuff.of [] n.toNat).Holds [] := Strbuff.holds_of (by rw [List.length_nil]; omega)
      exact ⟨hholds, show n.toNat < 2 ^ 31 by omega, List.not_mem_nil⟩
    exact ⟨⟨rfl, inInt_zero⟩, ⟨rfl, binary64_zero⟩, ⟨rfl, inInt_zero⟩, ⟨rfl, by decide⟩, ⟨rfl, by decide⟩,
      hfresh herror (by decide) (by decide), hfresh hdata (by decide) (by decide)⟩

theorem shows_run {parse : List UInt8 → Option CJson} {print : CJson → Option (List UInt8)} :
    ∀ (ops : List ExecutorOp) {ex : Executor} {r : TaskReport} {q : Executor × List ℤ}, Shows ex r →
      Machine.Guarded (executorStep mem parse print) (Granted mem) ex ops →
      Machine.exec (executorStep mem parse print) ex ops = some q → Shows q.1 (ops.foldl TaskReport.step r)
  | [], _, _, _, hshows, _, hrun => by
    cases hrun
    exact hshows
  | op :: ops, _, _, _, hshows, hops, hrun => by
    obtain ⟨res, p, hstep, hrest, rfl⟩ := Machine.exec_cons_eq_some.mp hrun
    have hlast : Shows p.1 _ := shows_run ops (shows_step hshows hops.1 hstep) (hops.2 res hstep) hrest
    exact hlast

/-- **What the server reads.** After every run of granted calls from `sarah_executor_init`, the package has a text
unless memory is missing or the text is too long, and this text is read back as what the calls amount to. -/
theorem executor_posts (h : sarahExecutorInit mem node = some (.ok ex)) {ops : List ExecutorOp}
    (hops : Machine.Guarded (executorStep mem parseCJson (printCJson memory)) (Granted mem) ex ops)
    {q : Executor × List ℤ} (hrun : Machine.exec (executorStep mem parseCJson (printCJson memory)) ex ops = some q) :
    (∀ json, printCJson memory (syncPackage q.1) = some json →
      parseCJson json = some (ops.foldl TaskReport.step .new).package) ∧
    (printCJson memory (syncPackage q.1) = none → (∃ k, memory k = none) ∨
      ∃ t, (syncPackage q.1).text = some t ∧ intMax < t.length + 2) := by
  have hshows := shows_run ops (shows_init h) hops hrun
  exact ⟨fun json hjson => parseCJson_package hshows hjson,
    fun hnone => printCJson_none (doubles_syncPackage hshows) hnone⟩

/-- A task that failed halfway. -/
def failedHalfway : List ExecutorOp :=
  [.setTask plainTask, .setStatus 1 (.fin (1 / 2)), .errorAppend (lit "no \"tar\"")]

theorem executor_posts_halfway : ∃ ex q, sarahExecutorInit (fun _ => true) plainNode = some (.ok ex) ∧
    (∀ json, printCJson (fun _ => some fun _ => 0) (syncPackage q) = some json →
      parseCJson json = some (failedHalfway.foldl TaskReport.step .new).package) ∧
    (printCJson (fun _ => some fun _ => 0) (syncPackage q) = none →
      (∃ k, (fun _ => some fun _ => 0 : ℕ → Option (ℕ → UInt8)) k = none) ∨
        ∃ t, (syncPackage q).text = some t ∧ intMax < t.length + 2) := by
  obtain ⟨ex, hex⟩ : ∃ ex, sarahExecutorInit (fun _ => true) plainNode = some (.ok ex) := ⟨_, rfl⟩
  have herror := (shows_init hex).error
  have hcan : CanHold (fun _ => true) ex.errorBuffer.opacity (ex.errorBuffer.size + (lit "no \"tar\"").length) :=
    .inr ⟨by rw [herror.size_eq]; decide, rfl⟩
  have hno : (0 : UInt8) ∉ lit "no \"tar\"" := by decide +kernel
  obtain ⟨e, happ, -⟩ := herror.append hno hcan
  have hhalf : (Double.fin (1 / 2)).Binary64 := ⟨1, -1, by decide, by decide, by decide, by norm_num⟩
  have hlast : executorStep (fun _ => true) parseCJson (printCJson fun _ => some fun _ => 0)
      { ex with task := some plainTask, status := 1, progress := .fin (1 / 2) } (.errorAppend (lit "no \"tar\"")) =
      some ({ ex with task := some plainTask, status := 1, progress := .fin (1 / 2), errorBuffer := e }, 0) := by
    rw [executorStep, sarahExecutorErrorAppend, happ]
    rfl
  have hguard : Machine.Guarded (executorStep (fun _ => true) parseCJson (printCJson fun _ => some fun _ => 0))
      (Granted fun _ => true) ex failedHalfway := by
    refine Machine.guarded_cons trivial rfl (Machine.guarded_cons ⟨by decide, hhalf⟩ rfl ?_)
    exact Machine.guarded_cons ⟨hno, hcan⟩ hlast (Machine.guarded_nil _)
  have hrun : Machine.exec (executorStep (fun _ => true) parseCJson (printCJson fun _ => some fun _ => 0)) ex
      failedHalfway = some
        ({ ex with task := some plainTask, status := 1, progress := .fin (1 / 2), errorBuffer := e }, [0, 0, 0]) := by
    rw [failedHalfway, Machine.exec_cons_of_step rfl, Machine.exec_cons_of_step rfl, Machine.exec_cons_of_step hlast]
    rfl
  exact ⟨ex, _, hex, executor_posts hex hguard hrun⟩

end Run

end Sarah

import SuiteScope.Proofs.Transcript.Block
import SuiteScope.Transcript.Report

/-!
# The verdict on a run

A report joins three sources : the exit code, the failing lines and the counts that the transcript
states. `Report.ofTranscript_verdict` says for all of them what the report comes to. In particular
all tests passed only if no source speaks against it, and a run that ended badly has a failed test.
A total that no summary line states is the sum of the counts, as long as this fits into 64 bits.

The counts come in three shapes, and in each of them any count may be missing. `Stats.failed?` and
its fellows read a count off whatever shape it has, and `Stats.failed_eq` is the one place where the
shapes are told apart : they differ in what is taken for a failed count that is missing.
-/

namespace SuiteScope.Transcript

/-! ## The counts of a transcript -/

namespace Stats

/-- The number of failed tests, where the transcript states it. -/
def failed? : Stats → Option Nat
  | .combined failed _ _ _ | .perMetric failed _ _ => failed
  | .absent => none

/-- The number of passed tests, where the transcript states it. -/
def passed? : Stats → Option Nat
  | .combined _ passed _ _ | .perMetric _ passed _ => passed
  | .absent => none

/-- The number of skipped tests, where the transcript states it. -/
def skipped? : Stats → Option Nat
  | .combined _ _ skipped _ | .perMetric _ _ skipped => skipped
  | .absent => none

/-- The number of all tests, which only a summary line states. -/
def total? : Stats → Option Nat
  | .combined _ _ _ total => total
  | .perMetric .. | .absent => none

/-- Whether the counts are those of a summary line. -/
def isCombined : Stats → Bool
  | .combined .. => true
  | .perMetric .. | .absent => false

variable (st : Stats)

theorem failed_eq (found : Nat) :
    st.failed found = st.failed?.getD (if st.isCombined then 0 else found) := by
  cases st <;> rfl

theorem passed_eq : st.passed = st.passed?.getD 0 := by
  cases st <;> rfl

theorem skipped_eq : st.skipped = st.skipped?.getD 0 := by
  cases st <;> rfl

theorem statedTotal?_eq : st.statedTotal? = st.total?.filter (0 < ·) := by
  cases st <;> rfl

/-- A number of failures that is given counts. -/
theorem failed_of_mem {n : Nat} (h : n ∈ st.failed?) (found : Nat) : st.failed found = n := by
  rw [failed_eq, Option.mem_def.mp h, Option.getD_some]

/-- A missing count of failed tests is taken to be zero beside a summary line, and to be the number
of failing lines otherwise. -/
theorem failed_of_eq_none (h : st.failed? = none) (found : Nat) :
    st.failed found = if st.isCombined then 0 else found := by
  rw [failed_eq, h, Option.getD_none]

/-- Without a positive count of failed tests, the failing lines are all that is left to count. -/
theorem failed_le (h : ∀ n ∈ st.failed?, n = 0) (found : Nat) :
    st.failed found = 0 ∨ st.failed found = found := by
  cases hst : st.failed? with
  | some n => exact .inl ((st.failed_of_mem hst found).trans (h n hst))
  | none =>
    rw [st.failed_of_eq_none hst]
    split
    · exact .inl rfl
    · exact .inr rfl

end Stats

/-! ## Totals -/

namespace Totals

variable {st : Stats} {found : Nat} {exitCode : Int}

/-- The count that the transcript leads to, unless the exit code alone speaks of a failure. -/
theorem failed_reconcile : (reconcile st found exitCode).failed =
    if exitCode ≠ 0 ∧ st.failed found = 0 then max found 1 else st.failed found :=
  rfl

theorem failed_reconcile_zero : (reconcile st found 0).failed = st.failed found := by
  rw [failed_reconcile, if_neg fun h => h.1 rfl]

/-- A positive count stands, however the run ended. -/
theorem failed_reconcile_of_pos {n : Nat} (h : n ∈ st.failed?) (hn : 0 < n) :
    (reconcile st found exitCode).failed = n := by
  have hstated := st.failed_of_mem h found
  rw [failed_reconcile, if_neg (by omega), hstated]

/-- A run that ended badly without a positive count has as many failed tests as failing lines, and
one if there are none. -/
theorem failed_reconcile_of_ne_zero (he : exitCode ≠ 0) (h : ∀ n ∈ st.failed?, n = 0) :
    (reconcile st found exitCode).failed = max found 1 := by
  rw [failed_reconcile]
  split
  · rfl
  next hstated =>
    -- A count that is not zero is the number of failing lines here, so there are some.
    have := st.failed_le h found
    omega

/-- A process that did not end well has a failure. -/
theorem one_le_failed_reconcile (he : exitCode ≠ 0) :
    1 ≤ (reconcile st found exitCode).failed := by
  rw [failed_reconcile]
  split
  · exact Nat.le_max_right found 1
  next h => exact Nat.one_le_iff_ne_zero.mpr fun hzero => h ⟨he, hzero⟩

/-- A total that is given counts, unless it is zero. -/
theorem total_reconcile_of_pos {n : Nat} (h : n ∈ st.total?) (hn : 0 < n) :
    (reconcile st found exitCode).total = n := by
  have hstated : st.statedTotal? = some n := by
    rw [st.statedTotal?_eq, Option.mem_def.mp h, Option.filter_some, decide_eq_true hn, if_pos rfl]
  simp [reconcile, hstated]

/-- Without one the total is the sum, as far as it can be held. -/
theorem total_reconcile (h : ∀ n ∈ st.total?, n = 0) :
    let totals := reconcile st found exitCode
    totals.total = (totals.passed + totals.failed + totals.skipped) % Text.countBound ∧
      (totals.passed + totals.failed + totals.skipped < Text.countBound →
        totals.total = totals.passed + totals.failed + totals.skipped) := by
  have hstated : st.statedTotal? = none := by
    rw [st.statedTotal?_eq, Option.filter_eq_none_iff]
    intro n hn
    simp [h n hn]
  have htotal : (reconcile st found exitCode).total =
      ((reconcile st found exitCode).passed + (reconcile st found exitCode).failed +
        (reconcile st found exitCode).skipped) % Text.countBound := by
    simp [reconcile, hstated]
  exact ⟨htotal, fun hbound => htotal.trans (Nat.mod_eq_of_lt hbound)⟩

/-- No failed test was counted and none was found. -/
theorem failed_reconcile_eq_zero_iff :
    (reconcile st 0 0).failed = 0 ↔ ∀ n ∈ st.failed?, n = 0 := by
  rw [failed_reconcile_zero]
  constructor
  · intro h n hn
    rw [← st.failed_of_mem hn 0, h]
  · intro h
    rcases st.failed_le h 0 with hzero | hzero <;> exact hzero

end Totals

/-! ## The report -/

theorem Report.allPassed_iff (transcript : String) (durationMs : Nat) (exitCode : Int) :
    let text := strip transcript.toList
    (Report.ofTranscript transcript durationMs exitCode).allPassed = true ↔
      exitCode = 0 ∧ Transcript.failures text = [] ∧ ∀ n ∈ (stats text).failed?, n = 0 := by
  intro text
  simp only [Report.ofTranscript, Bool.and_eq_true, beq_iff_eq, List.isEmpty_iff, and_assoc]
  refine and_congr_right fun he => and_congr_right fun hfound => ?_
  rw [he, hfound]
  exact Totals.failed_reconcile_eq_zero_iff

/-- What a report says of a run, for every exit code, all failing lines and every shape of the
counts. -/
theorem Report.ofTranscript_verdict (transcript : String) (durationMs : Nat) (exitCode : Int) :
    let text := strip transcript.toList
    let found := Transcript.failures text
    let st := stats text
    let report := Report.ofTranscript transcript durationMs exitCode
    (report.allPassed = true ↔ exitCode = 0 ∧ found = [] ∧ ∀ n ∈ st.failed?, n = 0) ∧
      (exitCode ≠ 0 → 1 ≤ report.totals.failed ∧
        (∀ n ∈ st.failed?, 0 < n → report.totals.failed = n) ∧
        ((∀ n ∈ st.failed?, n = 0) → report.totals.failed = max found.length 1)) ∧
      (exitCode = 0 → (∀ n ∈ st.failed?, report.totals.failed = n) ∧
        (st.failed? = none →
          report.totals.failed = if st.isCombined then 0 else found.length)) ∧
      report.totals.passed = st.passed?.getD 0 ∧
      report.totals.skipped = st.skipped?.getD 0 ∧
      (∀ n ∈ st.total?, 0 < n → report.totals.total = n) ∧
      ((∀ n ∈ st.total?, n = 0) →
        let sum := report.totals.passed + report.totals.failed + report.totals.skipped
        report.totals.total = sum % Text.countBound ∧
          (sum < Text.countBound → report.totals.total = sum)) := by
  intro text found st report
  refine ⟨Report.allPassed_iff transcript durationMs exitCode, fun he => ⟨?_, ?_, ?_⟩,
    fun he => ⟨?_, ?_⟩, st.passed_eq, st.skipped_eq, ?_, Totals.total_reconcile⟩
  · exact Totals.one_le_failed_reconcile he
  · exact fun n hn => Totals.failed_reconcile_of_pos hn
  · exact Totals.failed_reconcile_of_ne_zero he
  · subst he
    exact fun n hn => Totals.failed_reconcile_zero.trans (st.failed_of_mem hn _)
  · subst he
    exact fun hn => Totals.failed_reconcile_zero.trans (st.failed_of_eq_none hn _)
  · exact fun n hn => Totals.total_reconcile_of_pos hn

/-- A failing line without any count is a failed test, whether the run ended well or badly. A count
that stands beside it is taken in its place. -/
theorem verdict_of_lone_failure :
    let uncounted := "FAIL\n × lonely test"
    let counted := uncounted ++ "\nTests  2 failed | 3 passed (5)"
    (stats (strip uncounted.toList) = .absent ∧
      (Report.ofTranscript uncounted 0 0).totals.failed = 1 ∧
      (Report.ofTranscript uncounted 0 1).totals.failed = 1) ∧
    (stats (strip counted.toList) = .combined (some 2) (some 3) none (some 5) ∧
      (Report.ofTranscript counted 0 0).totals.failed = 2 ∧
      (Report.ofTranscript counted 0 1).totals.failed = 2 ∧
      (Report.ofTranscript counted 0 1).totals.total = 5) := by
  intro uncounted counted
  have huncounted : strip uncounted.toList = uncounted.toList := strip_eq_self (by decide +kernel)
  have hcounted : strip counted.toList = counted.toList := strip_eq_self (by decide +kernel)
  have habsent : stats (strip uncounted.toList) = .absent := by
    rw [huncounted]
    decide +kernel
  have hstated : stats (strip counted.toList) = .combined (some 2) (some 3) none (some 5) := by
    rw [hcounted]
    decide +kernel
  have hfound : (Transcript.failures (strip uncounted.toList)).length = 1 := by
    rw [huncounted]
    decide +kernel
  refine ⟨⟨habsent, ?_, ?_⟩, hstated, ?_, ?_, ?_⟩
  · obtain ⟨-, -, hwell, -⟩ := Report.ofTranscript_verdict uncounted 0 0
    rw [(hwell rfl).2 (by rw [habsent]; rfl), habsent, hfound]
    rfl
  · obtain ⟨-, hbadly, -⟩ := Report.ofTranscript_verdict uncounted 0 1
    rw [(hbadly (by decide)).2.2 (by rw [habsent]; simp [Stats.failed?]), hfound]
    rfl
  · obtain ⟨-, -, hwell, -⟩ := Report.ofTranscript_verdict counted 0 0
    exact (hwell rfl).1 2 (by rw [hstated]; rfl)
  · obtain ⟨-, hbadly, -⟩ := Report.ofTranscript_verdict counted 0 1
    exact (hbadly (by decide)).2.1 2 (by rw [hstated]; rfl) (by decide)
  · obtain ⟨-, -, -, -, -, htotal, -⟩ := Report.ofTranscript_verdict counted 0 1
    exact htotal 5 (by rw [hstated]; rfl) (by decide)

end SuiteScope.Transcript

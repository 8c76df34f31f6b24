/-
  The pipeline benchmark neither loses nor invents messages. Main fact: whatever the order of
  turns, what is counted and what is in the ring is at most what there is to publish, and all of
  it once the producers are joined and no `doWork` is in progress; and when the main thread sees
  that all has arrived, it takes the same result in every order of turns (`pipeline_conserves`).
-/
import RingTransport.Bench.Report
import RingTransport.Proofs.Bench.Shutdown

namespace RingTransport.Bench

namespace Pipeline

variable {cap : Capacity} {w : Workload} {s : Pipeline cap}
  {closer server : List Runner.Frame}

/-- The main thread has joined all producers. -/
def AllJoined (w : Workload) (s : Pipeline cap) : Prop := joinedOf w s.main = w.producers

/-- A `doWork` is in progress. -/
def InWork (s : Pipeline cap) : Prop :=
  ∃ below, s.runner.frames[workerThread]? = some (.callback .doWork :: below)

theorem Kept.eq_total (h : Kept w s closer server) (hjoined : AllJoined w s)
    (hjob : s.job = .start) : s.consumed + s.threads.ring.len = w.total := by
  obtain ⟨wins, log, hbalanced⟩ := h.balanced
  refine hbalanced.eq_total (fun p hp => h.joined p ?_) hjob
  rwa [hjoined]

theorem Kept.job_eq_start (h : Kept w s closer server) (hnot : ¬InWork s) : s.job = .start := by
  by_contra hjob
  refine hnot ⟨[.run .inWork], ?_⟩
  rw [h.orderly.frames_worker, h.orderly.working hjob]

/-- What the main thread takes as the result. -/
theorem Kept.report (h : Kept w s closer server) {report : PipelineReport}
    (hreport : s.report? w = some report) :
    s.consumed + s.threads.ring.len = w.total ∧ s.job = .start ∧
      report = ⟨w.total, s.consumed, 0, s.checksum⟩ := by
  unfold report? result? at hreport
  cases hmain : s.main with
  | finished consumed =>
    rw [hmain] at hreport
    have hresult := h.awaited.result consumed hmain
    obtain ⟨-, hout⟩ := h.awaited.joined (congrArg isServed hmain)
    have hjob : s.job = .start := by
      by_contra hjob
      cases hout.symm.trans (h.orderly.working hjob)
    have hjoined : AllJoined w s := by rw [AllJoined, hmain]; rfl
    have hfaults : s.runner.cells.counters.headD 0 = 0 := by rw [h.orderly.counters]; rfl
    refine ⟨h.eq_total hjoined hjob, hjob, ?_⟩
    rw [← hresult, ← hfaults]
    exact (Option.some.inj hreport).symm
  | _ =>
    rw [hmain] at hreport
    cases hreport

/-- The counter never goes back. -/
theorem Kept.consumed_le_run (h : Kept w s closer server) (turns : List Turn) :
    s.consumed ≤ (s.run w turns).consumed := by
  induction turns generalizing s closer server with
  | nil => exact Nat.le_refl _
  | cons turn turns ih =>
    obtain ⟨closer', server', ht⟩ := h.orderly.turned w turn
    exact Nat.le_trans ht.consumed_le (ih (h.turned ht))

/-- When everything is counted, there is one result. -/
theorem Kept.report_eq (h : Kept w s closer server) (hall : w.total ≤ s.consumed)
    {report : PipelineReport} (hreport : s.report? w = some report) :
    report = ⟨w.total, w.total, 0, UInt64.ofNat (checksumOf w)⟩ := by
  obtain ⟨wins, log, hbalanced⟩ := h.balanced
  obtain ⟨-, hjob, rfl⟩ := h.report hreport
  have hle := hbalanced.le_total
  have hconsumed : s.consumed = w.total := by omega
  rw [hbalanced.checksum_eq hconsumed hjob, hconsumed]

end Pipeline

open Pipeline

/-- The shares of the producers come to no more than was asked for. -/
theorem total_share_le (iterations producers : Nat) :
    (share iterations producers).total ≤ iterations := by
  rcases Nat.eq_zero_or_pos producers with rfl | hpos
  · exact Nat.le_trans (Nat.le_of_eq (Nat.zero_mul _)) (Nat.zero_le _)
  · have hmax : max producers 1 = producers := Nat.max_eq_left hpos
    show producers * (iterations / max producers 1) ≤ iterations
    rw [hmax]
    exact Nat.mul_div_le iterations producers

/-- The benchmark conserves messages, in every order of turns: what is counted and what is in
the ring is at most what there is to publish, and all of it once the producers are joined and no
`doWork` is in progress, so what is counted at the end and what is left make up the total. When
all has been counted by the time the main thread looks at the counter, it comes to its end if it
and the worker get turns again and again, and its result is always the same: all messages, no
faults, and the sum of all weights modulo 2^64, which is no failure. -/
theorem pipeline_conserves (cap : Capacity) (iterations producers : Nat) :
    let w := share iterations producers
    w.per ≤ iterations ∧ w.total ≤ iterations ∧ ∀ turns : List Turn,
      let s := (init w : Pipeline cap).run w turns
      s.consumed + s.threads.ring.len ≤ w.total ∧
      (AllJoined w s → ¬InWork s → s.consumed + s.threads.ring.len = w.total) ∧
      (∀ report, s.report? w = some report →
        report.consumed + s.threads.ring.len = report.produced) ∧
      (s.main = .polling → w.total ≤ s.consumed →
        (∀ schedule, Fair schedule → ∃ n, ((after w s schedule n).report? w).isSome = true) ∧
        ∀ more report, (s.run w more).report? w = some report →
          report = ⟨w.total, w.total, 0, UInt64.ofNat (checksumOf w)⟩ ∧
          ∀ nanos, (pipelineLines nanos (.ok (some report))).2 = none) := by
  intro w
  refine ⟨Nat.div_le_self _ _, total_share_le iterations producers, fun turns => ?_⟩
  intro s
  obtain ⟨closer, server, h⟩ := (kept_init w : Kept w (init w : Pipeline cap) [] []).run turns
  obtain ⟨wins, log, hbalanced⟩ := h.balanced
  refine ⟨hbalanced.le_total, fun hjoined hnot => h.eq_total hjoined (h.job_eq_start hnot),
    fun report hreport => ?_, fun hmain hall => ⟨fun schedule hfair => ?_, ?_⟩⟩
  · obtain ⟨htotal, -, rfl⟩ := h.report hreport
    exact htotal
  · obtain ⟨n, consumed, hfinished⟩ := hfair.finishes h hmain hall
    refine ⟨n, ?_⟩
    rw [report?, result?, hfinished]
    rfl
  · intro more report hreport
    obtain ⟨closer', server', h'⟩ := h.run more
    obtain rfl := h'.report_eq (Nat.le_trans hall (h.consumed_le_run more)) hreport
    exact ⟨rfl, fun nanos => if_pos rfl⟩

/-- One message through a ring of two slots, and then the worker and the main thread in turn. -/
theorem pipeline_of_one_conserves :
    let w : Workload := share 1 1
    let turns := List.replicate 7 (Turn.producer 0 false) ++ List.replicate 17 .worker ++
      [.main false, .main false]
    let s := (init w : Pipeline ⟨2, by decide⟩).run w turns
    let alternating := fun n => if n % 2 = 0 then Turn.worker else .main false
    AllJoined w s ∧ ¬InWork s ∧ s.consumed + s.threads.ring.len = w.total ∧
      s.main = .polling ∧ w.total ≤ s.consumed ∧ Fair alternating ∧
      (∃ n, ((after w s alternating n).report? w).isSome = true) ∧
      ∀ more report, (s.run w more).report? w = some report →
        report = ⟨w.total, w.total, 0, UInt64.ofNat (checksumOf w)⟩ ∧
        ∀ nanos, (pipelineLines nanos (.ok (some report))).2 = none := by
  intro w turns s alternating
  have hjoined : AllJoined w s := by unfold AllJoined; decide +kernel
  have hframes : s.runner.frames[workerThread]? = some [.run .loadRunning] := by decide +kernel
  have hnot : ¬InWork s := fun ⟨_, hwork⟩ => by cases hframes.symm.trans hwork
  have hmain : s.main = .polling := by decide +kernel
  have hall : w.total ≤ s.consumed := by decide +kernel
  have hfair : Fair alternating :=
    ⟨fun n => ⟨2 * n, by omega, if_pos (by omega)⟩,
      fun n => ⟨2 * n + 1, by omega, false, if_neg (by omega)⟩⟩
  obtain ⟨-, hbalance, -, hend⟩ := (pipeline_conserves ⟨2, by decide⟩ 1 1).2.2 turns
  obtain ⟨hfinishes, hresult⟩ := hend hmain hall
  -- by names alone: the sum is not to be computed
  have htotal : s.consumed + s.threads.ring.len = w.total := by
    with_reducible exact hbalance hjoined hnot
  exact ⟨hjoined, hnot, htotal, hmain, hall, hfair, hfinishes alternating hfair, hresult⟩

end RingTransport.Bench

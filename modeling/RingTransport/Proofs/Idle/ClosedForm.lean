/-
  A back-off in closed form. Whatever it is told, its state depends on its set-up and on one
  number only: how often it has been told of no work since it started over (`idles`).
  `Waited` gives the state for each number, each wait leads from one number to the next
  (`Waited.wait`), and anything else leads back to 0. Main fact: `after_calls`.

  A limit of 0 spins or yields counts as 1: the limit is compared after the count.
-/
import Mathlib.Algebra.Group.Nat.Defs
import Mathlib.Data.List.Induction
import RingTransport.Idle.Backoff

namespace RingTransport

theorem Duration.ext_total {a b : Duration} (h : a.total = b.total) : a = b := by
  have ha := a.nanos_lt
  have hb := b.nanos_lt
  obtain ⟨seconds, nanos, _, _⟩ := a
  obtain ⟨seconds', nanos', _, _⟩ := b
  simp only [total, nanosPerSecond] at h ha hb
  obtain ⟨rfl, rfl⟩ : seconds = seconds' ∧ nanos = nanos' := by omega
  rfl

/-- The seconds and the nanoseconds of a duration are those of its total. -/
theorem Duration.parts_eq (d : Duration) :
    d.seconds = d.total / nanosPerSecond ∧ d.nanos = d.total % nanosPerSecond := by
  have h := d.nanos_lt
  simp only [total, nanosPerSecond] at h ⊢
  omega

namespace Backoff

/-- What a back-off is told: how much work was done, or to start over. -/
inductive Call where
  | idle (work : Nat)
  | reset
  deriving DecidableEq, Repr

/-- What a call does to a back-off. -/
def serve (b : Backoff) : Call → Backoff
  | .idle work => b.idle work
  | .reset => b.reset

/-- A back-off after calls, the first one first. -/
def after (b : Backoff) (calls : List Call) : Backoff := calls.foldl serve b

/-- How often a back-off that was told this has been told of no work since it was last told
anything else. -/
def idles (calls : List Call) : Nat := (calls.reverse.takeWhile (· == .idle 0)).length

/-- The number of waits that are spins. -/
def Config.spins (config : Config) : Nat := max 1 config.maxSpins.toNat

/-- The number of waits that are yields. -/
def Config.yields (config : Config) : Nat := max 1 config.maxYields.toNat

/-- The length of a park, after a number of parks. -/
def Config.parkAfter (config : Config) (parks : Nat) : Nat :=
  min (config.minPark.total * 2 ^ parks) config.maxPark.total

/-- The phase after a number of waits. -/
def Config.phaseAfter (config : Config) (n : Nat) : Phase :=
  if n < config.spins then .spinning
  else if n < config.spins + config.yields then .yielding
  else .parking

/-- The state of a back-off that has waited `n` times since it started over. -/
structure Waited (config : Config) (n : Nat) (b : Backoff) : Prop where
  config_eq : b.config = config
  phase_eq : b.phase = config.phaseAfter n
  spins_eq : b.spins.toNat = min n config.spins
  yields_eq : b.yields.toNat = min (n - config.spins) config.yields
  park_eq : b.park.total = config.parkAfter (n - config.spins - config.yields)

variable {config : Config} {b b' : Backoff} {n : Nat} {call : Call}

theorem Config.spins_pos (config : Config) : 0 < config.spins := Nat.le_max_left 1 _

theorem Config.yields_pos (config : Config) : 0 < config.yields := Nat.le_max_left 1 _

theorem Config.spins_lt (config : Config) : config.spins < 4294967296 := by
  have h := config.maxSpins.toNat_lt
  unfold spins
  omega

theorem Config.yields_lt (config : Config) : config.yields < 4294967296 := by
  have h := config.maxYields.toNat_lt
  unfold yields
  omega

theorem Config.phaseAfter_eq_spinning (h : n < config.spins) :
    config.phaseAfter n = .spinning :=
  if_pos h

theorem Config.phaseAfter_eq_yielding (h : config.spins ≤ n)
    (hlt : n < config.spins + config.yields) : config.phaseAfter n = .yielding := by
  rw [phaseAfter, if_neg (Nat.not_lt.2 h), if_pos hlt]

theorem Config.phaseAfter_eq_parking (h : config.spins + config.yields ≤ n) :
    config.phaseAfter n = .parking := by
  rw [phaseAfter, if_neg (by omega), if_neg (Nat.not_lt.2 h)]

theorem Config.parkAfter_zero (h : config.minPark.total ≤ config.maxPark.total) :
    config.parkAfter 0 = config.minPark.total := by
  rw [parkAfter, Nat.pow_zero, Nat.mul_one, Nat.min_eq_left h]

/-- Cutting a park to the cap before it is doubled changes nothing after it. -/
theorem Config.parkAfter_succ (config : Config) (parks : Nat) :
    config.parkAfter (parks + 1) = min (config.parkAfter parks * 2) config.maxPark.total := by
  simp only [parkAfter, Nat.pow_succ, ← Nat.mul_assoc]
  omega

theorem waited_ofConfig (h : config.minPark.total ≤ config.maxPark.total) :
    Waited config 0 (ofConfig config) where
  config_eq := rfl
  phase_eq := (Config.phaseAfter_eq_spinning config.spins_pos).symm
  spins_eq := (Nat.zero_min _).symm
  yields_eq := by rw [Nat.zero_sub, Nat.zero_min]; rfl
  park_eq := by rw [Nat.zero_sub, Nat.zero_sub, config.parkAfter_zero h]; rfl

/-- A count that is below a limit can be raised by one. -/
theorem toNat_succ {count : UInt32} {limit : Nat} (hlt : count.toNat < limit)
    (hlimit : limit < 4294967296) : (count + 1).toNat = count.toNat + 1 := by
  have hone : (1 : UInt32).toNat = 1 := rfl
  rw [UInt32.toNat_add, hone]
  omega

/-- A spin or a yield is the last one when the count has reached the limit, or 1 if that is 0. -/
theorem limit_le_succ_iff {limit count : UInt32} (hlt : count.toNat < max 1 limit.toNat) :
    limit ≤ count + 1 ↔ max 1 limit.toNat ≤ count.toNat + 1 := by
  have hsmall : max 1 limit.toNat < 4294967296 := by
    have := limit.toNat_lt
    omega
  rw [UInt32.le_iff_toNat_le, toNat_succ hlt hsmall]
  omega

theorem Waited.spin (h : Waited config n b) (hn : n < config.spins) :
    Waited config (n + 1) b.wait := by
  have hphase : b.phase = .spinning := h.phase_eq.trans (Config.phaseAfter_eq_spinning hn)
  have hspins : b.spins.toNat = n := h.spins_eq.trans (Nat.min_eq_left (Nat.le_of_lt hn))
  have hsucc : (b.spins + 1).toNat = n + 1 := by
    rw [toNat_succ (hspins ▸ hn) config.spins_lt, hspins]
  have hlast : b.config.maxSpins ≤ b.spins + 1 ↔ config.spins ≤ n + 1 := by
    rw [h.config_eq, limit_le_succ_iff (hspins ▸ hn), hspins]
    rfl
  have hyields := config.yields_pos
  simp only [wait, hphase]
  refine ⟨h.config_eq, ?_, ?_, ?_, ?_⟩
  · by_cases hend : config.spins ≤ n + 1
    · exact (if_pos (hlast.2 hend)).trans (Config.phaseAfter_eq_yielding hend (by omega)).symm
    · exact (if_neg (mt hlast.1 hend)).trans (Config.phaseAfter_eq_spinning (by omega)).symm
  · rw [hsucc]
    omega
  · rw [h.yields_eq]
    omega
  · rw [h.park_eq, Nat.sub_eq_zero_of_le (Nat.le_of_lt hn), Nat.sub_eq_zero_of_le hn]

theorem Waited.yield (h : Waited config n b) (hn : config.spins ≤ n)
    (hlt : n < config.spins + config.yields) : Waited config (n + 1) b.wait := by
  have hphase : b.phase = .yielding := h.phase_eq.trans (Config.phaseAfter_eq_yielding hn hlt)
  have hroom : n - config.spins < config.yields := by omega
  have hyields : b.yields.toNat = n - config.spins :=
    h.yields_eq.trans (Nat.min_eq_left (Nat.le_of_lt hroom))
  have hsucc : (b.yields + 1).toNat = n - config.spins + 1 := by
    rw [toNat_succ (hyields ▸ hroom) config.yields_lt, hyields]
  have hlast : b.config.maxYields ≤ b.yields + 1 ↔ config.yields ≤ n - config.spins + 1 := by
    rw [h.config_eq, limit_le_succ_iff (hyields ▸ hroom), hyields]
    rfl
  have hparks : n - config.spins - config.yields = n + 1 - config.spins - config.yields := by
    omega
  simp only [wait, hphase]
  refine ⟨h.config_eq, ?_, ?_, ?_, ?_⟩
  · by_cases hend : config.yields ≤ n - config.spins + 1
    · exact (if_pos (hlast.2 hend)).trans (Config.phaseAfter_eq_parking (by omega)).symm
    · exact (if_neg (mt hlast.1 hend)).trans
        (Config.phaseAfter_eq_yielding (by omega) (by omega)).symm
  · rw [h.spins_eq]
    omega
  · rw [hsucc]
    omega
  · rw [h.park_eq, hparks]

theorem Waited.park (h : Waited config n b) (hn : config.spins + config.yields ≤ n) :
    Waited config (n + 1) b.wait := by
  have hphase : b.phase = .parking := h.phase_eq.trans (Config.phaseAfter_eq_parking hn)
  have hparks : n + 1 - config.spins - config.yields = n - config.spins - config.yields + 1 := by
    omega
  simp only [wait, hphase]
  refine ⟨h.config_eq, (Config.phaseAfter_eq_parking (Nat.le_succ_of_le hn)).symm, ?_, ?_, ?_⟩
  · rw [h.spins_eq]
    omega
  · rw [h.yields_eq]
    omega
  · show (nextPark b.park b.config.maxPark).total = _
    rw [total_nextPark _ _ (Duration.total_le_longest _), h.park_eq, h.config_eq, hparks,
      Config.parkAfter_succ]

/-- Each wait leads from one number to the next, in whatever phase. -/
theorem Waited.wait (h : Waited config n b) : Waited config (n + 1) b.wait := by
  by_cases hspin : n < config.spins
  · exact h.spin hspin
  by_cases hyield : n < config.spins + config.yields
  · exact h.yield (Nat.le_of_not_lt hspin) hyield
  · exact h.park (Nat.le_of_not_lt hyield)

/-- The number says it all. -/
theorem Waited.unique (h : Waited config n b) (h' : Waited config n b') : b = b' := by
  obtain ⟨config₁, phase, spins, yields, park⟩ := b
  obtain ⟨config₂, phase', spins', yields', park'⟩ := b'
  obtain rfl : config₁ = config₂ := h.config_eq.trans h'.config_eq.symm
  obtain rfl : phase = phase' := h.phase_eq.trans h'.phase_eq.symm
  obtain rfl : spins = spins' := UInt32.toNat_inj.1 (h.spins_eq.trans h'.spins_eq.symm)
  obtain rfl : yields = yields' := UInt32.toNat_inj.1 (h.yields_eq.trans h'.yields_eq.symm)
  obtain rfl : park = park' := Duration.ext_total (h.park_eq.trans h'.park_eq.symm)
  rfl

/-- A count that is still going on is below its limit, so it can be raised. -/
theorem Waited.counts_lt (h : Waited config n b) :
    (b.phase = .spinning → b.spins.toNat + 1 < 4294967296) ∧
      (b.phase = .yielding → b.yields.toNat + 1 < 4294967296) := by
  have hspins := h.spins_eq
  have hyields := h.yields_eq
  have hspins_lt := config.spins_lt
  have hyields_lt := config.yields_lt
  rw [h.phase_eq]
  by_cases hspin : n < config.spins
  · rw [Config.phaseAfter_eq_spinning hspin]
    exact ⟨fun _ => by omega, nofun⟩
  by_cases hyield : n < config.spins + config.yields
  · rw [Config.phaseAfter_eq_yielding (Nat.le_of_not_lt hspin) hyield]
    exact ⟨nofun, fun _ => by omega⟩
  · rw [Config.phaseAfter_eq_parking (Nat.le_of_not_lt hyield)]
    exact ⟨nofun, nofun⟩

/-- The next park is twice as long, up to the cap, and never shorter. -/
theorem Waited.next (h : Waited config n b) :
    (nextPark b.park b.config.maxPark).total = min (b.park.total * 2) config.maxPark.total ∧
      b.park.total ≤ (nextPark b.park b.config.maxPark).total := by
  have hcap : b.park.total ≤ config.maxPark.total := by
    rw [h.park_eq]
    exact Nat.min_le_right _ _
  rw [total_nextPark _ _ (Duration.total_le_longest _), h.config_eq]
  omega

/-! ## Histories -/

theorem idles_concat (calls : List Call) (call : Call) :
    idles (calls ++ [call]) = if call = .idle 0 then idles calls + 1 else 0 := by
  unfold idles
  rw [List.reverse_append, List.reverse_singleton, List.singleton_append, List.takeWhile_cons]
  by_cases h : call = .idle 0
  · rw [if_pos h, if_pos (beq_iff_eq.2 h), List.length_cons]
  · rw [if_neg h, if_neg (mt beq_iff_eq.1 h), List.length_nil]

/-- A call leads from the number of the calls before it to that of the calls with it. -/
theorem Waited.serve {calls : List Call} (hpark : config.minPark.total ≤ config.maxPark.total)
    (h : Waited config (idles calls) b) (call : Call) :
    Waited config (idles (calls ++ [call])) (b.serve call) := by
  rw [idles_concat]
  have hreset : Waited config 0 b.reset := by
    rw [reset, h.config_eq]
    exact waited_ofConfig hpark
  cases call with
  | reset => exact hreset
  | idle work =>
    cases work with
    | zero => exact h.wait
    | succ work => exact hreset

theorem waited_after (hpark : config.minPark.total ≤ config.maxPark.total)
    (calls : List Call) : Waited config (idles calls) ((ofConfig config).after calls) := by
  induction calls using List.reverseRecOn with
  | nil => exact waited_ofConfig hpark
  | append_singleton calls call ih =>
    rw [after, List.foldl_append]
    exact ih.serve hpark call

/-- The state of a back-off after any calls, by the number `n` of idle calls since it started
over: it spins until the limit of spins, which counts as at least 1, then yields until the limit
of yields, and then parks, twice as long each time, up to the cap, in seconds and nanoseconds
below one second. Nothing else of the calls matters. No count leaves its 32 bits, and no doubling
makes a park shorter. -/
theorem after_calls (maxSpins maxYields : UInt32) (minPark maxPark : Duration)
    (calls : List Call) :
    let config := Config.ofLimits maxSpins maxYields minPark maxPark
    let b := (ofConfig config).after calls
    let n := idles calls
    let S := max 1 maxSpins.toNat
    let Y := max 1 maxYields.toNat
    let M := max maxPark.total minPark.total
    (n < S → b.phase = .spinning ∧ b.spins.toNat = n ∧ b.yields.toNat = 0 ∧ b.park = minPark) ∧
    (S ≤ n → n < S + Y →
      b.phase = .yielding ∧ b.spins.toNat = S ∧ b.yields.toNat = n - S ∧ b.park = minPark) ∧
    (S + Y ≤ n →
      b.phase = .parking ∧ b.spins.toNat = S ∧ b.yields.toNat = Y ∧
        b.park.seconds = min (minPark.total * 2 ^ (n - S - Y)) M / nanosPerSecond ∧
        b.park.nanos = min (minPark.total * 2 ^ (n - S - Y)) M % nanosPerSecond) ∧
    (∀ calls', idles calls' = n → (ofConfig config).after calls' = b) ∧
    (b.phase = .spinning → b.spins.toNat + 1 < 2 ^ 32) ∧
    (b.phase = .yielding → b.yields.toNat + 1 < 2 ^ 32) ∧
    (nextPark b.park b.config.maxPark).total = min (b.park.total * 2) M ∧
    b.park.total ≤ (nextPark b.park b.config.maxPark).total := by
  intro config b n S Y M
  have hmin : config.minPark = minPark := rfl
  have hmax : config.maxPark.total = M := (Duration.total_longer ..).trans (Nat.max_comm ..)
  have hS : config.spins = S := rfl
  have hY : config.yields = Y := rfl
  have hpark : config.minPark.total ≤ config.maxPark.total := by
    rw [hmin, hmax]
    exact Nat.le_max_right _ _
  have hb : Waited config n b := waited_after hpark calls
  have hlength (hn : n ≤ S + Y) : b.park = minPark := by
    refine Duration.ext_total (hb.park_eq.trans ?_)
    rw [hS, hY, Nat.sub_sub, Nat.sub_eq_zero_of_le hn, config.parkAfter_zero hpark, hmin]
  refine ⟨fun hn => ⟨?_, ?_, ?_, hlength (by omega)⟩,
    fun hn hlt => ⟨?_, ?_, ?_, hlength (by omega)⟩, fun hn => ⟨?_, ?_, ?_, ?_⟩,
    fun calls' hcalls => ?_, hb.counts_lt.1, hb.counts_lt.2, ?_⟩
  · exact hb.phase_eq.trans (Config.phaseAfter_eq_spinning (hS ▸ hn))
  · rw [hb.spins_eq, hS, Nat.min_eq_left (Nat.le_of_lt hn)]
  · rw [hb.yields_eq, hS, Nat.sub_eq_zero_of_le (Nat.le_of_lt hn), Nat.zero_min]
  · exact hb.phase_eq.trans (Config.phaseAfter_eq_yielding (hS ▸ hn) (hS ▸ hY ▸ hlt))
  · rw [hb.spins_eq, hS, Nat.min_eq_right hn]
  · rw [hb.yields_eq, hS, hY, Nat.min_eq_left (by omega)]
  · exact hb.phase_eq.trans (Config.phaseAfter_eq_parking (hS ▸ hY ▸ hn))
  · rw [hb.spins_eq, hS, Nat.min_eq_right (by omega)]
  · rw [hb.yields_eq, hS, hY, Nat.min_eq_right (by omega)]
  · have htotal : b.park.total = min (minPark.total * 2 ^ (n - S - Y)) M := by
      rw [hb.park_eq, hS, hY, Config.parkAfter, hmin, hmax]
    rw [← htotal]
    exact b.park.parts_eq
  · have hb' : Waited config n ((ofConfig config).after calls') :=
      hcalls ▸ waited_after hpark calls'
    exact hb'.unique hb
  · rw [← hmax]
    exact hb.next

end Backoff

end RingTransport

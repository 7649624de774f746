import EvalynOS.Lib.Polling

/-! Sleeping with the power management timer (acpi/acpi_timer.c). -/
namespace EvalynOS.AcpiTimer
open Lib

def acpiTimerFrequency : Nat := 3579545

/- What can be read at each tick. -/
structure Machine where
  mmioRead32 : Nat → BitVec 64 → BitVec 32
  inl : Nat → BitVec 16 → BitVec 32

def ticksNeeded (ms : Nat) : BitVec 64 := BitVec.ofNat 64 (acpiTimerFrequency * ms % 2 ^ 64 / 1000)

/- The variables of the loop. -/
structure Sleep where
  elapsed : BitVec 64
  last : BitVec 32

section Sleep

variable (read : Nat → BitVec 32) (ms : Nat) (instant : Nat → Nat)

def sleepStart : Sleep := ⟨0, read (instant 0) &&& 0xFFFFFF#32⟩

def sleepStep (k : Nat) (s : Sleep) : Sleep :=
  let current := read (instant k) &&& 0xFFFFFF#32
  ⟨s.elapsed + (current - s.last).setWidth 64, current⟩

/- The state after the reading `k`. -/
def sleepAfter (k : Nat) : Sleep := afterReads (sleepStep read instant) (sleepStart read instant) k

/- The two functions differ in how they read. `some none`: they return without a reading. -/
def blockingSleepMs (address : BitVec 64) (fuel : Nat) : Option (Option (Nat × Sleep)) :=
  if address = 0 then some none
  else (poll (fun s => s.elapsed < ticksNeeded ms) (sleepStep read instant) fuel 0 (sleepStart read instant)).map some

end Sleep

def acpiTimerMmioBlockingSleepMs (m : Machine) (address : BitVec 64) (ms : Nat) (instant : Nat → Nat) (fuel : Nat) :
    Option (Option (Nat × Sleep)) :=
  blockingSleepMs (fun tick => m.mmioRead32 tick address) ms instant address fuel

def acpiTimerPortIoBlockingSleepMs (m : Machine) (address : BitVec 64) (ms : Nat) (instant : Nat → Nat) (fuel : Nat) :
    Option (Option (Nat × Sleep)) :=
  blockingSleepMs (fun tick => m.inl tick (address.setWidth 16)) ms instant address fuel

/- A counter of 24 bits; the bits above it may be anything. -/
def FreeRunning (read : Nat → BitVec 32) (start : Nat) : Prop :=
  ∀ tick, (read tick).toNat % 2 ^ 24 = (start + tick) % 2 ^ 24

/- What elapsed is counted exactly at each reading, and the loop does not end too early. -/
def NeverShort (read : Nat → BitVec 32) (ms : Nat) (instant : Nat → Nat)
    (sleep : Nat → Option (Option (Nat × Sleep))) : Prop :=
  (∀ k, (∀ j < k, (sleepAfter read instant j).elapsed < ticksNeeded ms) →
    (sleepAfter read instant k).elapsed.toNat = instant k - instant 0) ∧
  ∀ fuel k s, sleep fuel = some (some (k, s)) → acpiTimerFrequency * ms / 1000 ≤ instant k - instant 0

/- The counter does not begin anew between a reading that comes too early and the next one. -/
def NoWrap (start ms : Nat) (instant : Nat → Nat) : Prop :=
  ∀ k, instant k - instant 0 < acpiTimerFrequency * ms / 1000 →
    (start + instant k) / 2 ^ 24 = (start + instant (k + 1)) / 2 ^ 24

section Loop

variable {read : Nat → BitVec 32} {start ms k : Nat} {instant : Nat → Nat} {address : BitVec 64}

theorem masked (running : FreeRunning read start) (tick : Nat) :
    (read tick &&& 0xFFFFFF#32).toNat = (start + tick) % 2 ^ 24 := by
  rw [BitVec.toNat_and, ← running tick]
  exact Nat.and_two_pow_sub_one_eq_mod _ 24

theorem ticksNeeded_toNat (small : acpiTimerFrequency * ms < 2 ^ 64) :
    (ticksNeeded ms).toNat = acpiTimerFrequency * ms / 1000 := by
  rw [ticksNeeded, BitVec.toNat_ofNat, Nat.mod_eq_of_lt small, Nat.mod_eq_of_lt (by omega)]

theorem sleepAfter_last (k : Nat) : (sleepAfter read instant k).last = read (instant k) &&& 0xFFFFFF#32 := by
  cases k with
  | zero => rfl
  | succ k => rfl

/-- The difference is taken in 32 bits, so a counter that began anew counts too much. -/
theorem sleepAfter_succ (running : FreeRunning read start) (order : instant k ≤ instant (k + 1))
    (soon : instant (k + 1) < instant k + 2 ^ 24) :
    (sleepAfter read instant (k + 1)).elapsed.toNat = ((sleepAfter read instant k).elapsed.toNat +
      (if (start + instant k) / 2 ^ 24 = (start + instant (k + 1)) / 2 ^ 24 then instant (k + 1) - instant k
        else instant (k + 1) - instant k + (2 ^ 32 - 2 ^ 24))) % 2 ^ 64 := by
  have last := masked running (instant k)
  have current := masked running (instant (k + 1))
  have step : (sleepAfter read instant (k + 1)).elapsed = (sleepAfter read instant k).elapsed +
      ((read (instant (k + 1)) &&& 0xFFFFFF#32) - (read (instant k) &&& 0xFFFFFF#32)).setWidth 64 := by
    rw [← @sleepAfter_last read instant k]
    rfl
  rw [step, BitVec.toNat_add, BitVec.toNat_setWidth, BitVec.toNat_sub, last, current]
  congr 2
  split
  · omega
  · omega

/-- Where the counter begins anew after a reading that was counted exactly, the next one is not. -/
theorem exact_next (running : FreeRunning read start) (order : instant k ≤ instant (k + 1))
    (soon : instant (k + 1) < instant k + 2 ^ 24) (before : instant 0 ≤ instant k)
    (room : instant k - instant 0 + 2 ^ 33 ≤ 2 ^ 64)
    (exact_ : (sleepAfter read instant k).elapsed.toNat = instant k - instant 0) :
    (sleepAfter read instant (k + 1)).elapsed.toNat = instant (k + 1) - instant 0 ↔
      (start + instant k) / 2 ^ 24 = (start + instant (k + 1)) / 2 ^ 24 := by
  rw [sleepAfter_succ running order soon, exact_]
  split
  · rename_i same
    rw [Nat.mod_eq_of_lt (by omega)]
    exact ⟨fun _ => same, fun _ => by omega⟩
  · rename_i anew
    rw [Nat.mod_eq_of_lt (by omega)]
    exact ⟨fun exact_ => by omega, fun same => absurd same anew⟩

/-- One variant: it never sleeps too short where the counter does not begin anew between two readings. -/
theorem neverShort_iff (running : FreeRunning read start) (small : acpiTimerFrequency * ms < 2 ^ 64)
    (mapped : address ≠ 0) (order : ∀ k, instant k ≤ instant (k + 1)) (soon : ∀ k, instant (k + 1) < instant k + 2 ^ 24) :
    NeverShort read ms instant (blockingSleepMs read ms instant address) ↔ NoWrap start ms instant := by
  have needed := ticksNeeded_toNat small
  have increasing : ∀ k, instant 0 ≤ instant k := fun k => monotone_nat_of_le_succ order (Nat.zero_le k)
  constructor
  · rintro ⟨counted, _⟩ k early
    -- all readings up to this one come too early, so the loop makes the next one
    have reached : ∀ n ≤ k + 1, ∀ j < n, (sleepAfter read instant j).elapsed < ticksNeeded ms := by
      intro n
      induction n with
      | zero => exact fun _ j before => absurd before (Nat.not_lt_zero j)
      | succ n ih =>
        intro inside j before
        rcases Nat.lt_succ_iff_lt_or_eq.mp before with earlier | rfl
        · exact ih (by omega) j earlier
        · have sooner : instant j ≤ instant k := monotone_nat_of_le_succ order (by omega)
          rw [BitVec.lt_def, counted j (ih (by omega)), needed]
          omega
    exact (exact_next running (order k) (soon k) (increasing k) (by omega) (counted k (reached k (Nat.le_succ k)))).mp
      (counted (k + 1) (reached (k + 1) (Nat.le_refl _)))
  · intro noWrap
    have counted : ∀ k, Polled (fun s => decide (s.elapsed < ticksNeeded ms)) (sleepStep read instant)
        (sleepStart read instant) k → (sleepAfter read instant k).elapsed.toNat = instant k - instant 0 := by
      intro k
      induction k with
      | zero => exact fun _ => (Nat.sub_self _).symm
      | succ k ih =>
        intro polled
        have exact_ := ih (fun j before => polled j (Nat.lt_succ_of_lt before))
        have busy : (sleepAfter read instant k).elapsed < ticksNeeded ms := of_decide_eq_true (polled k (Nat.lt_succ_self k))
        rw [BitVec.lt_def, exact_, needed] at busy
        exact (exact_next running (order k) (soon k) (increasing k) (by omega) exact_).mpr (noWrap k busy)
    refine ⟨fun k busy => counted k (fun j before => decide_eq_true (busy j before)), fun fuel k s ended => ?_⟩
    rw [blockingSleepMs, if_neg mapped, Option.map_eq_some_iff] at ended
    obtain ⟨_, ended, same⟩ := ended
    cases same
    obtain ⟨_, polled, done, rfl⟩ := poll_eq_some.mp ended
    have late := of_decide_eq_false done
    rw [BitVec.not_lt, BitVec.le_def, needed] at late
    have exact_ := counted k polled
    unfold sleepAfter at exact_
    omega

end Loop

/-- In both variants, exactly the sleeps in which the counter does not begin anew between two
readings are counted exactly. -/
theorem acpi_sleep_never_short_iff (m : Machine) (address : BitVec 64) (start ms : Nat) (instant : Nat → Nat)
    (small : acpiTimerFrequency * ms < 2 ^ 64) (mapped : address ≠ 0) (order : ∀ k, instant k ≤ instant (k + 1))
    (soon : ∀ k, instant (k + 1) < instant k + 2 ^ 24) :
    (FreeRunning (fun tick => m.mmioRead32 tick address) start →
      (NeverShort (fun tick => m.mmioRead32 tick address) ms instant (acpiTimerMmioBlockingSleepMs m address ms instant) ↔
        NoWrap start ms instant)) ∧
    (FreeRunning (fun tick => m.inl tick (address.setWidth 16)) start →
      (NeverShort (fun tick => m.inl tick (address.setWidth 16)) ms instant
        (acpiTimerPortIoBlockingSleepMs m address ms instant) ↔ NoWrap start ms instant)) :=
  ⟨fun running => neverShort_iff running small mapped order soon,
    fun running => neverShort_iff running small mapped order soon⟩

theorem freeRunning_ofNat (start : Nat) : FreeRunning (fun tick => BitVec.ofNat 32 (start + tick)) start := by
  intro tick
  rw [BitVec.toNat_ofNat]
  exact Nat.mod_mod_of_dvd _ (by decide)

/-- One millisecond from a counter at zero. -/
theorem acpi_sleep_never_short_iff_zero :
    let m : Machine := ⟨fun tick _ => BitVec.ofNat 32 (0 + tick), fun tick _ => BitVec.ofNat 32 (0 + tick)⟩
    NeverShort (fun tick => m.mmioRead32 tick 0x408) 1 (fun k => 1000 * k)
        (acpiTimerMmioBlockingSleepMs m 0x408 1 (fun k => 1000 * k)) ∧
      NeverShort (fun tick => m.inl tick ((0x408 : BitVec 64).setWidth 16)) 1 (fun k => 1000 * k)
        (acpiTimerPortIoBlockingSleepMs m 0x408 1 (fun k => 1000 * k)) := by
  intro m
  have noWrap : NoWrap 0 1 (fun k => 1000 * k) := by
    intro k early
    have needed : acpiTimerFrequency * 1 / 1000 = 3579 := rfl
    rw [needed] at early
    simp only at early ⊢
    rw [Nat.div_eq_of_lt (by omega), Nat.div_eq_of_lt (by omega)]
  have sleeps := acpi_sleep_never_short_iff m 0x408 0 1 (fun k => 1000 * k) (by decide) (by decide) (fun k => by omega)
    (fun k => by omega)
  exact ⟨(sleeps.1 (freeRunning_ofNat 0)).mpr noWrap, (sleeps.2 (freeRunning_ofNat 0)).mpr noWrap⟩

/-- From a counter that is about to begin anew, a sleep of 50 ms takes one tick for 4278190081. -/
theorem sleep_across_wrap : ¬ ∀ (m : Machine) (address : BitVec 64) (start ms : Nat) (instant : Nat → Nat),
    acpiTimerFrequency * ms < 2 ^ 64 → address ≠ 0 → (∀ k, instant k ≤ instant (k + 1)) →
    (∀ k, instant (k + 1) < instant k + 2 ^ 24) → FreeRunning (fun tick => m.mmioRead32 tick address) start →
    NeverShort (fun tick => m.mmioRead32 tick address) ms instant (acpiTimerMmioBlockingSleepMs m address ms instant) := by
  intro never
  let m : Machine := ⟨fun tick _ => BitVec.ofNat 32 (2 ^ 24 - 1 + tick), fun tick _ => BitVec.ofNat 32 (2 ^ 24 - 1 + tick)⟩
  have short := never m 0x408 (2 ^ 24 - 1) 50 id (by decide) (by decide) (fun k => Nat.le_succ k)
    (fun k => by simp only [id]; omega) (freeRunning_ofNat _)
  have busy : (0 : BitVec 64) < ticksNeeded 50 := by decide
  have counted := short.1 1 (fun j before => by
    cases Nat.lt_one_iff.mp before
    exact busy)
  have wrong : (sleepAfter (fun tick => m.mmioRead32 tick 0x408) id 1).elapsed.toNat = 4278190081 := by decide
  rw [wrong] at counted
  cases counted

end EvalynOS.AcpiTimer

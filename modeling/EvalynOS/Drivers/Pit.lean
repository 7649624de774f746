import EvalynOS.Lib.Polling

/-! Sleeping with the programmable interval timer (drivers/x86_64/timers/pit.c). -/
namespace EvalynOS.PitTimer
open Lib

/- Channel 0 of the timer, in mode 2. `low` is the first byte of a value that is being written,
`latch` the count that is being read, and `second` says that its low byte was read. -/
structure Pit where
  reload : Nat
  loaded : Nat
  low : Option Nat
  latch : Option Nat
  second : Bool

/- The channel counts from its reload value down to one. -/
def Pit.count (p : Pit) (tick : Nat) : Nat := p.reload - (tick - p.loaded) % p.reload

def Pit.outb (p : Pit) (tick port value : Nat) : Pit :=
  if port = 0x43 then
    if value = 0 then { p with latch := some (p.count tick), second := false }
    else { p with low := none, latch := none, second := false }
  else if port = 0x40 then
    match p.low with
    | none => { p with low := some value }
    | some low =>
      let written := value * 256 + low
      { p with low := none, reload := if written = 0 then 0x10000 else written, loaded := tick }
  else p

def Pit.inb (p : Pit) (tick : Nat) : Nat × Pit :=
  let count := p.latch.getD (p.count tick)
  if p.second then (count / 256 % 256, { p with latch := none, second := false })
  else (count % 256, { p with second := true })

/- The count is latched at `tick`. -/
def readPitCount (tick : Nat) (p : Pit) : BitVec 16 × Pit :=
  let p := p.outb tick 0x43 0
  let (low, p) := p.inb tick
  let (high, p) := p.inb tick
  (BitVec.ofNat 16 low ||| BitVec.ofNat 16 high <<< 8, p)

def pitFrequency : Nat := 1193182

def wantedTicks (ms : Nat) : BitVec 32 := BitVec.ofNat 32 ((ms * pitFrequency + 999) % 2 ^ 64 / 1000)

def divisorFor (wanted : BitVec 32) : BitVec 32 :=
  let divisor := if wanted > 0xFFFF#32 then 0xFFFF#32 else wanted
  if divisor < 100#32 then 100#32 else divisor

/- The variables of pit_sleep_ms. -/
structure Sleep where
  pit : Pit
  elapsed : BitVec 32
  prev : BitVec 16

def programPit (divisor : BitVec 32) (tick : Nat) (p : Pit) : Pit :=
  let p := p.outb tick 0x43 0x34
  let p := p.outb tick 0x40 (divisor &&& 0xFF#32).toNat
  p.outb tick 0x40 (divisor >>> 8 &&& 0xFF#32).toNat

def sleepStart (ms programmed first : Nat) (p : Pit) : Sleep :=
  let (prev, p) := readPitCount first (programPit (divisorFor (wantedTicks ms)) programmed p)
  ⟨p, 0, prev⟩

def sleepStep (divisor : BitVec 32) (tick : Nat) (s : Sleep) : Sleep :=
  let (current, p) := readPitCount tick s.pit
  let elapsed :=
    if current > s.prev then s.elapsed + (s.prev.setWidth 32 + (divisor - current.setWidth 32))
    else s.elapsed + (s.prev.setWidth 32 - current.setWidth 32)
  ⟨p, elapsed, current⟩

/- The timer is programmed at one tick, and read at others. -/
def pitSleepMs (ms programmed : Nat) (instant : Nat → Nat) (p : Pit) (fuel : Nat) : Option (Nat × Sleep) :=
  poll (fun s => s.elapsed < wantedTicks ms) (fun k => sleepStep (divisorFor (wantedTicks ms)) (instant k)) fuel 0
    (sleepStart ms programmed (instant 0) p)

section Reading

variable {p : Pit} {tick divisor value : Nat}

theorem bytes_or (small : value < 0x10000) :
    BitVec.ofNat 16 (value % 256) ||| BitVec.ofNat 16 (value / 256 % 256) <<< 8 = BitVec.ofNat 16 value := by
  apply BitVec.eq_of_toNat_eq
  have high : (value / 256 % 256) <<< 8 % 2 ^ 16 = 2 ^ 8 * (value / 256) := by
    rw [Nat.shiftLeft_eq]
    omega
  have split : 2 ^ 8 * (value / 256) ||| value % 256 = 2 ^ 8 * (value / 256) + value % 256 :=
    (Nat.two_pow_add_eq_or_of_lt (Nat.mod_lt _ (by decide)) _).symm
  rw [BitVec.toNat_or, BitVec.toNat_shiftLeft, BitVec.toNat_ofNat, BitVec.toNat_ofNat, BitVec.toNat_ofNat,
    Nat.mod_eq_of_lt (by omega), Nat.mod_eq_of_lt (by omega : value / 256 % 256 < 2 ^ 16), high, Nat.or_comm, split]
  omega

/- The timer is counting, and no access to it has been left half done. -/
structure Counting (p : Pit) (divisor loaded : Nat) : Prop where
  reload : p.reload = divisor
  since : p.loaded = loaded
  written : p.low = none
  idle : p.latch = none
  first : p.second = false

theorem readPitCount_eq (counting : Counting p divisor value) :
    readPitCount tick p = (BitVec.ofNat 16 (p.count tick % 256) ||| BitVec.ofNat 16 (p.count tick / 256 % 256) <<< 8, p) := by
  obtain ⟨reload, loaded, low, latch, second⟩ := p
  obtain ⟨_, _, _, idle, first⟩ := counting
  simp only at idle first
  subst idle first
  rfl

theorem count_bounds (positive : 0 < p.reload) : 1 ≤ p.count tick ∧ p.count tick ≤ p.reload := by
  have inside := Nat.mod_lt (tick - p.loaded) positive
  unfold Pit.count
  omega

/-- A read is the count at its tick, and leaves the timer as it was. -/
theorem read_counting (counting : Counting p divisor value) (positive : 0 < divisor) (small : divisor < 0x10000) :
    readPitCount tick p = (BitVec.ofNat 16 (p.count tick), p) ∧ 1 ≤ p.count tick ∧ p.count tick ≤ divisor := by
  have bounds := @count_bounds p tick (by rw [counting.reload]; exact positive)
  rw [counting.reload] at bounds
  rw [readPitCount_eq counting, bytes_or (by omega)]
  exact ⟨rfl, bounds⟩

/-- The two bytes of the divisor are put together again. -/
theorem programPit_counting (p : Pit) (divisor : BitVec 32) (positive : 0 < divisor.toNat) (small : divisor.toNat < 0x10000)
    (tick : Nat) : Counting (programPit divisor tick p) divisor.toNat tick := by
  have low : (divisor &&& 0xFF#32).toNat = divisor.toNat % 256 := by
    rw [BitVec.toNat_and]
    exact Nat.and_two_pow_sub_one_eq_mod _ 8
  have high : (divisor >>> 8 &&& 0xFF#32).toNat = divisor.toNat / 256 := by
    rw [BitVec.toNat_and, BitVec.toNat_ushiftRight, Nat.shiftRight_eq_div_pow]
    refine (Nat.and_two_pow_sub_one_eq_mod _ 8).trans (Nat.mod_eq_of_lt ?_)
    omega
  have whole : divisor.toNat / 256 * 256 + divisor.toNat % 256 = divisor.toNat := by omega
  have nonzero : divisor.toNat ≠ 0 := by omega
  have written : (programPit divisor tick p).reload =
      if (divisor >>> 8 &&& 0xFF#32).toNat * 256 + (divisor &&& 0xFF#32).toNat = 0 then 0x10000
      else (divisor >>> 8 &&& 0xFF#32).toNat * 256 + (divisor &&& 0xFF#32).toNat := rfl
  rw [low, high, whole, if_neg nonzero] at written
  exact ⟨written, rfl, rfl, rfl, rfl⟩

/-- Between two reads that are less than a period apart, the counts tell the ticks that passed. -/
theorem count_difference {t u : Nat} (positive : 0 < p.reload) (since : p.loaded ≤ t) (order : t ≤ u)
    (soon : u < t + p.reload) :
    if p.count t < p.count u then u - t = p.count t + (p.reload - p.count u)
    else u - t = p.count t - p.count u := by
  obtain ⟨base, rfl⟩ := Nat.exists_eq_add_of_le since
  obtain ⟨gap, rfl⟩ := Nat.exists_eq_add_of_le order
  have inside := Nat.mod_lt base positive
  have split := Nat.div_add_mod base p.reload
  have first : p.loaded + base - p.loaded = base := by omega
  have second : p.loaded + base + gap - p.loaded = base + gap := by omega
  have passed : (base + gap) % p.reload =
      if base % p.reload + gap < p.reload then base % p.reload + gap else base % p.reload + gap - p.reload := by
    rw [Nat.add_mod, Nat.mod_eq_of_lt (by omega : gap < p.reload)]
    split
    · exact Nat.mod_eq_of_lt (by assumption)
    · rw [Nat.mod_eq_sub_mod (by omega), Nat.mod_eq_of_lt (by omega)]
  unfold Pit.count
  rw [first, second, passed]
  split <;> split <;> omega

end Reading

/-! The loop. -/

section Loop

variable {ms programmed k : Nat} {instant : Nat → Nat} {p : Pit} {s : Sleep}

theorem wantedTicks_toNat (small : (ms * pitFrequency + 999) / 1000 < 2 ^ 32) :
    (wantedTicks ms).toNat = (ms * pitFrequency + 999) / 1000 := by
  rw [wantedTicks, BitVec.toNat_ofNat, Nat.mod_eq_of_lt (by omega : ms * pitFrequency + 999 < 2 ^ 64), Nat.mod_eq_of_lt small]

theorem divisorFor_bounds (wanted : BitVec 32) : 100 ≤ (divisorFor wanted).toNat ∧ (divisorFor wanted).toNat < 0x10000 := by
  have most : (if wanted > 0xFFFF#32 then 0xFFFF#32 else wanted).toNat ≤ 0xFFFF := by
    split
    · decide
    · rename_i small
      rwa [gt_iff_lt, BitVec.not_lt] at small
  simp only [divisorFor]
  generalize (if wanted > 0xFFFF#32 then 0xFFFF#32 else wanted) = divisor at most ⊢
  split
  · decide
  · rename_i large
    rw [BitVec.not_lt, BitVec.le_def] at large
    exact ⟨large, Nat.lt_succ_of_le most⟩

/- The timer is counting, and the variables are those of the last read. -/
structure Exact (divisor : BitVec 32) (programmed : Nat) (instant : Nat → Nat) (k : Nat) (s : Sleep) : Prop where
  counting : Counting s.pit divisor.toNat programmed
  prev : s.prev = BitVec.ofNat 16 (s.pit.count (instant k))
  elapsed : s.elapsed.toNat = instant k - instant 0

theorem Exact.step {divisor : BitVec 32} (counted : Exact divisor programmed instant k s)
    (positive : 0 < divisor.toNat) (small : divisor.toNat < 0x10000) (since : programmed ≤ instant 0)
    (before : instant 0 ≤ instant k) (order : instant k ≤ instant (k + 1))
    (soon : instant (k + 1) < instant k + divisor.toNat) (room : instant k - instant 0 < 2 ^ 32 - 2 ^ 16) :
    Exact divisor programmed instant (k + 1) (sleepStep divisor (instant (k + 1)) s) := by
  obtain ⟨counting, prev, elapsed⟩ := counted
  obtain ⟨_, prevLow, prevHigh⟩ := @read_counting s.pit (instant k) _ _ counting positive small
  obtain ⟨read, low, high⟩ := @read_counting s.pit (instant (k + 1)) _ _ counting positive small
  have passed := @count_difference s.pit (instant k) (instant (k + 1)) (by rw [counting.reload]; exact positive)
    (by rw [counting.since]; omega) order (by rw [counting.reload]; exact soon)
  rw [counting.reload] at passed
  have wasRead : s.prev.toNat = s.pit.count (instant k) := by
    rw [prev, BitVec.toNat_ofNat, Nat.mod_eq_of_lt (by omega)]
  have isRead : (BitVec.ofNat 16 (s.pit.count (instant (k + 1)))).toNat = s.pit.count (instant (k + 1)) := by
    rw [BitVec.toNat_ofNat, Nat.mod_eq_of_lt (by omega)]
  unfold sleepStep
  rw [read]
  refine ⟨counting, rfl, ?_⟩
  simp only [gt_iff_lt, BitVec.lt_def, isRead, wasRead]
  split
  · rename_i reloaded
    rw [if_pos reloaded] at passed
    simp only [BitVec.toNat_add, BitVec.toNat_sub, BitVec.toNat_setWidth, isRead, wasRead, elapsed]
    omega
  · rename_i onward
    rw [if_neg onward] at passed
    simp only [BitVec.toNat_add, BitVec.toNat_sub, BitVec.toNat_setWidth, isRead, wasRead, elapsed]
    omega

theorem exact_start (ms : Nat) (p : Pit) :
    Exact (divisorFor (wantedTicks ms)) programmed instant 0 (sleepStart ms programmed (instant 0) p) := by
  obtain ⟨low, small⟩ := divisorFor_bounds (wantedTicks ms)
  have counting := programPit_counting p (divisorFor (wantedTicks ms)) (by omega) small programmed
  obtain ⟨read, _⟩ := @read_counting _ (instant 0) _ _ counting (by omega) small
  unfold sleepStart
  rw [read]
  exact ⟨counting, rfl, (Nat.sub_self _).symm⟩

end Loop

/- The state of pit_sleep_ms after its reading `k`. -/
def sleepAfter (ms programmed : Nat) (instant : Nat → Nat) (p : Pit) (k : Nat) : Sleep :=
  afterReads (fun k => sleepStep (divisorFor (wantedTicks ms)) (instant k)) (sleepStart ms programmed (instant 0) p) k

/-- What has elapsed is counted exactly at each reading, so the loop ends at the first reading that
comes late enough. -/
theorem pit_sleep_exact (ms programmed : Nat) (instant : Nat → Nat) (p : Pit)
    (small : (ms * pitFrequency + 999) / 1000 < 2 ^ 32 - 2 ^ 16) (since : programmed ≤ instant 0)
    (order : ∀ k, instant k ≤ instant (k + 1))
    (soon : ∀ k, instant (k + 1) < instant k + (divisorFor (wantedTicks ms)).toNat) :
    (∀ k, (∀ j < k, (sleepAfter ms programmed instant p j).elapsed < wantedTicks ms) →
      (sleepAfter ms programmed instant p k).elapsed.toNat = instant k - instant 0) ∧
    ∀ fuel k s, pitSleepMs ms programmed instant p fuel = some (k, s) ↔
      k < fuel ∧ s = sleepAfter ms programmed instant p k ∧ (ms * pitFrequency + 999) / 1000 ≤ instant k - instant 0 ∧
      ∀ j < k, instant j - instant 0 < (ms * pitFrequency + 999) / 1000 := by
  have wanted := wantedTicks_toNat (by omega : (ms * pitFrequency + 999) / 1000 < 2 ^ 32)
  obtain ⟨low, high⟩ := divisorFor_bounds (wantedTicks ms)
  have increasing : ∀ k, instant 0 ≤ instant k := fun k => monotone_nat_of_le_succ order (Nat.zero_le k)
  have counted : ∀ k, Polled (fun s => decide (s.elapsed < wantedTicks ms))
      (fun k => sleepStep (divisorFor (wantedTicks ms)) (instant k)) (sleepStart ms programmed (instant 0) p) k →
      Exact (divisorFor (wantedTicks ms)) programmed instant k (sleepAfter ms programmed instant p k) := by
    intro k polled
    refine poll_invariant (exact_start ms p) (fun k s counted busy => ?_) polled
    rw [decide_eq_true_iff, BitVec.lt_def, counted.elapsed, wanted] at busy
    exact counted.step (by omega) high since (increasing k) (order k) (soon k) (by omega)
  have tells : ∀ k, Polled (fun s => decide (s.elapsed < wantedTicks ms))
      (fun k => sleepStep (divisorFor (wantedTicks ms)) (instant k)) (sleepStart ms programmed (instant 0) p) k →
      (decide ((sleepAfter ms programmed instant p k).elapsed < wantedTicks ms) = true ↔
        instant k - instant 0 < (ms * pitFrequency + 999) / 1000) := by
    intro k polled
    rw [decide_eq_true_iff, BitVec.lt_def, (counted k polled).elapsed, wanted]
  constructor
  · intro k busy
    exact (counted k (fun j before => decide_eq_true (busy j before))).elapsed
  · intro fuel k s
    rw [pitSleepMs, poll_eq_some]
    constructor
    · rintro ⟨enough, polled, done, rfl⟩
      have late := (not_congr (tells k polled)).mp (Bool.not_eq_true _ ▸ done)
      exact ⟨enough, rfl, Nat.le_of_not_lt late, (polled_iff tells).mp polled⟩
    · rintro ⟨enough, rfl, late, early⟩
      have polled := (polled_iff tells).mpr early
      have done := (not_congr (tells k polled)).mpr (Nat.not_lt_of_le late)
      exact ⟨enough, polled, (Bool.not_eq_true _).mp done, rfl⟩

/-- One millisecond, read every hundred ticks. -/
theorem pit_sleep_exact_one : pitSleepMs 1 0 (fun k => 100 * k) ⟨0x10000, 0, none, none, false⟩ 20 =
    some (12, sleepAfter 1 0 (fun k => 100 * k) ⟨0x10000, 0, none, none, false⟩ 12) := by
  have divisor : (divisorFor (wantedTicks 1)).toNat = 1194 := rfl
  have sleeps := pit_sleep_exact 1 0 (fun k => 100 * k) ⟨0x10000, 0, none, none, false⟩ (by decide) (Nat.le_refl 0)
    (fun k => by omega) (fun k => by rw [divisor]; omega)
  exact (sleeps.2 20 12 _).mpr ⟨by decide, rfl, by decide, by decide⟩

end EvalynOS.PitTimer

import ByteByteJump.Proofs.Audio.Buffer
import ByteByteJump.Proofs.Audio.CatchUp

/-! Playing at a whole ratio.

Where the rate of a device is the machine's times a power of two, or a whole part of it, a
step is a power of two of a sample or a whole number of samples. Then all phases are
multiples of one power of two, and none has more than 24 bits (`OnGrid`), so that nothing is
ever rounded. What a player has taken by an output is the whole part of the steps gone
(`getElem?_nextMany`), and the output is the last sample of these: each sample so many times
as it should be, or each so many samples apart. -/
namespace ByteByteJump.Audio

namespace Sample

/-- An amplitude scaled by 32768 is a signed byte in the upper half of 16 bits. -/
theorem toInt_of_scaled {s : Sample} {v : Int16} (h : (v.toInt : ℚ) = s.amplitude * 32768) :
    v.toInt = 256 * s.toInt := by
  have hscale : s.amplitude * 32768 = ((256 * s.toInt : ℤ) : ℚ) := by
    rw [amplitude]
    push_cast
    ring
  exact_mod_cast h.trans hscale

theorem toInt_signed16 (s : Sample) : (s.signed16.toInt : ℚ) = s.amplitude * 32768 := by
  have hlow := s.le_toInt
  have hhigh := s.toInt_lt
  have hfactor : (256 : Int16).toInt = 256 := rfl
  have hupper : s.signed16.toInt = 256 * s.toInt := by
    rw [signed16, Int16.toInt_mul, Int8.toInt_toInt16, hfactor, Int.mul_comm]
    exact Int.bmod_eq_of_le (by omega) (by omega)
  rw [hupper, amplitude]
  push_cast
  ring

end Sample

namespace Hold

/-- Phase and step are multiples of a power of two of which a sample and a step make no more
than single precision can count. -/
structure OnGrid (b : ℕ) (h : Hold) : Prop where
  steady : h.Steady
  le : b ≤ 42
  step : 2 ^ b ∣ h.step
  phase : 2 ^ b ∣ h.phase
  room : one + h.step ≤ 2 ^ (significantBits + b)

variable {b : ℕ} {h : Hold}

theorem dvd_one (hb : b ≤ 42) : 2 ^ b ∣ one := Nat.pow_dvd_pow 2 hb

/-- A step after the phase has less than a sample is exact. -/
theorem OnGrid.phase_advance (hh : h.OnGrid b) (hdone : h.phase < one) :
    h.advance.phase = h.phase + h.step := by
  apply round_of_single
  apply single_of_dvd (Nat.dvd_add hh.phase hh.step)
  have hroom := hh.room
  omega

theorem OnGrid.advance (hh : h.OnGrid b) (hdone : h.phase < one) : h.advance.OnGrid b where
  steady := hh.steady.advance hdone
  le := hh.le
  step := hh.step
  phase := by
    rw [hh.phase_advance hdone]
    exact Nat.dvd_add hh.phase hh.step
  room := hh.room

end Hold

namespace Player

variable {b rate : ℕ} {p : Player}

/-! ### One call -/

/-- What is held after so many takes. -/
def heardAfter (p : Player) : ℕ → Sample
  | 0 => p.hold.current
  | n + 1 => p.queue.samples[n]?.getD .silence

theorem current_iterate_take (p : Player) (n : ℕ) : (take^[n] p).hold.current = p.heardAfter n := by
  cases n with
  | zero => rfl
  | succ n =>
    have hcurrent : (take^[n] p).take.hold.current =
        (take^[n] p).queue.pop.1.getD .silence := rfl
    rw [Function.iterate_succ_apply', hcurrent, Queue.pop_fst, samples_iterate_take,
      List.head?_drop]
    rfl

theorem onGrid_caughtUp (hp : p.hold.OnGrid b) : p.caughtUp.hold.OnGrid b := by
  have hphase : p.caughtUp.hold.phase = p.hold.phase - p.hold.phase / Hold.one * Hold.one := by
    rw [caughtUp_eq_iterate hp.steady, phase_iterate_take hp.steady]
  refine ⟨steady_caughtUp hp.steady, hp.le, ?_, ?_, ?_⟩
  · rw [step_caughtUp hp.steady]
    exact hp.step
  · rw [hphase]
    exact Nat.dvd_sub hp.phase (Nat.dvd_mul_left_of_dvd (Hold.dvd_one hp.le) _)
  · rw [step_caughtUp hp.steady]
    exact hp.room

theorem onGrid_advanced (hp : p.hold.OnGrid b) : p.advanced.hold.OnGrid b :=
  (onGrid_caughtUp hp).advance (phase_caughtUp_lt hp.steady)

theorem phase_advanced (hp : p.hold.OnGrid b) :
    p.advanced.hold.phase = p.caughtUp.hold.phase + p.hold.step := by
  rw [advanced, (onGrid_caughtUp hp).phase_advance (phase_caughtUp_lt hp.steady),
    step_caughtUp hp.steady]

theorem output_eq (hp : p.hold.Steady) : p.output = p.heardAfter (p.hold.phase / Hold.one) := by
  rw [output, caughtUp_eq_iterate hp, current_iterate_take]

theorem samples_advanced (hp : p.hold.Steady) :
    p.advanced.queue.samples = p.queue.samples.drop (p.hold.phase / Hold.one) := by
  rw [advanced, caughtUp_eq_iterate hp, samples_iterate_take]

/-- What is held after takes of a later call was held after so many more. -/
theorem heardAfter_advanced (hp : p.hold.Steady) (n : ℕ) :
    p.advanced.heardAfter n = p.heardAfter (p.hold.phase / Hold.one + n) := by
  cases n with
  | zero => exact output_eq hp
  | succ n =>
    rw [heardAfter, samples_advanced hp, List.getElem?_drop, ← Nat.add_assoc]
    rfl

/-! ### Many calls -/

/-- The samples due by output `n`, counted from 0. -/
def dueBy (p : Player) (n : ℕ) : ℕ := (p.hold.phase + n * p.hold.step) / Hold.one

theorem dueBy_advanced (hp : p.hold.OnGrid b) (n : ℕ) :
    p.hold.phase / Hold.one + p.advanced.dueBy n = p.dueBy (n + 1) := by
  have hsplit : p.hold.phase + (n + 1) * p.hold.step =
      p.hold.phase % Hold.one + p.hold.step + n * p.hold.step +
        Hold.one * (p.hold.phase / Hold.one) := by
    have hdivision := Nat.div_add_mod p.hold.phase Hold.one
    rw [Nat.succ_mul]
    omega
  rw [dueBy, dueBy, phase_advanced hp, phase_caughtUp hp.steady, step_advanced hp.steady, hsplit,
    Nat.add_mul_div_left _ _ Hold.one_pos, Nat.add_comm]

/-- An output is the last of the samples due by then. -/
theorem getElem?_nextMany (hp : p.hold.OnGrid b) {n j : ℕ} (hj : j < n) :
    (nextMany n p).1[j]? = some (p.heardAfter (p.dueBy j)) := by
  induction n generalizing p j with
  | zero => exact absurd hj (Nat.not_lt_zero j)
  | succ n ih =>
    rw [nextMany_succ hp.steady]
    cases j with
    | zero =>
      have hdue : p.dueBy 0 = p.hold.phase / Hold.one := by
        rw [dueBy, Nat.zero_mul, Nat.add_zero]
      rw [List.getElem?_cons_zero, output_eq hp.steady, hdue]
    | succ j =>
      rw [List.getElem?_cons_succ, ih (onGrid_advanced hp) (Nat.lt_of_succ_lt_succ hj),
        heardAfter_advanced hp.steady, dueBy_advanced hp]

/-- The samples taken for `n` outputs. -/
def takenFor (p : Player) : ℕ → ℕ
  | 0 => 0
  | n + 1 => p.dueBy n

theorem samples_nextMany (hp : p.hold.OnGrid b) (n : ℕ) :
    (nextMany n p).2.queue.samples = p.queue.samples.drop (p.takenFor n) := by
  induction n generalizing p with
  | zero => rfl
  | succ n ih =>
    have hlater : p.hold.phase / Hold.one + p.advanced.takenFor n = p.takenFor (n + 1) := by
      cases n with
      | zero => rw [takenFor, takenFor, dueBy, Nat.zero_mul, Nat.add_zero, Nat.add_zero]
      | succ n => exact dueBy_advanced hp n
    rw [nextMany_succ hp.steady, ih (onGrid_advanced hp), samples_advanced hp.steady,
      List.drop_drop, hlater]

/-! ### Rates -/

theorem Called.onGrid {h : Hold} (hrate : (Hold.ofRate rate).OnGrid b) (hh : Called rate h) :
    h.OnGrid b := by
  induction hh with
  | start => exact hrate
  | @next h q s p _ hnext ih =>
    obtain ⟨-, rfl, -⟩ := next?_eq_some (p := ⟨h, q⟩) ih.steady.single hnext
    exact onGrid_advanced (p := ⟨h, q⟩) ih

/-- The phases of a call that starts on the grid are numbers of single precision. -/
theorem representable_iterate_take (hp : p.hold.OnGrid b) (i : ℕ) :
    Representable (inSamples (take^[i] p).hold.phase) := by
  have hsteady := steady_iterate_take hp.steady i
  have hround := (roundsTo_inSamples hsteady.phase_lt).representable
  rwa [round_of_single hsteady.single] at hround

/-- A step that is a number of single precision is exact. -/
theorem step_ofRate_of_mul {s : ℕ} (hrate : Single rate) (hs : Single s) (hpos : 0 < rate)
    (h : sourceRate * Hold.one = s * rate) : (Hold.ofRate rate).step = s := by
  rw [step_ofRate hpos, round_of_single hrate]
  exact roundQuotient_of_single hs hpos h

/-- The first sample is due at once, and each step adds to it. -/
theorem dueBy_ofRate (rate : ℕ) (q : Queue) (j : ℕ) :
    dueBy ⟨.ofRate rate, q⟩ j = j * (Hold.ofRate rate).step / Hold.one + 1 := by
  have hphase : (Hold.ofRate rate).phase = Hold.one := rfl
  rw [dueBy, hphase, Nat.add_comm, Nat.add_div_right _ Hold.one_pos]

theorem onGrid_ofRate (hrate : 0 < rate) (hb : b ≤ 42) (hstep : 2 ^ b ∣ (Hold.ofRate rate).step)
    (hroom : Hold.one + (Hold.ofRate rate).step ≤ 2 ^ (significantBits + b)) :
    (Hold.ofRate rate).OnGrid b :=
  ⟨Hold.steady_ofRate hrate, hb, hstep, Hold.dvd_one hb, hroom⟩

/-- As many samples as there is room for are queued as they are. -/
theorem push_ofRate {new : List Sample} (h : new.length ≤ Queue.capacity) :
    ((ofRate rate).push new).1 = ⟨.ofRate rate, ⟨new⟩⟩ := by
  have hkept : Queue.empty.size + new.length - Queue.capacity = 0 := by
    rw [Queue.size, Queue.empty, List.length_nil]
    omega
  have hqueue : (Queue.empty.push new).1 = ⟨new⟩ := by
    apply Queue.eq_of_samples
    rw [Queue.samples_push, hkept, List.drop_zero]
    rfl
  have hpush : ((ofRate rate).push new).1 = ⟨.ofRate rate, (Queue.empty.push new).1⟩ := rfl
  rw [hpush, hqueue]

theorem div_lt_frameCount {channels n i : ℕ} (h : 0 < channels) (hi : i < n) :
    i / channels < frameCount channels n := by
  apply Nat.div_lt_of_lt_mul
  rw [Nat.mul_comm]
  exact Nat.lt_of_lt_of_le hi (le_frameCount_mul h n)

/-- A byte, or silence where there is none, as a device of 16 bits gets it. -/
theorem toInt_convert_getElem? {convert : Sample → Int16}
    (hconvert : ∀ s, ((convert s).toInt : ℚ) = s.amplitude * 32768) (bytes : List UInt8) (k : ℕ) :
    (convert ((bytes.map Sample.ofByte)[k]?.getD .silence)).toInt =
      256 * (bytes[k]?.map signed).getD 0 := by
  rw [Sample.toInt_of_scaled (hconvert _), List.getElem?_map]
  cases bytes[k]? with
  | none => rfl
  | some b => exact congrArg (256 * ·) (Sample.toInt_ofByte b)

/-- No phase is rounded in a call: neither by its takes nor by its step. -/
def ExactPhases (rate : ℕ) (p : Player) : Prop :=
  ∃ m, CatchesUp p m ∧ (∀ i ≤ m, Representable (inSamples (take^[i] p).hold.phase)) ∧
    ∃ q s r, p.catchUp? = some q ∧ p.next? = some (s, r) ∧
      inSamples r.hold.phase = inSamples q.hold.phase + inSamples (Hold.ofRate rate).step

/-- How a player at a device's rate plays a queue: output `j` is the sample at `place j`, and
`n` outputs take as many samples as `count n`, or all. -/
structure PlaysExactly (rate : ℕ) (place count : ℕ → ℕ) : Prop where
  step : inSamples (Hold.ofRate rate).step = 15360 / rate
  /-- No phase is rounded, in any call on any queue. -/
  phases : ∀ h, Called rate h → ∀ q, ExactPhases rate ⟨h, q⟩
  outputs : ∀ (q : Queue) (n j : ℕ), j < n →
    (nextMany n ⟨.ofRate rate, q⟩).1[j]? = some (q.samples[place j]?.getD .silence)
  taken : ∀ (q : Queue) (n : ℕ), ∃ taken,
    q.samples = taken ++ (nextMany n ⟨.ofRate rate, q⟩).2.queue.samples ∧
      taken.length = min q.size (count n)
  /-- Whatever a device of 16 bits gets for an amplitude, as long as it is scaled by 32768. -/
  filled : ∀ convert : Sample → Int16, (∀ s, ((convert s).toInt : ℚ) = s.amplitude * 32768) →
    ∀ (bytes : List UInt8) (channels n : ℕ), bytes.length ≤ 1024 → 0 < channels →
      ∃ out r, ((ofRate rate).push (bytes.map .ofByte)).1.fill? convert channels n =
        some (out, r) ∧ out.length = n ∧
          ∀ i < n, ∃ v, out[i]? = some v ∧
            v.toInt = 256 * (bytes[place (i / channels)]?.map signed).getD 0
  /-- There is such a conversion. -/
  converted : ∀ s : Sample, (s.signed16.toInt : ℚ) = s.amplitude * 32768

section Fresh
variable {place : ℕ → ℕ} (hgrid : (Hold.ofRate rate).OnGrid b)
  (hplace : ∀ j, j * (Hold.ofRate rate).step / Hold.one = place j)

include hgrid

theorem phases_of_onGrid (hpos : 0 < rate) {h : Hold} (hh : Called rate h) (q : Queue) :
    ExactPhases rate ⟨h, q⟩ := by
  have hp : (Player.mk h q).hold.OnGrid b := hh.onGrid hgrid
  refine ⟨_, catchesUp hp.steady, fun i _ => representable_iterate_take hp i, _, _, _,
    catchUp?_of_steady hp.steady, next?_of_steady hp.steady, ?_⟩
  rw [phase_advanced hp, inSamples_add, hh.step hpos]

include hplace

theorem outputs_of_onGrid (q : Queue) {n j : ℕ} (hj : j < n) :
    (nextMany n ⟨.ofRate rate, q⟩).1[j]? = some (q.samples[place j]?.getD .silence) := by
  rw [getElem?_nextMany (p := ⟨.ofRate rate, q⟩) hgrid hj, dueBy_ofRate, hplace]
  rfl

theorem taken_of_onGrid {count : ℕ → ℕ} (hzero : count 0 = 0)
    (hcount : ∀ n, count (n + 1) = place n + 1) (q : Queue) (n : ℕ) :
    ∃ taken, q.samples = taken ++ (nextMany n ⟨.ofRate rate, q⟩).2.queue.samples ∧
      taken.length = min q.size (count n) := by
  have htaken : takenFor ⟨.ofRate rate, q⟩ n = count n := by
    cases n with
    | zero => exact hzero.symm
    | succ n => rw [takenFor, dueBy_ofRate, hplace, hcount]
  refine ⟨q.samples.take (count n), ?_, ?_⟩
  · rw [samples_nextMany (p := ⟨.ofRate rate, q⟩) hgrid, htaken, List.take_append_drop]
  · rw [List.length_take, Nat.min_comm]
    rfl

theorem filled_of_onGrid {convert : Sample → Int16}
    (hconvert : ∀ s, ((convert s).toInt : ℚ) = s.amplitude * 32768) {bytes : List UInt8}
    {channels : ℕ} (n : ℕ) (hbytes : bytes.length ≤ Queue.capacity) (hchannels : 0 < channels) :
    ∃ out r, ((ofRate rate).push (bytes.map .ofByte)).1.fill? convert channels n =
      some (out, r) ∧ out.length = n ∧
        ∀ i < n, ∃ v, out[i]? = some v ∧
          v.toInt = 256 * (bytes[place (i / channels)]?.map signed).getD 0 := by
  have hfits : (bytes.map Sample.ofByte).length ≤ Queue.capacity := by
    rwa [List.length_map]
  rw [push_ofRate hfits]
  obtain ⟨out, hfill, -, hlength, helements⟩ :=
    fill?_elements (p := ⟨.ofRate rate, ⟨bytes.map .ofByte⟩⟩) convert hchannels n hgrid.steady
  refine ⟨out, _, hfill, hlength, fun i hi => ?_⟩
  refine ⟨_, ?_, toInt_convert_getElem? hconvert bytes (place (i / channels))⟩
  rw [helements i hi, outputs_of_onGrid hgrid hplace _ (div_lt_frameCount hchannels hi)]
  rfl

end Fresh

theorem playsExactly_of_onGrid {place count : ℕ → ℕ} (hpos : 0 < rate)
    (hgrid : (Hold.ofRate rate).OnGrid b)
    (hstep : sourceRate * Hold.one = (Hold.ofRate rate).step * rate)
    (hplace : ∀ j, j * (Hold.ofRate rate).step / Hold.one = place j) (hzero : count 0 = 0)
    (hcount : ∀ n, count (n + 1) = place n + 1) : PlaysExactly rate place count where
  step := by
    have hrate : (rate : ℚ) ≠ 0 := by exact_mod_cast hpos.ne'
    have hproduct := congrArg inSamples hstep
    rw [inSamples_mul_one, inSamples_mul] at hproduct
    exact (eq_div_iff hrate).2 hproduct.symm
  phases _ hh := phases_of_onGrid hgrid hpos hh
  outputs q _ _ hj := outputs_of_onGrid hgrid hplace q hj
  taken := taken_of_onGrid hgrid hplace hzero hcount
  filled _ hconvert _ _ n hbytes hchannels :=
    filled_of_onGrid hgrid hplace hconvert n hbytes hchannels
  converted := Sample.toInt_signed16

/-! ### All of it -/

theorem playsExactly_above {k : ℕ} (hk : sourceRate * 2 ^ k < 2 ^ 32) :
    PlaysExactly (sourceRate * 2 ^ k) (fun j => j / 2 ^ k) fun n => (n + 2 ^ k - 1) / 2 ^ k := by
  have hk18 : k ≤ 18 := by
    by_contra hmore
    have hpower : 2 ^ 19 ≤ 2 ^ k := Nat.pow_le_pow_right (by decide) (by omega)
    rw [sourceRate] at hk
    omega
  have hpos : 0 < sourceRate * 2 ^ k := Nat.mul_pos (by decide) (Nat.two_pow_pos k)
  have hone : Hold.one = 2 ^ k * 2 ^ (42 - k) := by
    have hsum : k + (42 - k) = 42 := by omega
    rw [← Nat.pow_add, hsum]
    decide
  have hmul : sourceRate * Hold.one = 2 ^ (42 - k) * (sourceRate * 2 ^ k) := by
    rw [hone, ← Nat.mul_assoc, Nat.mul_comm]
  have hsingle : Single (2 ^ (42 - k)) := by
    have h := single_mul (m := 1) (by decide) (42 - k)
    rwa [Nat.one_mul] at h
  have hstep := step_ofRate_of_mul (single_mul (by decide) k) hsingle hpos hmul
  have hgrid : (Hold.ofRate (sourceRate * 2 ^ k)).OnGrid (42 - k) := by
    apply onGrid_ofRate hpos (Nat.sub_le _ _) <;> rw [hstep]
    have hless : 2 ^ (42 - k) ≤ Hold.one := Nat.pow_le_pow_right (by decide) (Nat.sub_le 42 k)
    have hbits : 2 ^ 48 ≤ 2 ^ (significantBits + (42 - k)) :=
      Nat.pow_le_pow_right (by decide) (by rw [significantBits]; omega)
    have hdouble : Hold.one + Hold.one ≤ 2 ^ 48 := by decide
    omega
  apply playsExactly_of_onGrid hpos hgrid
  · rw [hstep, hmul]
  · intro j
    rw [hstep, hone]
    exact Nat.mul_div_mul_right j (2 ^ k) (Nat.two_pow_pos _)
  · rw [Nat.zero_add]
    exact Nat.div_eq_of_lt (Nat.sub_lt (Nat.two_pow_pos k) Nat.one_pos)
  · intro n
    rw [Nat.add_right_comm, Nat.add_sub_cancel, Nat.add_div_right _ (Nat.two_pow_pos k)]

theorem playsExactly_below {d : ℕ} (hd : d ∣ sourceRate) :
    PlaysExactly (sourceRate / d) (fun j => j * d)
      fun n => if n = 0 then 0 else (n - 1) * d + 1 := by
  have hdpos : 0 < d := Nat.pos_of_dvd_of_pos hd (by decide)
  have hdle : d ≤ sourceRate := Nat.le_of_dvd (by decide) hd
  have hpos : 0 < sourceRate / d := Nat.div_pos hdle hdpos
  have hmul : sourceRate * Hold.one = d * Hold.one * (sourceRate / d) := by
    rw [Nat.mul_right_comm, Nat.mul_div_cancel' hd]
  have hrate : Single (sourceRate / d) := by
    have hle : sourceRate / d ≤ 2 ^ significantBits := Nat.le_trans (Nat.div_le_self ..) (by decide)
    have h := single_mul hle 0
    rwa [Nat.pow_zero, Nat.mul_one] at h
  have hstep := step_ofRate_of_mul hrate
    (single_mul_one (Nat.le_trans hdle (by decide))) hpos hmul
  have hgrid : (Hold.ofRate (sourceRate / d)).OnGrid 42 := by
    apply onGrid_ofRate hpos (Nat.le_refl _) <;> rw [hstep]
    · exact Nat.dvd_mul_left_of_dvd (Hold.dvd_one (Nat.le_refl _)) d
    · have hless : d * Hold.one ≤ sourceRate * Hold.one := Nat.mul_le_mul_right _ hdle
      have hbits : Hold.one + sourceRate * Hold.one ≤ 2 ^ (significantBits + 42) := by decide
      omega
  apply playsExactly_of_onGrid hpos hgrid
  · rw [hstep, hmul]
  · intro j
    rw [hstep, ← Nat.mul_assoc]
    exact Nat.mul_div_cancel _ Hold.one_pos
  · rfl
  · intro n
    rw [if_neg (Nat.succ_ne_zero n), Nat.add_sub_cancel]

/-- **At a whole ratio playing is exact.** At a rate above the machine's by a power of two each
sample is heard so many times; at one that divides it every so many samples one is heard. -/
theorem whole_ratios_exact :
    (∀ k, sourceRate * 2 ^ k < 2 ^ 32 →
      PlaysExactly (sourceRate * 2 ^ k) (fun j => j / 2 ^ k) fun n => (n + 2 ^ k - 1) / 2 ^ k) ∧
    ∀ d, d ∣ sourceRate →
      PlaysExactly (sourceRate / d) (fun j => j * d)
        fun n => if n = 0 then 0 else (n - 1) * d + 1 :=
  ⟨fun _ => playsExactly_above, fun _ => playsExactly_below⟩

/-- Two bytes at four times the machine's rate, also in a buffer with two channels, and three at
half of it. -/
theorem fourfold_and_half_exact :
    sourceRate * 2 ^ 2 < 2 ^ 32 ∧ 2 ∣ sourceRate ∧
      PlaysExactly 61440 (fun j => j / 4) (fun n => (n + 4 - 1) / 4) ∧
      PlaysExactly 7680 (fun j => j * 2) (fun n => if n = 0 then 0 else (n - 1) * 2 + 1) ∧
      (nextMany 9 ((ofRate 61440).push ([64, 0x80].map .ofByte)).1).1 =
        [64, 64, 64, 64, -128, -128, -128, -128, 0] ∧
      (∃ out r, ((ofRate 61440).push ([64, 0x80].map .ofByte)).1.fill? Sample.signed16 2 18 =
        some (out, r) ∧ ∃ v, out[15]? = some v ∧ v.toInt = -32768) ∧
      (nextMany 3 ((ofRate 7680).push ([1, 2, 3].map .ofByte)).1).1 = [1, 3, 0] := by
  have hfourfold : sourceRate * 2 ^ 2 < 2 ^ 32 := by decide
  have hhalf : 2 ∣ sourceRate := by decide
  have habove := whole_ratios_exact.1 2 hfourfold
  have hbelow := whole_ratios_exact.2 2 hhalf
  refine ⟨hfourfold, hhalf, habove, hbelow, ?_, ?_, ?_⟩
  · rw [fst_nextMany (Hold.steady_ofRate (by decide))]
    decide +kernel
  · obtain ⟨out, r, hfill, -, helements⟩ :=
      habove.filled _ habove.converted [64, 0x80] 2 18 (by decide) (by decide)
    exact ⟨out, r, hfill, helements 15 (by decide)⟩
  · rw [fst_nextMany (Hold.steady_ofRate (by decide))]
    decide +kernel

end Player

end ByteByteJump.Audio

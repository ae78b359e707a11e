import EntroQ.Worker.Renewal

/-! # Retries of a renewal

A renewal that fails in passing is retried inside the margin of its lease: after an eighth of the
margin, then twice that, and so on up to the ordinary interval, each wait lengthened at random by
up to a quarter. The waits by themselves leave room for three retries. -/

namespace EntroQ.Worker

def renewalMargin (t : Task) : Duration := grantedLease t - renewInterval t

def nextRenewalRetry (last margin interval : Duration) : Duration :=
  if margin ≤ 0 then interval
  else
    let next := if last > 0 then last * 2 else margin.tdiv 8
    min next interval

/-- A random duration up to the spread, from what was drawn. -/
def jitterSpread (spread : Duration) (draw : ℕ) : Duration :=
  if spread ≤ 0 then 0 else draw % (spread + 1)

def jitterLater (d spread : Duration) (draw : ℕ) : Duration := d + jitterSpread spread draw

/-- The delay before the retry and when it starts, counted from the grant of the lease, if the
renewal due at the interval and every retry fail at once. The renewal itself is retry 0. -/
def retry (t : Task) (draws : ℕ → ℕ) : ℕ → Duration × Duration
  | 0 => (0, renewInterval t)
  | n + 1 =>
    let (last, start) := retry t draws n
    let delay := nextRenewalRetry last (renewalMargin t) (renewInterval t)
    (delay, start + jitterLater delay (delay.tdiv 4) (draws n))

/-- What is drawn on top of the `n`th retry's delay. -/
def jitterOf (t : Task) (draws : ℕ → ℕ) (n : ℕ) : Duration :=
  jitterSpread ((retry t draws (n + 1)).1.tdiv 4) (draws n)

/-- The first `n` retries are started before the lease runs out. -/
def RetriesInTime (t : Task) (draws : ℕ → ℕ) (n : ℕ) : Prop :=
  ∀ i, 1 ≤ i → i ≤ n → (retry t draws i).2 < grantedLease t

theorem jitterSpread_nonneg (spread : Duration) (draw : ℕ) : 0 ≤ jitterSpread spread draw := by
  unfold jitterSpread
  split_ifs with h
  · exact le_rfl
  · exact Int.emod_nonneg _ (by linarith)

theorem nextRenewalRetry_first {margin interval : ℤ} (hm : 0 < margin) (hi : margin / 8 ≤ interval) :
    nextRenewalRetry 0 margin interval = margin / 8 := by
  rw [nextRenewalRetry, if_neg (not_le.mpr hm)]
  simp only [gt_iff_lt, lt_irrefl, if_false, Int.tdiv_eq_ediv_of_nonneg hm.le]
  exact min_eq_left hi

theorem nextRenewalRetry_again {last margin interval : ℤ} (hm : 0 < margin) (hl : 0 < last)
    (hi : last * 2 ≤ interval) : nextRenewalRetry last margin interval = last * 2 := by
  rw [nextRenewalRetry, if_neg (not_le.mpr hm)]
  simp only [gt_iff_lt, hl, if_true]
  exact min_eq_left hi

/-- The lease, its interval and margin, in whole nanoseconds. -/
theorem lease_parts {L I M : ℤ} (hL : 24 ≤ L) (hI : I = (L * 2).tdiv 3) (hM : M = L - I) :
    8 ≤ M ∧ 0 < M / 8 ∧ M / 8 * 2 * 2 ≤ I := by
  rw [Int.tdiv_eq_ediv_of_nonneg (by omega)] at hI
  omega

/-- The first three delays are an eighth of the margin, a quarter and a half: none reaches the
ordinary interval. -/
theorem retry_delays {t : Task} (hL : 24 ≤ grantedLease t) (draws : ℕ → ℕ) :
    (retry t draws 1).1 = renewalMargin t / 8 ∧ (retry t draws 2).1 = renewalMargin t / 8 * 2 ∧
      (retry t draws 3).1 = renewalMargin t / 8 * 2 * 2 := by
  obtain ⟨hm, hpos, hle⟩ := lease_parts (I := renewInterval t) (M := renewalMargin t) hL rfl rfl
  have hm' : 0 < renewalMargin t := lt_of_lt_of_le (by norm_num) hm
  have h1 : (retry t draws 1).1 = renewalMargin t / 8 :=
    nextRenewalRetry_first hm' (by linarith)
  have h2 : (retry t draws 2).1 = renewalMargin t / 8 * 2 := by
    change nextRenewalRetry (retry t draws 1).1 _ _ = _
    rw [h1]
    exact nextRenewalRetry_again hm' hpos (by linarith)
  refine ⟨h1, h2, ?_⟩
  change nextRenewalRetry (retry t draws 2).1 _ _ = _
  rw [h2]
  exact nextRenewalRetry_again hm' (by linarith) hle

theorem retry_start (t : Task) (draws : ℕ → ℕ) (n : ℕ) :
    (retry t draws (n + 1)).2 =
      (retry t draws n).2 + ((retry t draws (n + 1)).1 + jitterOf t draws n) := rfl

theorem jitterOf_eq {t : Task} {draws : ℕ → ℕ} {n : ℕ} {delay : Duration}
    (h : (retry t draws (n + 1)).1 = delay) :
    jitterOf t draws n = jitterSpread (delay.tdiv 4) (draws n) := by
  rw [jitterOf, h]

/-- Three retries are started in time exactly if what is drawn for them together stays below the
part of the margin that their delays leave. -/
theorem three_retries_iff (t : Task) (draws : ℕ → ℕ) (hL : 24 ≤ grantedLease t) :
    RetriesInTime t draws 3 ↔
      jitterSpread ((renewalMargin t / 8).tdiv 4) (draws 0) +
          jitterSpread ((renewalMargin t / 8 * 2).tdiv 4) (draws 1) +
          jitterSpread ((renewalMargin t / 8 * 2 * 2).tdiv 4) (draws 2) <
        renewalMargin t - 7 * (renewalMargin t / 8) := by
  obtain ⟨h1, h2, h3⟩ := retry_delays hL draws
  obtain ⟨-, hpos, -⟩ := lease_parts (I := renewInterval t) (M := renewalMargin t) hL rfl rfl
  rw [← jitterOf_eq h1, ← jitterOf_eq h2, ← jitterOf_eq h3]
  have hlease : grantedLease t = renewInterval t + renewalMargin t := by
    rw [renewalMargin]
    ring
  have hj (n : ℕ) : 0 ≤ jitterOf t draws n := jitterSpread_nonneg _ _
  have s0 : (retry t draws 0).2 = renewInterval t := rfl
  have s1 := retry_start t draws 0
  have s2 := retry_start t draws 1
  have s3 := retry_start t draws 2
  rw [h1] at s1
  rw [h2] at s2
  rw [h3] at s3
  have j1 := hj 1
  have j2 := hj 2
  constructor
  · intro hin
    have hlast := hin 3 (by norm_num) le_rfl
    linarith
  · intro hsum i hi hi'
    rcases (by omega : i = 1 ∨ i = 2 ∨ i = 3) with rfl | rfl | rfl <;> linarith

/-- A task held for 45 seconds, the length of a claim that names none. -/
def leasedTask : Task :=
  { queue := "/jobs", id := "t", version := 1, atTime := 46000000000, modified := 1000000000 }

def longestDraws : ℕ → ℕ
  | 0 => 468750000
  | 1 => 937500000
  | 2 => 1875000000
  | _ => 0

/-- Without a draw the last of three retries is started after 43.1 seconds. -/
theorem three_retries_undrawn :
    24 ≤ grantedLease leasedTask ∧ RetriesInTime leasedTask (fun _ => 0) 3 :=
  ⟨by decide, (three_retries_iff _ _ (by decide)).mpr (by decide)⟩

/-- The longest draws delay the third retry until 46.4 seconds, past the lease. -/
theorem third_retry_late :
    24 ≤ grantedLease leasedTask ∧
      ¬ RetriesInTime leasedTask longestDraws 3 := by
  refine ⟨by decide, fun h => ?_⟩
  have hthird := h 3 (by decide) le_rfl
  revert hthird
  decide

end EntroQ.Worker

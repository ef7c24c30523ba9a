import BtrfsPeek.Lib.Calendar
import BtrfsPeek.Lib.Utf8
import BtrfsPeek.Lib.Decimal

/-!
# Times of modification

`iso_time`, from `main.rs`: how `stat` prints the seconds of an inode, which are any
64 bits. `civil` is its arithmetic, where each step that leaves 64 bits is `none`;
`civil_eq` says that none does, and `isoTime_gregorian` that the calendar is kept.
-/

namespace BtrfsPeek

open Calendar Decimal

/-- The values of an `i64`. -/
def IsI64 (n : Int) : Prop := -2 ^ 63 ≤ n ∧ n < 2 ^ 63

instance (n : Int) : Decidable (IsI64 n) := inferInstanceAs (Decidable (_ ∧ _))

/-- What a step of `i64` arithmetic comes to. -/
def i64 (n : Int) : Option Int := if IsI64 n then some n else none

namespace I64

def add (a b : Int) : Option Int := i64 (a + b)
def sub (a b : Int) : Option Int := i64 (a - b)
def mul (a b : Int) : Option Int := i64 (a * b)
/-- `/`, which truncates. -/
def div (a b : Int) : Option Int := i64 (a.tdiv b)
/-- `%`, which has the sign of `a`. -/
def rem (a b : Int) : Option Int := i64 (a.tmod b)
/-- `div_euclid` and `rem_euclid`, which round down. -/
def divEuclid (a b : Int) : Option Int := i64 (a / b)
def remEuclid (a b : Int) : Option Int := i64 (a % b)

end I64

open I64 in
/-- The fields that `iso_time` prints. -/
def civil (secs : Int) : Option Civil := do
  let days ← divEuclid secs 86400
  let rest ← remEuclid secs 86400
  -- Civil-from-days, from March of the year 0.
  let z ← add days 719468
  let era ← divEuclid z 146097
  let doe ← remEuclid z 146097
  let yoe ← div (← sub (← add (← sub doe (← div doe 1460)) (← div doe 36524)) (← div doe 146096)) 365
  let doy ← sub doe (← sub (← add (← mul 365 yoe) (← div yoe 4)) (← div yoe 100))
  let mp ← div (← add (← mul 5 doy) 2) 153
  let d ← add (← sub doy (← div (← add (← mul 153 mp) 2) 5)) 1
  let m ← (if mp < 10 then add mp 3 else sub mp 9)
  let y ← add (← add yoe (← mul era 400)) (if m ≤ 2 then 1 else 0)
  some ⟨y, m, d, ← div rest 3600, ← div (← rem rest 3600) 60, ← rem rest 60⟩

/-- `{:0w}` of an `i64`: the sign, then zeros up to the width. -/
def zeroPadded (w : Nat) (n : Int) : Text :=
  if n < 0 then '-' :: (Nat.toDigits 10 n.natAbs).leftpad (w - 1) '0'
  else (Nat.toDigits 10 n.natAbs).leftpad w '0'

def Calendar.Civil.text (c : Civil) : Text :=
  zeroPadded 4 c.year ++ '-' :: (zeroPadded 2 c.month ++ '-' :: (zeroPadded 2 c.day ++ 'T' ::
    (zeroPadded 2 c.hour ++ ':' :: (zeroPadded 2 c.minute ++ ':' :: (zeroPadded 2 c.second ++ ['Z'])))))

def isoTime (secs : Int) : Option String := (civil secs).map fun c => String.ofList c.text

/-! ## The day of a number of days -/

/-- What is left of a span of four years past whole years of 365 days; the division
by 1460 has taken `a` of it. -/
theorem fourYears {r a k : Int} (hr : 0 ≤ r ∧ r ≤ 1460)
    (ha : a = 0 ∧ r < 1460 ∨ a = 1 ∧ 1095 < r) (hk : k = (r - a) / 365) :
    0 ≤ k ∧ k ≤ 3 ∧ 365 * k ≤ r ∧ r ≤ 365 * k + 365 ∧ (r = 365 * k + 365 → k = 3) := by
  omega

/-- The year of a day of the era, counted from March: the day is within it, and is the
year's 366th only if the year ends with a leap day. -/
theorem yearOfEra {doe yoe : Int} (h0 : 0 ≤ doe) (h1 : doe < 146097)
    (hy : yoe = (doe - doe / 1460 + doe / 36524 - doe / 146096) / 365) :
    0 ≤ yoe ∧ yoe ≤ 399 ∧ 365 * yoe + yoe / 4 - yoe / 100 ≤ doe ∧
      doe ≤ 365 * yoe + yoe / 4 - yoe / 100 + 365 ∧
      (doe = 365 * yoe + yoe / 4 - yoe / 100 + 365 → IsLeap (yoe + 1)) := by
  by_cases hlast : doe = 146096
  · subst hlast
    rw [hy]
    decide
  -- century `c`, four years `q` of it, year `k` of these
  obtain ⟨c, hc⟩ : ∃ c, c = doe / 36524 := ⟨_, rfl⟩
  obtain ⟨q, hq⟩ : ∃ q, q = (doe - 36524 * c) / 1461 := ⟨_, rfl⟩
  obtain ⟨r, hr⟩ : ∃ r, r = doe - 36524 * c - 1461 * q := ⟨_, rfl⟩
  obtain ⟨a, ha⟩ : ∃ a, a = doe / 1460 - 25 * c - q := ⟨_, rfl⟩
  have hc3 : 0 ≤ c ∧ c ≤ 3 := by omega
  have hq24 : 0 ≤ q ∧ q ≤ 24 := by omega
  have hr1460 : 0 ≤ r ∧ r ≤ 1460 := by omega
  have ha1 : a = 0 ∧ r < 1460 ∨ a = 1 ∧ 1095 < r := by omega
  obtain ⟨k, hk⟩ : ∃ k, k = (r - a) / 365 := ⟨_, rfl⟩
  obtain ⟨hk0, hk3, hlo, hhi, hleap⟩ := fourYears hr1460 ha1 hk
  have hsum : doe - doe / 1460 + doe / 36524 - doe / 146096 = 365 * (100 * c + 4 * q) + (r - a) := by
    omega
  have hyoe : yoe = 100 * c + 4 * q + k := by
    rw [hy, hsum]
    omega
  have h4 : yoe / 4 = 25 * c + q := by omega
  have h100 : yoe / 100 = c := by omega
  rw [h4, h100]
  refine ⟨by omega, by omega, by omega, by omega, ?_⟩
  intro h366
  have hk3 : k = 3 := hleap (by omega)
  simp only [IsLeap]
  omega

/-- The date of the day `doy` after March 1 of the year `y₀`. -/
theorem dateOfYear {y₀ doy mp m y d : Int} (hdoy : 0 ≤ doy ∧ doy ≤ 365)
    (hleap : doy = 365 → IsLeap (y₀ + 1)) (hmp : mp = (5 * doy + 2) / 153)
    (hm : m = if mp < 10 then mp + 3 else mp - 9) (hy : y = y₀ + if m ≤ 2 then 1 else 0)
    (hd : d = doy - (153 * mp + 2) / 5 + 1) :
    (1 ≤ m ∧ m ≤ 12) ∧ (1 ≤ d ∧ d ≤ monthLength y m) ∧
      dayNumber y m d = marchDay y₀ + doy - 719468 := by
  have hmp11 : 0 ≤ mp ∧ mp ≤ 11 := by omega
  by_cases h10 : mp < 10
  · rw [if_pos h10] at hm
    rw [if_neg (by omega), Int.add_zero] at hy
    refine ⟨by omega, ⟨by omega, ?_⟩, ?_⟩
    · obtain ⟨hmp0, -⟩ := hmp11
      subst hm hd
      interval_cases mp <;> simp only [monthLength] <;> norm_num <;> omega
    · rw [dayNumber_spring (by omega) (by omega), hy]
      have hmonth : m - 3 = mp := by omega
      rw [hmonth]
      omega
  · rw [if_neg h10] at hm
    rw [if_pos (by omega)] at hy
    refine ⟨by omega, ⟨by omega, ?_⟩, ?_⟩
    · have hmp1 : mp = 10 ∨ mp = 11 := by omega
      rcases hmp1 with rfl | rfl
      · subst hm hd
        simp only [monthLength]
        norm_num
        omega
      · subst hm hd hy
        by_cases hl : IsLeap (y₀ + 1)
        · simp [monthLength, hl]
          omega
        · have hlast : doy ≠ 365 := fun h => hl (hleap h)
          simp [monthLength, hl]
          omega
    · rw [dayNumber_winter (by omega) (by omega), hy]
      have hmonth : m + 9 = mp := by omega
      rw [hmonth]
      have hyear : y₀ + 1 - 1 = y₀ := by omega
      rw [hyear]
      omega

/-- `civil` without the bounds of 64 bits. -/
def civilOf (secs : Int) : Civil :=
  let z := secs / 86400 + 719468
  let doe := z % 146097
  let yoe := (doe - doe / 1460 + doe / 36524 - doe / 146096) / 365
  let doy := doe - (365 * yoe + yoe / 4 - yoe / 100)
  let mp := (5 * doy + 2) / 153
  let m := if mp < 10 then mp + 3 else mp - 9
  ⟨yoe + z / 146097 * 400 + if m ≤ 2 then 1 else 0, m, doy - (153 * mp + 2) / 5 + 1,
    secs % 86400 / 3600, secs % 86400 % 3600 / 60, secs % 86400 % 60⟩

theorem civilOf_spec (secs : Int) : (civilOf secs).Valid ∧ (civilOf secs).seconds = secs := by
  obtain ⟨z, hz⟩ : ∃ z, z = secs / 86400 + 719468 := ⟨_, rfl⟩
  obtain ⟨doe, hdoe⟩ : ∃ doe, doe = z % 146097 := ⟨_, rfl⟩
  obtain ⟨era, hera⟩ : ∃ era, era = z / 146097 := ⟨_, rfl⟩
  obtain ⟨yoe, hyoe⟩ : ∃ yoe, yoe = (doe - doe / 1460 + doe / 36524 - doe / 146096) / 365 := ⟨_, rfl⟩
  obtain ⟨doy, hdoy⟩ : ∃ doy, doy = doe - (365 * yoe + yoe / 4 - yoe / 100) := ⟨_, rfl⟩
  obtain ⟨mp, hmp⟩ : ∃ mp, mp = (5 * doy + 2) / 153 := ⟨_, rfl⟩
  obtain ⟨m, hm⟩ : ∃ m, m = if mp < 10 then mp + 3 else mp - 9 := ⟨_, rfl⟩
  obtain ⟨y, hy⟩ : ∃ y, y = yoe + era * 400 + if m ≤ 2 then 1 else 0 := ⟨_, rfl⟩
  obtain ⟨d, hd⟩ : ∃ d, d = doy - (153 * mp + 2) / 5 + 1 := ⟨_, rfl⟩
  have hcivil : civilOf secs =
      ⟨y, m, d, secs % 86400 / 3600, secs % 86400 % 3600 / 60, secs % 86400 % 60⟩ := by
    subst hy hd hm hmp hdoy hyoe hera hdoe hz
    rfl
  obtain ⟨hy0, hy399, hlo, hhi, hleap⟩ := yearOfEra (by omega) (by omega) hyoe
  have hleap' : doy = 365 → IsLeap (yoe + era * 400 + 1) := by
    intro h365
    have hyear : yoe + era * 400 + 1 = yoe + 1 + era * 400 := by omega
    rw [hyear, isLeap_era]
    exact hleap (by omega)
  obtain ⟨hmonth, hday, hnumber⟩ := dateOfYear ⟨by omega, by omega⟩ hleap' hmp hm hy hd
  have hmarch : marchDay yoe = 365 * yoe + yoe / 4 - yoe / 100 := by
    simp only [marchDay]
    omega
  rw [marchDay_era, hmarch] at hnumber
  rw [hcivil]
  refine ⟨⟨hmonth, hday, ?_, ?_, ?_⟩, ?_⟩
  · show 0 ≤ secs % 86400 / 3600 ∧ secs % 86400 / 3600 < 24
    omega
  · show 0 ≤ secs % 86400 % 3600 / 60 ∧ secs % 86400 % 3600 / 60 < 60
    omega
  · show 0 ≤ secs % 86400 % 60 ∧ secs % 86400 % 60 < 60
    omega
  · simp only [Civil.seconds, hnumber]
    omega

/-! ## Within 64 bits -/

namespace I64

variable {α : Type} {a b : Int} (f : Int → Option α)

theorem i64_bind {n : Int} (h : -2 ^ 63 ≤ n ∧ n < 2 ^ 63) : (i64 n >>= f) = f n := by
  have hn : i64 n = some n := if_pos h
  rw [hn]
  rfl

theorem add_bind (h : -2 ^ 63 ≤ a + b ∧ a + b < 2 ^ 63) : (add a b >>= f) = f (a + b) := i64_bind f h

theorem sub_bind (h : -2 ^ 63 ≤ a - b ∧ a - b < 2 ^ 63) : (sub a b >>= f) = f (a - b) := i64_bind f h

theorem mul_bind (h : -2 ^ 63 ≤ a * b ∧ a * b < 2 ^ 63) : (mul a b >>= f) = f (a * b) := i64_bind f h

theorem divEuclid_bind (h : -2 ^ 63 ≤ a / b ∧ a / b < 2 ^ 63) : (divEuclid a b >>= f) = f (a / b) :=
  i64_bind f h

theorem remEuclid_bind (h : -2 ^ 63 ≤ a % b ∧ a % b < 2 ^ 63) : (remEuclid a b >>= f) = f (a % b) :=
  i64_bind f h

theorem div_bind (ha : 0 ≤ a) (h : -2 ^ 63 ≤ a / b ∧ a / b < 2 ^ 63) : (div a b >>= f) = f (a / b) := by
  rw [div, Int.tdiv_eq_ediv_of_nonneg ha]
  exact i64_bind f h

theorem rem_bind (ha : 0 ≤ a) (h : -2 ^ 63 ≤ a % b ∧ a % b < 2 ^ 63) : (rem a b >>= f) = f (a % b) := by
  rw [rem, Int.tmod_eq_emod_of_nonneg ha]
  exact i64_bind f h

end I64

open I64 in
/-- No step leaves 64 bits. -/
theorem civil_eq {secs : Int} (h : IsI64 secs) : civil secs = some (civilOf secs) := by
  simp only [IsI64] at h
  obtain ⟨z, hz⟩ : ∃ z, z = secs / 86400 + 719468 := ⟨_, rfl⟩
  obtain ⟨doe, hdoe⟩ : ∃ doe, doe = z % 146097 := ⟨_, rfl⟩
  obtain ⟨era, hera⟩ : ∃ era, era = z / 146097 := ⟨_, rfl⟩
  obtain ⟨yoe, hyoe⟩ : ∃ yoe, yoe = (doe - doe / 1460 + doe / 36524 - doe / 146096) / 365 := ⟨_, rfl⟩
  obtain ⟨doy, hdoy⟩ : ∃ doy, doy = doe - (365 * yoe + yoe / 4 - yoe / 100) := ⟨_, rfl⟩
  obtain ⟨mp, hmp⟩ : ∃ mp, mp = (5 * doy + 2) / 153 := ⟨_, rfl⟩
  obtain ⟨m, hm⟩ : ∃ m, m = if mp < 10 then mp + 3 else mp - 9 := ⟨_, rfl⟩
  have hzb : -2 ^ 50 < z ∧ z < 2 ^ 50 := by omega
  have hdoe0 : 0 ≤ doe ∧ doe < 146097 := by omega
  obtain ⟨hy0, hy399, hlo, hhi, -⟩ := yearOfEra hdoe0.1 hdoe0.2 hyoe
  have hdoy0 : 0 ≤ doy ∧ doy ≤ 365 := by omega
  have hmp0 : 0 ≤ mp ∧ mp ≤ 11 := by omega
  have hrem : 0 ≤ secs % 86400 ∧ secs % 86400 < 86400 := by omega
  unfold civil
  rw [divEuclid_bind _ (by omega), remEuclid_bind _ (by omega), add_bind _ (by omega), ← hz,
    divEuclid_bind _ (by omega), ← hera, remEuclid_bind _ (by omega), ← hdoe]
  rw [div_bind _ (by omega) (by omega), sub_bind _ (by omega), div_bind _ (by omega) (by omega),
    add_bind _ (by omega), div_bind _ (by omega) (by omega), sub_bind _ (by omega),
    div_bind _ (by omega) (by omega), ← hyoe]
  rw [mul_bind _ (by omega), div_bind _ (by omega) (by omega), add_bind _ (by omega),
    div_bind _ (by omega) (by omega), sub_bind _ (by omega), sub_bind _ (by omega), ← hdoy]
  rw [mul_bind _ (by omega), add_bind _ (by omega), div_bind _ (by omega) (by omega), ← hmp]
  rw [mul_bind _ (by omega), add_bind _ (by omega), div_bind _ (by omega) (by omega),
    sub_bind _ (by omega), add_bind _ (by omega)]
  have hmonth (f : Int → Option Civil) :
      ((if mp < 10 then add mp 3 else sub mp 9) >>= f) = f m := by
    rw [hm]
    split_ifs
    · exact add_bind f (by omega)
    · exact sub_bind f (by omega)
  have hcarry : 0 ≤ (if m ≤ 2 then 1 else 0 : Int) ∧ (if m ≤ 2 then 1 else 0 : Int) ≤ 1 := by
    split_ifs <;> decide
  rw [hmonth, mul_bind _ (by omega), add_bind _ (by omega), add_bind _ (by omega)]
  rw [div_bind _ (by omega) (by omega), rem_bind _ (by omega) (by omega),
    div_bind _ (by omega) (by omega), rem_bind _ (by omega) (by omega)]
  subst hm hmp hdoy hyoe hera hdoe hz
  rfl

/-! ## The text -/

theorem ofDigitChars_leftpad (w n : Nat) :
    Nat.ofDigitChars 10 ((Nat.toDigits 10 n).leftpad w '0') 0 = n := by
  rw [List.leftpad, Nat.ofDigitChars_append, Nat.ofDigitChars_replicate_zero, Nat.mul_zero,
    Nat.ofDigitChars_ten_toDigits]

theorem minus_not_mem_leftpad (w n : Nat) : '-' ∉ (Nat.toDigits 10 n).leftpad w '0' := by
  rw [List.leftpad, List.mem_append, not_or]
  refine ⟨?_, not_mem_toDigits (by decide)⟩
  intro h
  exact absurd (List.eq_of_mem_replicate h) (by decide)

theorem zeroPadded_injective {w : Nat} {n n' : Int} (h : zeroPadded w n = zeroPadded w n') : n = n' := by
  have hminus {k m : Nat} {l : Text} (heq : '-' :: l = (Nat.toDigits 10 m).leftpad k '0') : False := by
    apply minus_not_mem_leftpad k m
    rw [← heq]
    exact List.mem_cons_self
  have hdigits {k m m' : Nat} (heq : (Nat.toDigits 10 m).leftpad k '0' = (Nat.toDigits 10 m').leftpad k '0') :
      m = m' := by
    have := congrArg (fun p => Nat.ofDigitChars 10 p 0) heq
    simpa only [ofDigitChars_leftpad] using this
  unfold zeroPadded at h
  split_ifs at h with hn hn' hn'
  · have := hdigits (List.cons_injective h)
    omega
  · exact (hminus h).elim
  · exact (hminus h.symm).elim
  · have := hdigits h
    omega

theorem length_zeroPadded {n : Int} (h0 : 0 ≤ n) (h : n < 100) : (zeroPadded 2 n).length = 2 := by
  have hl : (Nat.toDigits 10 n.natAbs).length ≤ 2 :=
    (Nat.length_toDigits_le_iff (by decide) (by decide)).mpr (by omega)
  rw [zeroPadded, if_neg (by omega), List.length_leftpad]
  omega

/-- Two texts that begin with numbers of two digits: the numbers agree, and so do the rests. -/
theorem zeroPadded_append {n n' : Int} {s s' : Text} (hn : 0 ≤ n ∧ n < 100) (hn' : 0 ≤ n' ∧ n' < 100)
    (h : zeroPadded 2 n ++ s = zeroPadded 2 n' ++ s') : n = n' ∧ s = s' := by
  have hl := (length_zeroPadded hn.1 hn.2).trans (length_zeroPadded hn'.1 hn'.2).symm
  obtain ⟨hz, hs⟩ := List.append_inj h hl
  exact ⟨zeroPadded_injective hz, hs⟩

theorem Moment.text_injective {t t' : Moment} (h : t.1.text = t'.1.text) : t = t' := by
  have bounds (c : Civil) (hc : c.Valid) : (0 ≤ c.month ∧ c.month < 100) ∧ (0 ≤ c.day ∧ c.day < 100) ∧
      (0 ≤ c.hour ∧ c.hour < 100) ∧ (0 ≤ c.minute ∧ c.minute < 100) ∧ 0 ≤ c.second ∧ c.second < 100 := by
    have := hc.month
    have := hc.day
    have := monthLength_le c.year c.month
    have := hc.hour
    have := hc.minute
    have := hc.second
    omega
  obtain ⟨⟨y, m, d, hh, mi, s⟩, hv⟩ := t
  obtain ⟨⟨y', m', d', hh', mi', s'⟩, hv'⟩ := t'
  obtain ⟨bm, bd, bh, bmi, bs⟩ := bounds _ hv
  obtain ⟨bm', bd', bh', bmi', bs'⟩ := bounds _ hv'
  have hl (n n' : Int) (hn : 0 ≤ n ∧ n < 100) (hn' : 0 ≤ n' ∧ n' < 100) :
      (zeroPadded 2 n).length = (zeroPadded 2 n').length :=
    (length_zeroPadded hn.1 hn.2).trans (length_zeroPadded hn'.1 hn'.2).symm
  -- the year is what stands before the last 16 letters
  obtain ⟨hyear, hrest⟩ := List.append_inj' h (by
    simp only [List.length_cons, List.length_append, hl _ _ bm bm', hl _ _ bd bd', hl _ _ bh bh',
      hl _ _ bmi bmi', hl _ _ bs bs'])
  obtain ⟨rfl, hrest⟩ := zeroPadded_append bm bm' (List.cons_injective hrest)
  obtain ⟨rfl, hrest⟩ := zeroPadded_append bd bd' (List.cons_injective hrest)
  obtain ⟨rfl, hrest⟩ := zeroPadded_append bh bh' (List.cons_injective hrest)
  obtain ⟨rfl, hrest⟩ := zeroPadded_append bmi bmi' (List.cons_injective hrest)
  obtain ⟨rfl, -⟩ := zeroPadded_append bs bs' (List.cons_injective hrest)
  obtain rfl := zeroPadded_injective hyear
  rfl

/-- What `iso_time` prints is the date and time of day of the second, none is printed
alike, and a later second is the later read from the year down. -/
theorem isoTime_gregorian :
    (∀ secs, IsI64 secs → ∃ t : Moment, civil secs = some t.1 ∧
      isoTime secs = some (String.ofList t.1.text) ∧ t.1.seconds = secs) ∧
    (∀ secs secs', IsI64 secs → IsI64 secs' → isoTime secs = isoTime secs' → secs = secs') ∧
    ∀ secs secs' c c', IsI64 secs → IsI64 secs' → civil secs = some c → civil secs' = some c' →
      (secs < secs' ↔ c.tuple < c'.tuple) := by
  have hprint (secs : Int) (h : IsI64 secs) : ∃ t : Moment, civil secs = some t.1 ∧
      isoTime secs = some (String.ofList t.1.text) ∧ t.1.seconds = secs := by
    obtain ⟨hvalid, hsecs⟩ := civilOf_spec secs
    refine ⟨⟨civilOf secs, hvalid⟩, civil_eq h, ?_, hsecs⟩
    rw [isoTime, civil_eq h]
    rfl
  refine ⟨hprint, ?_, ?_⟩
  · intro secs secs' h h' heq
    obtain ⟨t, -, ht, rfl⟩ := hprint secs h
    obtain ⟨t', -, ht', rfl⟩ := hprint secs' h'
    rw [ht, ht', Option.some.injEq] at heq
    rw [Moment.text_injective (String.ofList_injective heq)]
  · intro secs secs' c c' h h' hc hc'
    obtain ⟨t, ht, -, rfl⟩ := hprint secs h
    obtain ⟨t', ht', -, rfl⟩ := hprint secs' h'
    rw [ht, Option.some.injEq] at hc
    rw [ht', Option.some.injEq] at hc'
    rw [← hc, ← hc']
    exact Moment.lt_iff t t'

end BtrfsPeek

import Mathlib.Tactic.Ring
import ScalarLang.Decimal.Shortest

/-!
# Rounding sees nothing but the value

The float nearest to a quotient is computed from a numerator and a denominator, and a
decimal value is given by digits and an exponent. Neither choice matters: quotients that
are equal round alike (`nearest_congr`), and so zeros may be moved from the digits of a
decimal value to its exponent (`scaled_mul_pow`). A whole number of units that some
float has rounds to that float (`nearest_units`), so that the exact decimal value of a
float is read as this float, and with it the value with the fewest digits, which is
either found to be read as the float or is the exact one (`scaled_shortest`).

Values far outside the range of floats are settled by the number of their digits before
any power is computed. What is settled so is what the powers would have given
(`scaledDigits_eq`).

## Main results

* `scaledDigits_eq`: the value of digits in a text is that of the number they denote.
* `scaled_shortest`: the value with the fewest digits is read as the float
  it was made for.
-/

namespace ScalarLang.Decimal

/-! ## Quotients -/

private theorem roundDiv_mul_right (num den : Nat) {k : Nat} (hk : 0 < k) :
    roundDiv (num * k) (den * k) = roundDiv num den := by
  have hdiv : num * k / (den * k) = num / den := Nat.mul_div_mul_right num den hk
  have hmod : num * k % (den * k) = num % den * k := Nat.mul_mod_mul_right k num den
  have hbelow : 2 * (num % den * k) < den * k ↔ 2 * (num % den) < den := by
    rw [← Nat.mul_assoc]
    exact Nat.mul_lt_mul_right hk
  have habove : den * k < 2 * (num % den * k) ↔ den < 2 * (num % den) := by
    rw [← Nat.mul_assoc]
    exact Nat.mul_lt_mul_right hk
  simp only [roundDiv, hdiv, hmod, hbelow, habove]

private theorem nearest_mul_right (num den : Nat) {k : Nat} (hk : 0 < k) :
    nearest (num * k) (den * k) = nearest num den := by
  have hdiv : num * k / (den * k) = num / den := Nat.mul_div_mul_right num den hk
  have hswap (e : Nat) : den * k * Nat.pow 2 e = den * Nat.pow 2 e * k :=
    Nat.mul_right_comm ..
  simp only [nearest, hdiv, hswap, roundDiv_mul_right num _ hk]

/-- Equal quotients round alike. -/
theorem nearest_congr {num den num' den' : Nat} (hden : 0 < den) (hden' : 0 < den')
    (h : num * den' = num' * den) : nearest num den = nearest num' den' := by
  calc nearest num den
      = nearest (num * den') (den * den') := (nearest_mul_right num den hden').symm
    _ = nearest (num' * den) (den' * den) := by rw [h, Nat.mul_comm den]
    _ = nearest num' den' := nearest_mul_right num' den' hden

/-- The units of a float round to the float. -/
theorem nearest_units {bits : Nat} (h : bits ≤ infinityBits) :
    nearest (units bits) 1 = bits := by
  have hstride : stride = 2 ^ 52 := rfl
  have hmin : min bits infinityBits = bits := Nat.min_eq_left h
  by_cases hsmall : bits < stride
  · -- below the first stride the units are the magnitude itself
    have hunits : units bits = bits := by simp [units, Nat.div_eq_of_lt hsmall]
    have hlog : bits.log2 - 52 = 0 := by
      rcases Nat.eq_zero_or_pos bits with rfl | hpos
      · rfl
      · have hlt : bits.log2 < 52 := (Nat.log2_lt (by omega)).mpr (by omega)
        omega
    have hround : roundDiv bits 1 = bits := by
      simpa using roundDiv_of_dvd Nat.one_pos bits
    simp [nearest, hunits, hlog, hround, hmin]
  · -- beyond it a magnitude has a full significand, which the logarithm finds again
    have hq : 1 ≤ bits / stride := (Nat.one_le_div_iff (by omega)).mpr (by omega)
    obtain ⟨e, he⟩ : ∃ e, bits / stride = e + 1 := ⟨bits / stride - 1, by omega⟩
    have hsplit : bits = (e + 1) * stride + bits % stride := by
      rw [← he, Nat.mul_comm]
      exact (Nat.div_add_mod bits stride).symm
    have hmod : bits % stride < stride := Nat.mod_lt bits (by omega)
    obtain ⟨m, hm⟩ : ∃ m, bits = e * stride + m := ⟨stride + bits % stride, by
      rw [Nat.add_one_mul] at hsplit; omega⟩
    rw [Nat.add_one_mul] at hsplit
    have hunits : units bits = m * 2 ^ e := by
      have hm' : bits - e * stride = m := by omega
      simp only [units, he, Nat.add_sub_cancel, hm']
      rfl
    have hlow : 2 ^ (52 + e) ≤ m * 2 ^ e := by
      rw [Nat.pow_add]
      exact Nat.mul_le_mul_right _ (by omega)
    have hhigh : m * 2 ^ e < 2 ^ (53 + e) := by
      rw [Nat.pow_add]
      exact Nat.mul_lt_mul_of_pos_right (by omega) (Nat.two_pow_pos e)
    have hne : m * 2 ^ e ≠ 0 := by
      have := Nat.two_pow_pos (52 + e)
      omega
    have hlog : (m * 2 ^ e).log2 = 52 + e := by
      have h₁ : 52 + e ≤ (m * 2 ^ e).log2 := (Nat.le_log2 hne).mpr hlow
      have h₂ : (m * 2 ^ e).log2 < 53 + e := (Nat.log2_lt hne).mpr hhigh
      omega
    have hround : roundDiv (m * 2 ^ e) (1 * Nat.pow 2 e) = m := by
      rw [Nat.one_mul]
      exact roundDiv_of_dvd (Nat.two_pow_pos e) m
    rw [hunits, nearest, Nat.div_one, hlog, Nat.add_sub_cancel_left, hround, ← hm, hmin]

/-! ## Decimal values -/

private theorem ten_pow_pos (n : Nat) : 0 < 10 ^ n := Nat.pow_pos (by omega)

/-- A power of ten has more than three binary digits for each of its zeros. -/
theorem two_pow_le_ten_pow {m n : Nat} (h : m ≤ 3 * n) : 2 ^ m ≤ 10 ^ n := by
  calc 2 ^ m ≤ 2 ^ (3 * n) := Nat.pow_le_pow_right (by omega) h
    _ = 8 ^ n := Nat.pow_mul 2 3 n
    _ ≤ 10 ^ n := Nat.pow_le_pow_left (by omega) n

/-- The value of digits and an exponent as one quotient, whatever the sign
of the exponent. -/
theorem scaled_eq (digits : Nat) (exponent : Int) :
    scaled digits exponent =
      nearest (digits * 10 ^ exponent.toNat * one) (10 ^ (-exponent).toNat) := by
  unfold scaled
  split
  · have hzero : (-exponent).toNat = 0 := by omega
    rw [hzero]
    rfl
  · have hzero : exponent.toNat = 0 := by omega
    rw [hzero, Nat.pow_zero, Nat.mul_one]
    rfl

/-- Zeros at the end of the digits count for the exponent. -/
theorem scaled_mul_pow (digits k : Nat) (exponent : Int) :
    scaled (digits * 10 ^ k) exponent = scaled digits (exponent + k) := by
  rw [scaled_eq, scaled_eq]
  refine nearest_congr (ten_pow_pos _) (ten_pow_pos _) ?_
  have hexp : k + exponent.toNat + (-(exponent + k)).toNat =
      (exponent + k).toNat + (-exponent).toNat := by omega
  calc digits * 10 ^ k * 10 ^ exponent.toNat * one * 10 ^ (-(exponent + k)).toNat
      = digits * one * 10 ^ (k + exponent.toNat + (-(exponent + k)).toNat) := by
        rw [Nat.pow_add, Nat.pow_add]; ring
    _ = digits * 10 ^ (exponent + k).toNat * one * 10 ^ (-exponent).toNat := by
        rw [hexp, Nat.pow_add]; ring

private theorem scaled_zero (exponent : Int) : scaled 0 exponent = 0 := by
  have hround (den : Nat) : roundDiv 0 den = 0 := by
    rcases Nat.eq_zero_or_pos den with rfl | h
    · rfl
    · simp [roundDiv, h]
  simp [scaled_eq, nearest, hround]

/-- The float nearest to a value is at most infinite. -/
theorem scaled_le (digits : Nat) (exponent : Int) :
    scaled digits exponent ≤ infinityBits := by
  rw [scaled_eq]
  exact Nat.min_le_right ..

/-! ## Values out of range -/

/-- One is a power of two. The exponent is a variable, as no proof is to
compute the power. -/
theorem exists_one_eq : ∃ p, p = 1074 ∧ one = 2 ^ p := by
  refine ⟨1074, rfl, ?_⟩
  unfold one
  generalize 1074 = p
  rfl

/-- A value that has so many zeros behind its point is nearest to zero. -/
theorem scaled_eq_zero {digits length : Nat} {exponent : Int}
    (hdigits : digits < 10 ^ length) (h : length + exponent < -400) :
    scaled digits exponent = 0 := by
  obtain ⟨p, hp, hone⟩ := exists_one_eq
  obtain ⟨k, rfl⟩ : ∃ k : Nat, exponent = -k := ⟨(-exponent).toNat, by omega⟩
  have hexp : (-(k : Int)).toNat = 0 := by omega
  have hden : (- -(k : Int)).toNat = k := by omega
  have hunit : 2 * one ≤ 10 ^ (k - length) := by
    rw [hone, ← Nat.pow_succ']
    exact two_pow_le_ten_pow (by omega)
  have hsmall : 2 * (digits * one) < 10 ^ k := by
    calc 2 * (digits * one) = digits * (2 * one) := Nat.mul_left_comm ..
      _ ≤ digits * 10 ^ (k - length) := Nat.mul_le_mul_left digits hunit
      _ < 10 ^ length * 10 ^ (k - length) :=
        Nat.mul_lt_mul_of_pos_right hdigits (ten_pow_pos _)
      _ = 10 ^ k := by rw [← Nat.pow_add, Nat.add_sub_cancel' (by omega)]
  have hdiv : digits * one / 10 ^ k = 0 := Nat.div_eq_of_lt (by omega)
  have hmod : digits * one % 10 ^ k = digits * one := Nat.mod_eq_of_lt (by omega)
  have hround : roundDiv (digits * one) (10 ^ k) = 0 := by
    simp [roundDiv, hdiv, hmod, hsmall]
  rw [scaled_eq, hexp, hden, Nat.pow_zero, Nat.mul_one, nearest, hdiv]
  simp [hround]

/-- A value that has so many digits before its point is nearest to infinity. -/
theorem scaled_eq_infinityBits {digits length : Nat} {exponent : Int}
    (hdigits : 10 ^ length ≤ digits) (h : 400 ≤ length + exponent) :
    scaled digits exponent = infinityBits := by
  obtain ⟨p, hp, hone⟩ := exists_one_eq
  obtain ⟨n, hn⟩ : ∃ n : Nat, length + exponent.toNat = n + (-exponent).toNat ∧
      400 ≤ n :=
    ⟨(length + exponent).toNat, by omega, by omega⟩
  obtain ⟨m, hm⟩ : ∃ m, m = 1200 := ⟨_, rfl⟩
  have hden := ten_pow_pos (-exponent).toNat
  have hlarge : 2 ^ (m + p) ≤ digits * 10 ^ exponent.toNat * one / 10 ^
      (-exponent).toNat := by
    rw [Nat.le_div_iff_mul_le hden, Nat.pow_add, ← hone]
    calc 2 ^ m * one * 10 ^ (-exponent).toNat
        ≤ 10 ^ n * one * 10 ^ (-exponent).toNat :=
          Nat.mul_le_mul_right _
            (Nat.mul_le_mul_right one (two_pow_le_ten_pow (by omega)))
      _ = 10 ^ (length + exponent.toNat) * one := by
          rw [hn.1, Nat.pow_add, Nat.mul_right_comm]
      _ ≤ digits * 10 ^ exponent.toNat * one := by
          rw [Nat.pow_add]
          exact Nat.mul_le_mul_right one (Nat.mul_le_mul_right _ hdigits)
  have hne := Nat.ne_of_gt (Nat.lt_of_lt_of_le (Nat.two_pow_pos _) hlarge)
  have hlog := (Nat.le_log2 hne).mpr hlarge
  have hover : infinityBits ≤
      ((digits * 10 ^ exponent.toNat * one / 10 ^ (-exponent).toNat).log2 - 52) *
        stride :=
    Nat.mul_le_mul_right stride (by omega)
  rw [scaled_eq, nearest]
  exact Nat.min_eq_right (by omega)

/-! ## Digits in a text -/

theorem ofDigitChars_cons_zero (ds : List Char) :
    Nat.ofDigitChars 10 ('0' :: ds) 0 = Nat.ofDigitChars 10 ds 0 := rfl

private theorem ofDigitChars_dropWhile (ds : List Char) :
    Nat.ofDigitChars 10 (ds.dropWhile (· == '0')) 0 = Nat.ofDigitChars 10 ds 0 := by
  induction ds with
  | nil => rfl
  | cons d ds ih =>
      by_cases hd : d = '0'
      · subst hd
        exact ih
      · simp [hd]

theorem toNat_of_isDigit {c : Char} (h : c.isDigit = true) :
    48 ≤ c.toNat ∧ c.toNat ≤ 57 := by
  rw [Char.isDigit, Bool.and_eq_true, decide_eq_true_eq, decide_eq_true_eq] at h
  exact ⟨UInt32.le_iff_toNat_le.mp h.1, UInt32.le_iff_toNat_le.mp h.2⟩

theorem ofDigitChars_cons (d : Char) (ds : List Char) :
    Nat.ofDigitChars 10 (d :: ds) 0 =
      10 ^ ds.length * (d.toNat - 48) + Nat.ofDigitChars 10 ds 0 := by
  have hfirst : Nat.ofDigitChars 10 (d :: ds) 0 =
      Nat.ofDigitChars 10 ds (d.toNat - 48) := by
    rw [Nat.ofDigitChars_cons, Nat.mul_zero, Nat.zero_add]
    rfl
  rw [hfirst, Nat.ofDigitChars_eq_ofDigitChars_zero]

private theorem ofDigitChars_lt {ds : List Char} (hds : ∀ d ∈ ds, d.isDigit = true) :
    Nat.ofDigitChars 10 ds 0 < 10 ^ ds.length := by
  induction ds with
  | nil => exact Nat.one_pos
  | cons d ds ih =>
      have hd := toNat_of_isDigit (hds d List.mem_cons_self)
      have hrest := ih fun x hx => hds x (List.mem_cons_of_mem d hx)
      have hhead : 10 ^ ds.length * (d.toNat - 48) ≤ 10 ^ ds.length * 9 :=
        Nat.mul_le_mul_left _ (by omega)
      rw [ofDigitChars_cons, List.length_cons, Nat.pow_succ]
      omega

/-- Settling values far out of range first makes no difference. -/
theorem scaledDigits_eq {ds : List Char} (hds : ∀ d ∈ ds, d.isDigit = true)
    (exponent : Int) :
    scaledDigits ds exponent = scaled (Nat.ofDigitChars 10 ds 0) exponent := by
  have hall : ∀ d ∈ ds.dropWhile (· == '0'), d.isDigit = true :=
    fun d hd => hds d ((List.dropWhile_sublist _).mem hd)
  have hhead := List.head?_dropWhile_not (· == '0') ds
  rw [← ofDigitChars_dropWhile]
  unfold scaledDigits
  cases hs : ds.dropWhile (· == '0') with
  | nil => simp [Nat.ofDigitChars_nil, scaled_zero]
  | cons d rest =>
      rw [hs] at hall hhead
      have hzero : d ≠ '0' := by simpa using hhead
      have hd := toNat_of_isDigit (hall d List.mem_cons_self)
      have hne : d.toNat ≠ 48 := fun h => hzero (Char.toNat_inj.mp h)
      have hhigh := ofDigitChars_lt hall
      have hlow : 10 ^ rest.length ≤ Nat.ofDigitChars 10 (d :: rest) 0 := by
        have hmul : 10 ^ rest.length * 1 ≤ 10 ^ rest.length * (d.toNat - 48) :=
          Nat.mul_le_mul_left _ (by omega)
        rw [ofDigitChars_cons]
        omega
      simp only [List.isEmpty_cons, Bool.false_or, decide_eq_true_eq]
      split
      · exact (scaled_eq_zero hhigh (by assumption)).symm
      split
      · exact (scaled_eq_infinityBits hlow
          (by simp only [List.length_cons] at *; omega)).symm
      · rfl

/-! ## The value with the fewest digits -/

/-- A neighbour of a quotient that is chosen is read as the float it was chosen for. -/
theorem scaled_of_between? {bits num den : Nat} {exponent : Int} {v : Numeral}
    (h : between? bits exponent num den = some v) :
    scaled v.digits v.exponent = bits := by
  have hreads : v.readsAs bits = true := by
    unfold between? at h
    simp only at h
    split at h
    · split at h <;> simp_all
    · simp_all
    · simp_all
    · cases h
  simpa [Numeral.readsAs] using hreads

/-- The exact value of a float is read as the float. -/
theorem scaled_exact {bits : Nat} (h : bits ≤ infinityBits) :
    scaled (exact (units bits)).digits (exact (units bits)).exponent = bits := by
  obtain ⟨p, hp, hone⟩ := exists_one_eq
  have hexact : exact (units bits) = ⟨units bits * 5 ^ p, -(p : Int)⟩ := by
    rw [exact, ← hp, Numeral.mk.injEq]
    exact ⟨rfl, by omega⟩
  have hzero : (-(p : Int)).toNat = 0 := by omega
  have hp' : (- -(p : Int)).toNat = p := by omega
  have hten : 10 ^ p = 5 ^ p * 2 ^ p := by rw [← Nat.mul_pow]
  rw [hexact, scaled_eq]
  dsimp only
  rw [hzero, hp', Nat.pow_zero, Nat.mul_one, hone, Nat.mul_assoc, ← hten]
  calc nearest (units bits * 10 ^ p) (10 ^ p)
      = nearest (units bits) 1 := nearest_congr (ten_pow_pos p) Nat.one_pos (by omega)
    _ = bits := nearest_units h

/-- The value with the fewest digits is read as the float that it was made for. -/
theorem scaled_shortest {bits : Nat} (h : bits ≤ infinityBits) :
    scaled (shortest bits).digits (shortest bits).exponent = bits := by
  unfold shortest
  cases hfound : List.findSome? (neighbour? bits) _ with
  | none => exact scaled_exact h
  | some v =>
      obtain ⟨n, -, hn⟩ := List.exists_of_findSome?_eq_some hfound
      exact scaled_of_between? hn

end ScalarLang.Decimal

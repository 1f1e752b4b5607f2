import Mathlib
import FiniteRings.Evaluation.Ring
import FiniteRings.Proofs.Arith.Inverse

/-!
# The integers modulo `n`, plain and as residues

An evaluator has two rings for the integers modulo `n`. `NumericRing.mod n` computes on plain
integers in `[0, n)` and inverts by the extended algorithm of Euclid; `NumericRing.residues n`
computes on `IntResidue`s and inverts by Euler's theorem. Read in `ZMod n`, both compute the same
classes: sums, differences, products and negations reduce the same integer, powers are powers of
the same class, and each inverse is the inverse of the class of the divisor
(`NumericRing.modInverse_eq_ok`, `Arith.modInverse_eq_ok`), which is unique.

So for every `n ≥ 2` the two rings give the same residue, and fail with a division by zero for
the same divisors and the same powers (`mod_agrees_residues`). They part at `0 ^ 0` only: the
plain ring answers one and the residues refuse. At `n = 1` they part more: the plain ring divides
zero by zero and answers zero, where the residues report a division by zero.
-/

namespace FiniteRings

/-- Two answers agree: the plain integer is the residue of the residue class, which has modulus
`n`, or both are a division by zero. -/
def SameAnswer (n : Int) : Outcome Int → Outcome Scalar → Prop
  | .ok c, .ok x => ∃ y : IntResidue, x = .residue y ∧ y.modulus = n ∧ y.residue = c
  | .error e, .error e' => e.kind = .zeroDivision ∧ e'.kind = .zeroDivision
  | _, _ => False

/-! ### Residues of one modulus -/

namespace IntResidue

theorem value_residue {x y : IntResidue} (h : y.modulus = x.modulus) :
    x.value (.residue y) = .ok y.residue := by
  rw [value, if_pos h]

theorem add_residue {x y : IntResidue} (h : y.modulus = x.modulus) :
    x.add (.residue y) = .ok (x.withValue (x.residue + y.residue)) := by
  rw [add, value_residue h]
  rfl

theorem sub_residue {x y : IntResidue} (h : y.modulus = x.modulus) :
    x.sub (.residue y) = .ok (x.withValue (x.residue - y.residue)) := by
  rw [sub, value_residue h]
  rfl

theorem mul_residue {x y : IntResidue} (h : y.modulus = x.modulus) :
    x.mul (.residue y) = .ok (x.withValue (x.residue * y.residue)) := by
  rw [mul, value_residue h]
  rfl

/-- A residue of zero has no power of exponent zero and no negative power. -/
theorem pow_of_residue_eq_zero {x : IntResidue} (h : x.residue = 0) (e : Int) :
    x.pow e = if e = 0 then .error .zeroToTheZero
      else if e < 0 then .error .zeroDivisionInRing else .ok (x.withValue 0) := by
  simp only [pow, h, ↓reduceIte]
  by_cases h0 : e = 0
  · simp only [h0, ↓reduceIte]
    rfl
  · by_cases hneg : e < 0
    · simp only [h0, hneg, ↓reduceIte]
      rfl
    · simp only [h0, hneg, ↓reduceIte]
      rfl

/-- A nonzero residue is raised by square-and-multiply, after inverting for a negative
exponent. -/
theorem pow_of_residue_ne_zero {x : IntResidue} (h : x.residue ≠ 0) (e : Int) :
    x.pow e = (fun b : IntResidue =>
        x.withValue (Arith.modPowAcc (1 % x.modulus) b.residue e.natAbs x.modulus)) <$>
      (if e < 0 then x.recip else .ok x) := by
  simp only [pow, h, ↓reduceIte]
  split <;> rfl

section Modulus

variable {n : Int} (hn : 0 < n) {x : IntResidue}

theorem withValue_eq_reduce (hx : x.modulus = n) (v : Int) : x.withValue v = reduce v n hn := by
  obtain ⟨m, r, hm, h0, hlt⟩ := x
  subst hx
  rfl

theorem reduce_residue_eq (hx : x.modulus = n) : reduce x.residue n hn = x := by
  obtain ⟨m, r, hm, h0, hlt⟩ := x
  subst hx
  simp only [reduce, Int.emod_eq_of_lt h0 hlt]

/-- The inverse of a residue is the class of `Arith.modInverse`. -/
theorem recip_eq (hx : x.modulus = n) :
    x.recip = (fun j => reduce j n hn) <$> Arith.modInverse x.residue n := by
  rw [recip, hx]
  congr 1
  funext j
  exact withValue_eq_reduce hn hx j

/-- A quotient multiplies by the inverse of the divisor's class. -/
theorem div_residue (hx : x.modulus = n) {y : IntResidue} (hy : y.modulus = n) :
    x.div (.residue y) = (fun z : IntResidue => reduce (x.residue * z.residue) n hn) <$> y.recip := by
  rw [div, value_residue (hy.trans hx.symm)]
  show (x.withValue y.residue).recip >>= (fun z => pure (x.withValue (x.residue * z.residue))) = _
  rw [withValue_eq_reduce hn hx, reduce_residue_eq hn hy, ← bind_pure_comp]
  congr 1
  funext z
  rw [withValue_eq_reduce hn hx]

/-- A nonzero residue modulo `n` is raised by square-and-multiply modulo `n`, after inverting
for a negative exponent. -/
theorem pow_of_ne_zero (hx : x.modulus = n) (h : x.residue ≠ 0) (e : Int) :
    x.pow e = (fun b : IntResidue =>
        reduce (Arith.modPowAcc (1 % n) b.residue e.natAbs n) n hn) <$>
      (if e < 0 then x.recip else .ok x) := by
  rw [pow_of_residue_ne_zero h, hx]
  congr 1
  funext b
  exact withValue_eq_reduce hn hx _

end Modulus

end IntResidue

/-! ### The two rings operation by operation -/

namespace NumericRing

section Plain

variable {n : Int} (hn : 0 < n)

/-- A quotient of residues asks whether the divisor is zero, then whether it is a unit. -/
theorem residues_div (x y : IntResidue) :
    (residues n hn).div (.residue x) (.residue y) =
      if y.isZero then .error .zeroDivisionInRing
      else if y.isUnit then Scalar.residue <$> x.div (.residue y)
      else .error (.noModularInverse (toString y.residue) n) := by
  simp only [NumericRing.div, Scalar.divisor, Scalar.Divisor.isZero, Scalar.Divisor.isUnit,
    Scalar.trueDiv, bind, Except.bind]
  by_cases hz : y.isZero = true
  · simp only [hz, ↓reduceIte]
    rfl
  · by_cases hu : y.isUnit = true
    · simp only [hz, hu, Bool.false_eq_true, ↓reduceIte, Bool.not_true]
    · simp only [hz, hu, Bool.false_eq_true, ↓reduceIte, Bool.not_false]
      rfl

/-- A power in the plain ring inverts first for a negative exponent. -/
theorem mod_pow (a e : Int) :
    (mod n hn).pow a e =
      (if e < 0 then modInverse a n else .ok a) >>= fun b => Arith.modPow b e.natAbs n := by
  simp only [NumericRing.pow]
  split <;> rfl

theorem sameAnswer_reduce (v : Int) :
    SameAnswer n (.ok (v % n)) (.ok (.residue (IntResidue.reduce v n hn))) :=
  ⟨_, rfl, rfl, rfl⟩

end Plain

section Classes

variable {N : Nat} (hN : (0 : Int) < N)
include hN

/-- A residue in `[0, N)` agrees with every integer of its class. -/
theorem sameAnswer_of_cast {c v : Int} (hc : 0 ≤ c ∧ c < N) (h : (c : ZMod N) = (v : ZMod N)) :
    SameAnswer N (.ok c) (.ok (.residue (IntResidue.reduce v N hN))) := by
  refine ⟨_, rfl, rfl, ?_⟩
  show v % N = c
  rw [(ZMod.intCast_eq_intCast_iff' v c N).1 h.symm, Int.emod_eq_of_lt hc.1 hc.2]

/-- **Inverses by the extended algorithm.**  An integer prime to `N` has an inverse in
`[0, N)`: the algorithm on `a mod N` and `N` ends at `d = ±1`, and its coefficient of `a`
times `d` inverts `a`. -/
theorem modInverse_eq_ok {a : Int} (hcop : Int.gcd a N = 1) :
    ∃ i, modInverse a N = .ok i ∧ 0 ≤ i ∧ i < N ∧ (a : ZMod N) * (i : ZMod N) = 1 := by
  obtain ⟨d, s, t, hext, hbez, hgcd⟩ := Arith.extGcd_eq_ok (a % N) N (by omega)
  rw [Int.gcd_emod, hcop] at hgcd
  have hdd : d * d = 1 := by rw [← Int.natAbs_mul_self, hgcd]; rfl
  refine ⟨(s * d) % N, ?_, Int.emod_nonneg _ (by omega), Int.emod_lt_of_pos _ hN, ?_⟩
  · simp [modInverse, hext, hgcd, bind, Except.bind, pure, Except.pure]
  · -- `N` is zero in `ZMod N`, so the identity says `a * s = d`
    have hcast := congrArg (fun z : Int => (z : ZMod N)) hbez
    simp only [Int.cast_add, Int.cast_mul, ZMod.intCast_mod, Int.cast_natCast, ZMod.natCast_self,
      zero_mul, add_zero] at hcast
    rw [ZMod.intCast_mod, Int.cast_mul, ← mul_assoc, hcast, ← Int.cast_mul, hdd, Int.cast_one]

/-- An integer that shares a factor with `N` has no inverse. -/
theorem modInverse_eq_error {a : Int} (hcop : Int.gcd a N ≠ 1) :
    modInverse a N = .error (.noModularInverse (toString a) N) := by
  obtain ⟨d, s, t, hext, -, hgcd⟩ := Arith.extGcd_eq_ok (a % N) N (by omega)
  rw [Int.gcd_emod] at hgcd
  simp [modInverse, hext, hgcd, hcop, bind, Except.bind, throw, throwThe, MonadExceptOf.throw]

end Classes

/-! ### Agreement -/

section Agree

variable {N : Nat} (hN : (0 : Int) < N)
include hN

theorem sameAnswer_withValue {x : IntResidue} (hx : x.modulus = N) (v : Int) :
    SameAnswer N (.ok (v % N)) (Scalar.residue <$> Except.ok (x.withValue v)) := by
  rw [IntResidue.withValue_eq_reduce hN hx]
  exact sameAnswer_reduce hN v

/-- A quotient fails in the plain ring exactly for the divisors that share a factor with `N`. -/
theorem div_fails_iff (a b : Int) :
    (∃ err, (mod N hN).div a b = .error err) ↔ Int.gcd b N ≠ 1 := by
  show (∃ err, (fun i => (a * i) % N) <$> modInverse b N = .error err) ↔ _
  by_cases hcop : Int.gcd b N = 1
  · obtain ⟨i, hi, -⟩ := modInverse_eq_ok hN hcop
    rw [hi]
    simp [hcop, Functor.map, Except.map]
  · rw [modInverse_eq_error hN hcop]
    exact ⟨fun _ => hcop, fun _ => ⟨_, rfl⟩⟩

/-- A power fails in the plain ring exactly for a negative exponent of a base that shares a
factor with `N`. -/
theorem pow_fails_iff (a e : Int) :
    (∃ err, (mod N hN).pow a e = .error err) ↔ e < 0 ∧ Int.gcd a N ≠ 1 := by
  rw [mod_pow]
  by_cases he : e < 0
  · by_cases hcop : Int.gcd a N = 1
    · obtain ⟨i, hi, -⟩ := modInverse_eq_ok hN hcop
      rw [if_pos he, hi]
      simp [Arith.modPow_of_ne_zero hN.ne', hcop, bind, Except.bind]
    · rw [if_pos he, modInverse_eq_error hN hcop]
      exact ⟨fun _ => ⟨he, hcop⟩, fun _ => ⟨_, rfl⟩⟩
  · rw [if_neg he]
    simp [Arith.modPow_of_ne_zero hN.ne', he, bind, Except.bind]

variable (h2 : 2 ≤ N)
include h2

/-- **Quotients.**  Both rings divide by the one inverse of the divisor's class, and refuse the
same divisors. -/
theorem div_agrees {x y : IntResidue} (hx : x.modulus = N) (hy : y.modulus = N) :
    SameAnswer N ((mod N hN).div x.residue y.residue)
      ((residues N hN).div (.residue x) (.residue y)) := by
  show SameAnswer N ((fun i => (x.residue * i) % N) <$> modInverse y.residue N) _
  rw [residues_div]
  by_cases hcop : Int.gcd y.residue N = 1
  · obtain ⟨i, hi, -, -, hyi⟩ := modInverse_eq_ok hN hcop
    obtain ⟨j, hj, hyj⟩ := Arith.modInverse_eq_ok h2 hcop
    have hz : y.isZero = false := by
      simp only [IntResidue.isZero, beq_eq_false_iff_ne]
      rintro h0
      rw [h0, Int.gcd_zero_left] at hcop
      omega
    have hu : y.isUnit = true := (IntResidue.isUnit_iff_gcd y).2 (hy ▸ hcop)
    rw [hi, if_neg (by simp [hz]), if_pos hu, IntResidue.div_residue hN hx hy,
      IntResidue.recip_eq hN hy, hj]
    refine sameAnswer_of_cast hN ⟨Int.emod_nonneg _ (by omega), Int.emod_lt_of_pos _ hN⟩ ?_
    -- the two inverses are inverses of one class, hence equal
    have hij : (i : ZMod N) = (j : ZMod N) :=
      left_inv_eq_right_inv (by rw [mul_comm]; exact hyi) hyj
    show ((x.residue * i % N : Int) : ZMod N) = ((x.residue * (j % N) : Int) : ZMod N)
    rw [ZMod.intCast_mod, Int.cast_mul, Int.cast_mul, ZMod.intCast_mod, hij]
  · rw [modInverse_eq_error hN hcop]
    have hu : y.isUnit = false := by
      rw [← Bool.not_eq_true, IntResidue.isUnit_iff_gcd, hy]
      exact hcop
    -- the residues refuse a zero divisor first and any other non-unit next
    by_cases hz : y.isZero = true
    · rw [if_pos hz]
      exact ⟨rfl, rfl⟩
    · rw [if_neg hz, if_neg (by simp [hu])]
      exact ⟨rfl, rfl⟩

/-- **Powers.**  Apart from `0 ^ 0`, both rings raise the same class to the same power, after
inverting it for a negative exponent, and refuse the same negative powers. -/
theorem pow_agrees {x : IntResidue} (hx : x.modulus = N) {e : Int} (h : x.residue ≠ 0 ∨ e ≠ 0) :
    SameAnswer N ((mod N hN).pow x.residue e) ((residues N hN).pow (.residue x) (.int e)) := by
  have hone : 0 ≤ Int.fmod 1 N ∧ Int.fmod 1 N < N := by
    rw [Int.fmod_eq_emod_of_nonneg _ hN.le]
    exact ⟨Int.emod_nonneg _ (by omega), Int.emod_lt_of_pos _ hN⟩
  rw [mod_pow]
  show SameAnswer N _ (Scalar.residue <$> x.pow e)
  by_cases he : e < 0
  · by_cases hcop : Int.gcd x.residue N = 1
    · have hx0 : x.residue ≠ 0 := by
        rintro h0
        rw [h0, Int.gcd_zero_left] at hcop
        omega
      obtain ⟨i, hi, -, -, hxi⟩ := modInverse_eq_ok hN hcop
      obtain ⟨j, hj, hxj⟩ := Arith.modInverse_eq_ok h2 hcop
      rw [if_pos he, hi, IntResidue.pow_of_ne_zero hN hx hx0, if_pos he, IntResidue.recip_eq hN hx,
        hj]
      show SameAnswer N (Arith.modPow i e.natAbs N) _
      rw [Arith.modPow_of_ne_zero hN.ne']
      refine sameAnswer_of_cast hN (Arith.modPowAcc_mem hN _ _ _ hone) ?_
      have hij : (i : ZMod N) = (j : ZMod N) :=
        left_inv_eq_right_inv (by rw [mul_comm]; exact hxi) hxj
      show _ = ((Arith.modPowAcc (1 % N) (j % N) e.natAbs N : Int) : ZMod N)
      simp only [Arith.modPowAcc_cast, Arith.intCast_fmod, ZMod.intCast_mod, hij]
    · rw [if_pos he, modInverse_eq_error hN hcop]
      by_cases hx0 : x.residue = 0
      · rw [IntResidue.pow_of_residue_eq_zero hx0, if_neg (by omega), if_pos he]
        exact ⟨rfl, rfl⟩
      · rw [IntResidue.pow_of_ne_zero hN hx hx0, if_pos he, IntResidue.recip_eq hN hx,
          Arith.modInverse_eq_error x.residue_nonneg hcop]
        exact ⟨rfl, rfl⟩
  · rw [if_neg he]
    show SameAnswer N (Arith.modPow x.residue e.natAbs N) _
    rw [Arith.modPow_of_ne_zero hN.ne']
    by_cases hx0 : x.residue = 0
    · -- a positive power of zero is zero
      have he0 : e.natAbs ≠ 0 := by omega
      rw [IntResidue.pow_of_residue_eq_zero hx0, if_neg (by omega), if_neg he,
        IntResidue.withValue_eq_reduce hN hx]
      refine sameAnswer_of_cast hN (Arith.modPowAcc_mem hN _ _ _ hone) ?_
      simp only [Arith.modPowAcc_cast, Arith.intCast_fmod, hx0, Int.cast_zero, zero_pow he0,
        mul_zero]
    · rw [IntResidue.pow_of_ne_zero hN hx hx0, if_neg he]
      refine sameAnswer_of_cast hN (Arith.modPowAcc_mem hN _ _ _ hone) ?_
      show _ = ((Arith.modPowAcc (1 % N) x.residue e.natAbs N : Int) : ZMod N)
      simp only [Arith.modPowAcc_cast, Arith.intCast_fmod, ZMod.intCast_mod]

/-- **Zero to the power zero.**  The plain ring answers one, and the residues refuse. -/
theorem zero_pow_zero {x : IntResidue} (h0 : x.residue = 0) :
    (mod N hN).pow x.residue 0 = .ok 1 ∧
      (residues N hN).pow (.residue x) (.int 0) = .error .zeroToTheZero := by
  refine ⟨?_, ?_⟩
  · rw [mod_pow, if_neg (lt_irrefl 0)]
    show Arith.modPow x.residue 0 N = _
    rw [Arith.modPow_of_ne_zero hN.ne', Arith.modPowAcc, if_pos rfl,
      Int.fmod_eq_emod_of_nonneg _ hN.le, Int.emod_eq_of_lt (by omega) (by omega)]
  · show Scalar.residue <$> x.pow 0 = _
    rw [IntResidue.pow_of_residue_eq_zero h0, if_pos rfl]
    rfl

end Agree

/-- What it means for the plain ring and the residues modulo `n` to agree on the residues `x`
and `y` and the exponent `e`: every operation gives the same residue or the same division by
zero, quotients and powers fail exactly where no inverse exists, and the two part at `0 ^ 0`. -/
structure ResidueRingsAgree (n : Int) (hn : 0 < n) (x y : IntResidue) (e : Int) : Prop where
  add : SameAnswer n ((mod n hn).add x.residue y.residue)
    ((residues n hn).add (.residue x) (.residue y))
  sub : SameAnswer n ((mod n hn).sub x.residue y.residue)
    ((residues n hn).sub (.residue x) (.residue y))
  mul : SameAnswer n ((mod n hn).mul x.residue y.residue)
    ((residues n hn).mul (.residue x) (.residue y))
  neg : SameAnswer n (.ok ((mod n hn).neg x.residue)) (.ok ((residues n hn).neg (.residue x)))
  div : SameAnswer n ((mod n hn).div x.residue y.residue)
    ((residues n hn).div (.residue x) (.residue y))
  div_fails_iff : (∃ err, (mod n hn).div x.residue y.residue = .error err) ↔
    Int.gcd y.residue n ≠ 1
  pow : x.residue ≠ 0 ∨ e ≠ 0 →
    SameAnswer n ((mod n hn).pow x.residue e) ((residues n hn).pow (.residue x) (.int e))
  pow_fails_iff : (∃ err, (mod n hn).pow x.residue e = .error err) ↔
    e < 0 ∧ Int.gcd x.residue n ≠ 1
  zero_pow_zero : x.residue = 0 →
    (mod n hn).pow x.residue 0 = .ok 1 ∧
      (residues n hn).pow (.residue x) (.int 0) = .error .zeroToTheZero

/-- **The two rings modulo `n` agree.**  For every modulus `n ≥ 2`, all residues `x`, `y` modulo
`n` and every exponent `e`, the plain ring on the residues and the ring of residues give the same
sum, difference, product, negation, quotient and power, refuse the same quotients and powers with
a division by zero, and differ only at `0 ^ 0`. -/
theorem mod_agrees_residues {n : Int} (hn : 0 < n) (hn1 : n ≠ 1) {x y : IntResidue}
    (hx : x.modulus = n) (hy : y.modulus = n) (e : Int) : ResidueRingsAgree n hn x y e := by
  obtain ⟨N, rfl⟩ := Int.eq_ofNat_of_zero_le hn.le
  have h2 : 2 ≤ N := by omega
  have hxy : y.modulus = x.modulus := hy.trans hx.symm
  refine ⟨?_, ?_, ?_, ?_, div_agrees hn h2 hx hy, div_fails_iff hn _ _,
    fun h => pow_agrees hn h2 hx h, pow_fails_iff hn _ _, zero_pow_zero hn h2⟩
  · show SameAnswer N _ (Scalar.residue <$> x.add (.residue y))
    rw [IntResidue.add_residue hxy]
    exact sameAnswer_withValue hn hx _
  · show SameAnswer N _ (Scalar.residue <$> x.sub (.residue y))
    rw [IntResidue.sub_residue hxy]
    exact sameAnswer_withValue hn hx _
  · show SameAnswer N _ (Scalar.residue <$> x.mul (.residue y))
    rw [IntResidue.mul_residue hxy]
    exact sameAnswer_withValue hn hx _
  · exact sameAnswer_withValue hn hx _

/-- Five and eight modulo twelve, with the exponent `-3`: five is a unit, eight is not. -/
theorem mod_agrees_residues_twelve :
    (12 : Int) ≠ 1 ∧ (IntResidue.reduce 5 12 (by decide)).modulus = 12 ∧
      (IntResidue.reduce 8 12 (by decide)).modulus = 12 ∧
      ResidueRingsAgree 12 (by decide) (IntResidue.reduce 5 12 (by decide))
        (IntResidue.reduce 8 12 (by decide)) (-3) :=
  ⟨by decide, rfl, rfl, mod_agrees_residues (n := 12) (x := IntResidue.reduce 5 12 (by decide))
    (y := IntResidue.reduce 8 12 (by decide)) (by decide) (by decide) rfl rfl (-3)⟩

end NumericRing

end FiniteRings

import Mathlib
import FiniteRings.Order
import FiniteRings.Proofs.Arith.Divisors

/-!
# Orders in a ring of residues

The order of a unit is found by trying the divisors of the number `φ` of units in increasing
order. Whatever the ring, the search is right once three facts hold of the unit `a`:

* its powers `a ^ d`, `d ≥ 1`, are computed, and are one exactly at the multiples of some
  `o ≥ 1` (`HasOrder a o`);
* `o` divides `φ`, which is Lagrange's theorem in the unit group;
* the divisors of `φ` come out in increasing order, which holds when the primality test is
  sound up to `φ` (`Arith.allDivisors_factorWith`).

Then the first divisor `d` with `a ^ d = 1` is `o` itself (`firstAnnihilating_eq`), and `order a`
returns it (`order_eq_ok`), the least `d ≥ 1` with `a ^ d = 1` (`HasOrder.isLeast`). Zero and the
residues that are no units are refused before any of this (`order_of_not_unit`).

The search for a generator scans the candidates in increasing order and keeps the first whose
order is `φ` (`firstOfOrder_eq`).
-/

namespace FiniteRings.UnitRing

open Arith

variable {α : Type} [UnitRing α] {isPrime : Nat → Bool}

/-- The exponents `d ≥ 1` at which the ring computes `a ^ d = 1`. -/
def OnePowers (a : α) : Set Nat := {d | 0 < d ∧ ∃ b, pow a d = .ok b ∧ isOne b = true}

/-- The powers `a ^ d`, `d ≥ 1`, are computed, and they are one exactly at the multiples of
`o ≥ 1`. -/
structure HasOrder (a : α) (o : Nat) : Prop where
  pos : 0 < o
  pow_isOne : ∀ d : Nat, 0 < d → ∃ b, pow a d = .ok b ∧ (isOne b = true ↔ o ∣ d)

/-- The least element of a set of exponents that are exactly the positive multiples of `o ≥ 1`
is `o`. -/
theorem isLeast_of_mem_iff {S : Set Nat} {o : Nat} (ho : 0 < o) (hS : ∀ d, d ∈ S ↔ 0 < d ∧ o ∣ d) :
    IsLeast S o :=
  ⟨(hS o).2 ⟨ho, dvd_rfl⟩, fun d hd => Nat.le_of_dvd ((hS d).1 hd).1 ((hS d).1 hd).2⟩

theorem HasOrder.mem_onePowers {a : α} {o : Nat} (h : HasOrder a o) (d : Nat) :
    d ∈ OnePowers a ↔ 0 < d ∧ o ∣ d := by
  constructor
  · rintro ⟨hd, b, hb, hone⟩
    obtain ⟨b', hb', hone'⟩ := h.pow_isOne d hd
    rw [hb] at hb'
    cases hb'
    exact ⟨hd, hone'.1 hone⟩
  · rintro ⟨hd, hdvd⟩
    obtain ⟨b, hb, hone⟩ := h.pow_isOne d hd
    exact ⟨hd, b, hb, hone.2 hdvd⟩

/-- A period of the powers is the least exponent at which they are one. -/
theorem HasOrder.isLeast {a : α} {o : Nat} (h : HasOrder a o) : IsLeast (OnePowers a) o :=
  isLeast_of_mem_iff h.pos h.mem_onePowers

/-- What `order` promises: zero and the residues that are no units are refused as zero divisors,
and a unit gets the least `d ≥ 1` with `a ^ d = 1`. -/
def OrderAnswer (a : α) (r : Outcome Int) : Prop :=
  if (isZero a || !isUnit a) = true then r = .error (.zeroDivisor (text a) (modulusText a))
  else ∃ d : Nat, r = .ok d ∧ IsLeast (OnePowers a) d

/-- A unit of a monoid with finitely many units has positive order. -/
theorem orderOf_pos_of_isUnit {M : Type} [Monoid M] [Finite Mˣ] {x : M} (h : IsUnit x) :
    0 < orderOf x := by
  rw [← h.unit_spec, orderOf_units]
  exact orderOf_pos _

/-- **Lagrange.**  The order of a unit divides the number of units. -/
theorem orderOf_dvd_card_units {M : Type} [Monoid M] {x : M} (h : IsUnit x) :
    orderOf x ∣ Nat.card Mˣ := by
  rw [← h.unit_spec, orderOf_units]
  exact orderOf_dvd_natCard _

/-! ### The search for the order -/

/-- In an increasing list of positive exponents that holds `o`, the first at which the powers are
one is `o`. -/
theorem firstAnnihilating_eq {a : α} {o : Nat} (h : HasOrder a o) :
    ∀ L : List Int, L.Pairwise (· ≤ ·) → (∀ d ∈ L, 0 < d) → (o : Int) ∈ L →
      firstAnnihilating a L = .ok (some o)
  | [], _, _, hmem => absurd hmem List.not_mem_nil
  | d :: ds, hs, hpos, hmem => by
    have hd := hpos d List.mem_cons_self
    lift d to Nat using hd.le
    obtain ⟨b, hb, hone⟩ := h.pow_isOne d (by exact_mod_cast hd)
    rw [firstAnnihilating, hb]
    by_cases hdvd : o ∣ d
    · -- `d` is a multiple of `o` and, as `o` comes at `d` or later, no larger than `o`
      have hle : (d : Int) ≤ o := by
        rcases List.mem_cons.1 hmem with h' | h'
        · exact h'.ge
        · exact List.rel_of_pairwise_cons hs h'
      have hdo : d = o := le_antisymm (by exact_mod_cast hle)
        (Nat.le_of_dvd (by exact_mod_cast hd) hdvd)
      simp [hone.2 hdvd, hdo, bind, Except.bind, pure, Except.pure]
    · have hne : (o : Int) ≠ d := fun h' => hdvd (by rw [Nat.cast_inj.1 h'])
      have hrest := firstAnnihilating_eq h ds (List.Pairwise.of_cons hs)
        (fun d' h' => hpos d' (List.mem_cons_of_mem _ h'))
        ((List.mem_cons.1 hmem).resolve_left hne)
      have hb1 : isOne b = false := Bool.eq_false_iff.2 (mt hone.1 hdvd)
      simp [hb1, hrest, bind, Except.bind]

/-- Zero and the residues that are no units are refused as zero divisors. -/
theorem order_of_not_unit {a : α} (h : (isZero a || !isUnit a) = true) :
    order isPrime a = .error (.zeroDivisor (text a) (modulusText a)) := by
  simp [order, requireUnit, h, bind, Except.bind]

/-- **The order.**  For a unit `a` whose powers are one exactly at the multiples of `o`, among
`n` units with `o ∣ n`, and a primality test sound up to `n`, `order a` is `o`. -/
theorem order_eq_ok {a : α} {n o : Nat} (hu : (isZero a || !isUnit a) = false)
    (hφ : unitCount isPrime a = .ok n) (hn : 0 < n) (hP : SoundUpTo isPrime n)
    (h : HasOrder a o) (hdvd : o ∣ n) : order isPrime a = .ok o := by
  obtain ⟨L, hL, hsorted, hmem⟩ := allDivisors_factorWith hn hP
  have hfirst := firstAnnihilating_eq h L hsorted (fun d hd => ((hmem d).1 hd).1)
    ((hmem o).2 ⟨by exact_mod_cast h.pos, by exact_mod_cast hdvd⟩)
  simp [order, requireUnit, hu, hφ, hL, hfirst, bind, Except.bind, pure, Except.pure]

/-- `order` keeps its promise for a residue that, when it is a unit, has a period dividing the
number `n` of units, with a primality test sound up to `n`. -/
theorem orderAnswer_of_hasOrder {a : α} {n : Nat} (hP : SoundUpTo isPrime n)
    (h : (isZero a || !isUnit a) = false →
      unitCount isPrime a = .ok n ∧ 0 < n ∧ ∃ o, HasOrder a o ∧ o ∣ n) :
    OrderAnswer a (order isPrime a) := by
  unfold OrderAnswer
  split
  · next hz => exact order_of_not_unit hz
  · next hz =>
    obtain ⟨hφ, hn, o, ho, hdvd⟩ := h (by simpa using hz)
    exact ⟨o, order_eq_ok (by simpa using hz) hφ hn hP ho hdvd, ho.isLeast⟩

/-! ### The search for a generator -/

/-- The scan for a generator keeps the first candidate whose residue has order `φ`, when every
candidate it meets gives a residue with an order. -/
theorem firstOfOrder_eq (φ : Int) (candidate : Nat → Bool) (make : Nat → Outcome α)
    (res : Nat → α) (ord : Nat → Int)
    (hmake : ∀ a, candidate a = true →
      make a = .ok (res a) ∧ order isPrime (res a) = .ok (ord a)) :
    ∀ count start, firstOfOrder isPrime φ candidate make count start =
      .ok (((List.range' start count).find? fun a => candidate a && ord a == φ).map res)
  | 0, _ => rfl
  | count + 1, start => by
    rw [firstOfOrder, List.range'_succ, List.find?_cons]
    by_cases hc : candidate start = true
    · obtain ⟨hm, ho⟩ := hmake start hc
      by_cases hφ : ord start = φ
      · simp [hc, hm, ho, hφ, bind, Except.bind, pure, Except.pure]
      · have hb : (ord start == φ) = false := beq_false_of_ne hφ
        simp [hc, hm, ho, hφ, hb, firstOfOrder_eq φ candidate make res ord hmake count (start + 1),
          bind, Except.bind]
    · simp [hc, firstOfOrder_eq φ candidate make res ord hmake count (start + 1)]

end FiniteRings.UnitRing

import Mathlib
import FiniteRings.Bits.Echelon
import FiniteRings.Proofs.GF2Poly.Ring

/-!
# Row reduction gives the reduced echelon form

`echelon` works on raw row integers, whose entries are their bits below the width `w`. This
module says what the two passes leave and what they keep.

* The first pass over the columns `0, …, w - 1` leaves a `Staircase`: pivot rows whose first ones
  stand at increasing columns, then rows with no one (`eliminate_staircase`). The invariant of the
  induction over the columns is that every row still to be reduced is zero in the columns already
  passed.
* The second pass clears, in every pivot row, the leading columns of the pivot rows below it and
  keeps its own leading column, so the rows end `Reduced` (`echelon_reduced`).
* Neither pass changes which vectors are orthogonal to all rows (`annihilates_echelon`), since a
  row is only ever replaced by its sum with another row.
-/

namespace FiniteRings.BitMatrix

open GF2Poly (ofBit ofBit_xor)

/-! ### Leading ones and the two forms -/

/-- The first one of `r` among the columns below `w` is at `c`. -/
def LeadsAt (w : Nat) (r : Int) (c : Nat) : Prop :=
  c < w ∧ Signed.testBit r c = true ∧ ∀ j < c, Signed.testBit r j = false

/-- `r` has no one among the columns below `w`. -/
def ZeroRow (w : Nat) (r : Int) : Prop := ∀ j < w, Signed.testBit r j = false

/-- Rows in echelon form over the columns below `w`: the rows of `pivots`, each paired with the
column of its first one, at increasing columns, and then the rows of `zeros`, which have no
one. -/
structure Staircase (w : Nat) (pivots : List (Int × Nat)) (zeros : List Int) : Prop where
  leads : ∀ p ∈ pivots, LeadsAt w p.1 p.2
  increasing : pivots.Pairwise fun p q => p.2 < q.2
  zero : ∀ z ∈ zeros, ZeroRow w z

/-- Reduced echelon form: besides, every pivot row is zero at the leading column of every later
pivot row. It is zero at those of the earlier ones already, which lie below its own. -/
structure Reduced (w : Nat) (pivots : List (Int × Nat)) (zeros : List Int) : Prop
    extends Staircase w pivots zeros where
  cleared : pivots.Pairwise fun p q => Signed.testBit p.1 q.2 = false

/-- Bit `j` of the low `w` bits of a raw row is its entry `j` when `j < w`. -/
theorem testBit_emod_two_pow (r : Int) (w j : Nat) :
    ((r % Int.pow 2 w).toNat).testBit j = (decide (j < w) && Signed.testBit r j) := by
  have hpow : Int.pow 2 w = ((2 ^ w : Nat) : Int) := by
    show (2 : Int) ^ w = _
    push_cast
    rfl
  rw [hpow]
  cases r with
  | ofNat n =>
    rw [Int.ofNat_eq_natCast, ← Int.natCast_emod, Int.toNat_natCast, Nat.testBit_mod_two_pow]
    rfl
  | negSucc n =>
    have hlt : n % 2 ^ w < 2 ^ w := Nat.mod_lt _ (Nat.two_pow_pos w)
    have hval : Int.negSucc n % ((2 ^ w : Nat) : Int) = ((2 ^ w - (n % 2 ^ w + 1) : Nat) : Int) := by
      rw [Int.negSucc_emod _ (by exact_mod_cast Nat.two_pow_pos w), ← Int.natCast_emod]
      omega
    rw [hval, Int.toNat_natCast, Nat.testBit_two_pow_sub_succ hlt, Nat.testBit_mod_two_pow]
    show _ = (decide (j < w) && !n.testBit j)
    cases decide (j < w) <;> rfl

theorem leaderOf_of_leadsAt {w c : Nat} {r : Int} (h : LeadsAt w r c) : leaderOf w r = c := by
  obtain ⟨hcw, hc, hlow⟩ := h
  have hnn : 0 ≤ r % Int.pow 2 w := Int.emod_nonneg _ (by
    show (2 : Int) ^ w ≠ 0
    positivity)
  rw [leaderOf, ← Int.toNat_of_nonneg hnn]
  apply Word.lsbPos_natCast
  · rw [testBit_emod_two_pow, hc, decide_eq_true hcw, Bool.and_true]
  · intro i hi
    rw [testBit_emod_two_pow, hlow i hi, Bool.and_false]

/-- The low `w` bits of a raw row are zero exactly when the row has no one below `w`. -/
theorem toNat_emod_two_pow_eq_zero_iff {w : Nat} {r : Int} :
    (r % Int.pow 2 w).toNat = 0 ↔ ZeroRow w r := by
  constructor
  · intro h j hj
    have := testBit_emod_two_pow r w j
    rwa [h, Nat.zero_testBit, decide_eq_true hj, Bool.true_and, eq_comm] at this
  · intro h
    apply Nat.eq_of_testBit_eq
    intro j
    rw [testBit_emod_two_pow, Nat.zero_testBit]
    by_cases hj : j < w
    · rw [h j hj, Bool.and_false]
    · rw [decide_eq_false hj, Bool.false_and]

theorem leaderOf_of_zeroRow {w : Nat} {r : Int} (h : ZeroRow w r) : leaderOf w r = -1 := by
  have hnn : 0 ≤ r % Int.pow 2 w := Int.emod_nonneg _ (by
    show (2 : Int) ^ w ≠ 0
    positivity)
  rw [leaderOf, ← Int.toNat_of_nonneg hnn, toNat_emod_two_pow_eq_zero_iff.2 h]
  rfl

/-! ### The first pass -/

/-- A pivot step picks row `k` of the rows as pivot and keeps the others, with the first row
moved into the place of the pivot. -/
theorem pivot_step (r₀ : Int) (rest : List Int) {k : Nat} (hk : k < rest.length + 1) :
    (r₀ :: rest).getD k 0 ∈ r₀ :: rest ∧
    (∀ r ∈ (if k = 0 then rest else rest.set (k - 1) r₀), r ∈ r₀ :: rest) ∧
    ∀ r ∈ r₀ :: rest, r = (r₀ :: rest).getD k 0 ∨
      r ∈ (if k = 0 then rest else rest.set (k - 1) r₀) := by
  cases k with
  | zero =>
    simp only [List.getD_cons_zero, if_true]
    exact ⟨List.mem_cons_self, fun r hr => List.mem_cons_of_mem _ hr, fun r hr => List.mem_cons.1 hr⟩
  | succ k =>
    have hk' : k < rest.length := by simpa using hk
    have hpivot : (r₀ :: rest).getD (k + 1) 0 = rest[k] := by
      simp [List.getD_eq_getElem?_getD, hk']
    simp only [Nat.add_one_ne_zero, if_false, Nat.add_sub_cancel, hpivot]
    refine ⟨List.mem_cons_of_mem _ (List.getElem_mem hk'), ?_, ?_⟩
    · intro r hr
      rcases List.mem_or_eq_of_mem_set hr with h | h
      · exact List.mem_cons_of_mem _ h
      · exact h ▸ List.mem_cons_self
    · intro r hr
      rcases List.mem_cons.1 hr with rfl | hr
      · exact Or.inr (List.mem_iff_getElem.2 ⟨k, by simpa using hk', by simp⟩)
      · obtain ⟨i, hi, rfl⟩ := List.mem_iff_getElem.1 hr
        by_cases hik : i = k
        · exact Or.inl (by simp [hik])
        · exact Or.inr (List.mem_iff_getElem.2 ⟨i, by simpa using hi,
            List.getElem_set_ne (Ne.symm hik) _⟩)

/-- **The first pass, column by column.**  On rows that have no one before column `c`, the pass
over the columns `c, …, c + k - 1` leaves pivot rows with increasing leading columns from `c` on,
and then rows with no one before `c + k`. -/
theorem eliminate_range' (k : Nat) : ∀ (c : Nat) (rows : List Int),
    (∀ r ∈ rows, ∀ j < c, Signed.testBit r j = false) →
    ∃ pivots zeros, eliminate (List.range' c k) rows = pivots.map Prod.fst ++ zeros ∧
      Staircase (c + k) pivots zeros ∧ ∀ p ∈ pivots, c ≤ p.2 := by
  induction k with
  | zero =>
    intro c rows hrows
    exact ⟨[], rows, by simp [eliminate], ⟨by simp, by simp, hrows⟩, by simp⟩
  | succ k ih =>
    intro c rows hrows
    rw [List.range'_succ]
    cases rows with
    | nil => exact ⟨[], [], by simp [eliminate], ⟨by simp, by simp, by simp⟩, by simp⟩
    | cons r₀ rest =>
      rw [eliminate]
      split
      · -- no row has a one at `c`: the column is passed over
        next hnone =>
        have hc : ∀ r ∈ r₀ :: rest, Signed.testBit r c = false := by
          simpa using List.findIdx?_eq_none_iff.1 hnone
        obtain ⟨pivots, zeros, heq, hs, hge⟩ := ih (c + 1) (r₀ :: rest) fun r hr j hj => by
          rcases Nat.lt_succ_iff_lt_or_eq.1 hj with hj | rfl
          exacts [hrows r hr j hj, hc r hr]
        refine ⟨pivots, zeros, heq, ?_, fun p hp => Nat.le_of_succ_le (hge p hp)⟩
        rwa [show c + (k + 1) = c + 1 + k by omega]
      · -- row `i` is the pivot: it is added to every other row with a one at `c`
        next i hsome =>
        obtain ⟨hi, hpc, -⟩ := List.findIdx?_eq_some_iff_getElem.1 hsome
        have hi' : i < rest.length + 1 := by simpa using hi
        obtain ⟨hpmem, hbelow, -⟩ := pivot_step r₀ rest hi'
        have hpivot : Signed.testBit ((r₀ :: rest).getD i 0) c = true := by
          rw [List.getD_eq_getElem _ _ hi]
          exact hpc
        set pivot := (r₀ :: rest).getD i 0
        set below := if i = 0 then rest else rest.set (i - 1) r₀
        obtain ⟨pivots, zeros, heq, hs, hge⟩ := ih (c + 1)
          (below.map fun r => if Signed.testBit r c then Signed.xor r pivot else r) (by
            intro x hx j hj
            obtain ⟨r, hr, rfl⟩ := List.mem_map.1 hx
            have hrj := hrows r (hbelow r hr)
            rcases Nat.lt_succ_iff_lt_or_eq.1 hj with hj | rfl
            · split <;> simp [Signed.testBit_xor, hrj j hj, hrows pivot hpmem j hj]
            · split
              · next h => simp [Signed.testBit_xor, h, hpivot]
              · next h => simpa using h)
        refine ⟨(pivot, c) :: pivots, zeros, by simp [heq], ⟨?_, ?_, ?_⟩, ?_⟩
        · intro p hp
          rcases List.mem_cons.1 hp with rfl | hp
          · exact ⟨by omega, hpivot, hrows pivot hpmem⟩
          · have := hs.leads p hp
            rwa [show c + 1 + k = c + (k + 1) by omega] at this
        · exact List.Pairwise.cons (fun q hq => hge q hq) hs.increasing
        · have := hs.zero
          rwa [show c + 1 + k = c + (k + 1) by omega] at this
        · intro p hp
          rcases List.mem_cons.1 hp with rfl | hp
          exacts [le_refl _, Nat.le_of_succ_le (hge p hp)]

/-- **The first pass** leaves a staircase over all `w` columns. -/
theorem eliminate_staircase (w : Nat) (rows : List Int) :
    ∃ pivots zeros, eliminate (List.range w) rows = pivots.map Prod.fst ++ zeros ∧
      Staircase w pivots zeros := by
  obtain ⟨pivots, zeros, heq, hs, -⟩ :=
    eliminate_range' w 0 rows fun _ _ j hj => absurd hj (Nat.not_lt_zero j)
  rw [List.range_eq_range']
  exact ⟨pivots, zeros, heq, by simpa using hs⟩

/-! ### The second pass -/

section SecondPass

variable {w : Nat}

/-- Clearing stops at the first row without a one. -/
theorem clearLeaders_of_zeroRows (r : Int) :
    ∀ zeros : List Int, (∀ z ∈ zeros, ZeroRow w z) → clearLeaders w r zeros = r
  | [], _ => rfl
  | z :: _, hz => by
    rw [clearLeaders, leaderOf_of_zeroRow (hz z List.mem_cons_self)]
    rfl

theorem backSubstitute_of_zeroRows :
    ∀ zeros : List Int, (∀ z ∈ zeros, ZeroRow w z) → backSubstitute w zeros = zeros
  | [], _ => rfl
  | z :: zs, hz => by
    have hzs : ∀ z ∈ zs, ZeroRow w z := fun z h => hz z (List.mem_cons_of_mem _ h)
    rw [backSubstitute, clearLeaders_of_zeroRows z zs hzs, backSubstitute_of_zeroRows zs hzs]

/-- **Clearing one row.**  Clearing `r` with the rows of a staircase zeroes `r` at every leading
column of the staircase and keeps the bits of `r` below all of them: each pivot row added has no
one before its own leading column, and the later ones none before theirs. -/
theorem clearLeaders_spec (zeros : List Int) : ∀ (pivots : List (Int × Nat)) (r : Int),
    Staircase w pivots zeros →
    (∀ p ∈ pivots,
      Signed.testBit (clearLeaders w r (pivots.map Prod.fst ++ zeros)) p.2 = false) ∧
    ∀ j, (∀ p ∈ pivots, j < p.2) →
      Signed.testBit (clearLeaders w r (pivots.map Prod.fst ++ zeros)) j = Signed.testBit r j
  | [], r, hs => by
    rw [List.map_nil, List.nil_append, clearLeaders_of_zeroRows r zeros hs.zero]
    exact ⟨by simp, fun _ _ => rfl⟩
  | p :: ps, r, hs => by
    have hp := hs.leads p List.mem_cons_self
    have hps : Staircase w ps zeros :=
      ⟨fun q hq => hs.leads q (List.mem_cons_of_mem _ hq), (List.pairwise_cons.1 hs.increasing).2,
        hs.zero⟩
    have hlt : ∀ q ∈ ps, p.2 < q.2 := (List.pairwise_cons.1 hs.increasing).1
    set r₁ := if Signed.testBit r p.2 then Signed.xor r p.1 else r
    have hstep : clearLeaders w r ((p :: ps).map Prod.fst ++ zeros) =
        clearLeaders w r₁ (ps.map Prod.fst ++ zeros) := by
      rw [List.map_cons, List.cons_append, clearLeaders, leaderOf_of_leadsAt hp]
      simp [r₁]
    -- below the leading column of `p`, adding `p` changes nothing
    have hbelow : ∀ j < p.2, Signed.testBit r₁ j = Signed.testBit r j := by
      intro j hj
      simp only [r₁]
      split <;> simp [Signed.testBit_xor, hp.2.2 j hj]
    obtain ⟨ih₁, ih₂⟩ := clearLeaders_spec zeros ps r₁ hps
    rw [hstep]
    refine ⟨fun q hq => ?_, fun j hj => ?_⟩
    · rcases List.mem_cons.1 hq with rfl | hq
      · rw [ih₂ q.2 hlt]
        simp only [r₁]
        split
        · next h => simp [Signed.testBit_xor, h, hp.2.1]
        · next h => simpa using h
      · exact ih₁ q hq
    · rw [ih₂ j fun q hq => hj q (List.mem_cons_of_mem _ hq),
        hbelow j (hj p List.mem_cons_self)]

/-- **The second pass** turns a staircase into the reduced echelon form with the same leading
columns. -/
theorem backSubstitute_reduced (zeros : List Int) : ∀ pivots : List (Int × Nat),
    Staircase w pivots zeros → ∃ cleared : List (Int × Nat),
      backSubstitute w (pivots.map Prod.fst ++ zeros) = cleared.map Prod.fst ++ zeros ∧
      cleared.map Prod.snd = pivots.map Prod.snd ∧ Reduced w cleared zeros
  | [], hs => ⟨[], by simpa using backSubstitute_of_zeroRows zeros hs.zero, rfl,
      ⟨⟨by simp, by simp, hs.zero⟩, by simp⟩⟩
  | p :: ps, hs => by
    have hp := hs.leads p List.mem_cons_self
    have hps : Staircase w ps zeros :=
      ⟨fun q hq => hs.leads q (List.mem_cons_of_mem _ hq), (List.pairwise_cons.1 hs.increasing).2,
        hs.zero⟩
    have hlt : ∀ q ∈ ps, p.2 < q.2 := (List.pairwise_cons.1 hs.increasing).1
    obtain ⟨cleared, heq, hsnd, hred⟩ := backSubstitute_reduced zeros ps hps
    obtain ⟨hzero, hkeep⟩ := clearLeaders_spec zeros ps p.1 hps
    set p' := clearLeaders w p.1 (ps.map Prod.fst ++ zeros)
    -- a leading column of `cleared` is one of `ps`
    have hcol : ∀ q ∈ cleared, ∃ q₀ ∈ ps, q₀.2 = q.2 := by
      intro q hq
      have : q.2 ∈ ps.map Prod.snd := hsnd ▸ List.mem_map_of_mem hq
      simpa using this
    refine ⟨(p', p.2) :: cleared, ?_, by simp [hsnd], ⟨⟨?_, ?_, hs.zero⟩, ?_⟩⟩
    · rw [List.map_cons, List.cons_append, backSubstitute, heq]
      rfl
    · intro q hq
      rcases List.mem_cons.1 hq with rfl | hq
      · refine ⟨hp.1, ?_, fun j hj => ?_⟩
        · rw [hkeep p.2 hlt]
          exact hp.2.1
        · rw [hkeep j fun q hq => lt_trans hj (hlt q hq)]
          exact hp.2.2 j hj
      · exact hred.leads q hq
    · refine List.Pairwise.cons (fun q hq => ?_) hred.increasing
      obtain ⟨q₀, hq₀, hq⟩ := hcol q hq
      exact hq ▸ hlt q₀ hq₀
    · refine List.Pairwise.cons (fun q hq => ?_) hred.cleared
      obtain ⟨q₀, hq₀, hq⟩ := hcol q hq
      exact hq ▸ hzero q₀ hq₀

end SecondPass

/-- **Reduced echelon form.**  The rows of `echelon m` are pivot rows in reduced echelon form
over the columns of `m`, followed by rows without a one there. -/
theorem echelon_reduced (m : BitMatrix) : ∃ pivots zeros,
    m.echelon.rows = pivots.map Prod.fst ++ zeros ∧ Reduced m.cols pivots zeros := by
  obtain ⟨pivots, zeros, heq, hs⟩ := eliminate_staircase m.cols m.rows
  obtain ⟨cleared, hback, -, hred⟩ := backSubstitute_reduced zeros pivots hs
  refine ⟨cleared, zeros, ?_, hred⟩
  show backSubstitute m.cols (eliminate (List.range m.cols) m.rows) = _
  rw [heq, hback]

/-! ### What the passes keep -/

/-- The product of a raw row with a vector `v` over the columns below `w`, in `GF(2)`. -/
def dot (w : Nat) (r : Int) (v : Nat) : ZMod 2 :=
  ∑ j ∈ Finset.range w, ofBit (Signed.testBit r j) * ofBit (v.testBit j)

theorem dot_xor (w : Nat) (r s : Int) (v : Nat) :
    dot w (Signed.xor r s) v = dot w r v + dot w s v := by
  simp only [dot, Signed.testBit_xor, ofBit_xor, add_mul, Finset.sum_add_distrib]

/-- `v` is orthogonal to every row. -/
def Annihilates (w : Nat) (rows : List Int) (v : Nat) : Prop := ∀ r ∈ rows, dot w r v = 0

instance (w : Nat) (rows : List Int) : DecidablePred (Annihilates w rows) :=
  fun v => inferInstanceAs (Decidable (∀ r ∈ rows, dot w r v = 0))

section Orthogonal

variable {w : Nat} {v : Nat}

theorem annihilates_cons {r : Int} {rows : List Int} :
    Annihilates w (r :: rows) v ↔ dot w r v = 0 ∧ Annihilates w rows v :=
  List.forall_mem_cons

/-- A pivot step replaces rows by their sums with the pivot row, which is kept. -/
theorem annihilates_pivot_step {rows below : List Int} {pivot : Int} (c : Nat)
    (hp : pivot ∈ rows) (hb : ∀ r ∈ below, r ∈ rows) (hr : ∀ r ∈ rows, r = pivot ∨ r ∈ below) :
    Annihilates w
        (pivot :: below.map fun r => if Signed.testBit r c then Signed.xor r pivot else r) v ↔
      Annihilates w rows v := by
  rw [annihilates_cons]
  constructor
  · rintro ⟨hpivot, hbelow⟩ r hr'
    rcases hr r hr' with rfl | hrb
    · exact hpivot
    · have := hbelow _ (List.mem_map_of_mem hrb)
      split at this
      · rwa [dot_xor, hpivot, add_zero] at this
      · exact this
  · intro h
    refine ⟨h pivot hp, fun x hx => ?_⟩
    obtain ⟨r, hrb, rfl⟩ := List.mem_map.1 hx
    split
    · rw [dot_xor, h r (hb r hrb), h pivot hp, add_zero]
    · exact h r (hb r hrb)

/-- The first pass keeps the vectors orthogonal to all rows. -/
theorem annihilates_eliminate : ∀ (cs : List Nat) (rows : List Int),
    Annihilates w (eliminate cs rows) v ↔ Annihilates w rows v
  | [], rows => by rw [eliminate]
  | _ :: _, [] => Iff.rfl
  | c :: cs, r₀ :: rest => by
    rw [eliminate]
    split
    · exact annihilates_eliminate cs _
    · next i hsome =>
      obtain ⟨hi, -, -⟩ := List.findIdx?_eq_some_iff_getElem.1 hsome
      obtain ⟨hpmem, hbelow, hrows⟩ := pivot_step r₀ rest (by simpa using hi)
      rw [annihilates_cons, annihilates_eliminate cs, ← annihilates_cons]
      exact annihilates_pivot_step c hpmem hbelow hrows

/-- Clearing adds rows that `v` is orthogonal to, so the product with `v` stays. -/
theorem dot_clearLeaders (r : Int) : ∀ rows : List Int, Annihilates w rows v →
    dot w (clearLeaders w r rows) v = dot w r v
  | [], _ => rfl
  | s :: rest, h => by
    rw [clearLeaders]
    split
    · rfl
    · rw [annihilates_cons] at h
      rw [dot_clearLeaders _ rest h.2]
      split
      · rw [dot_xor, h.1, add_zero]
      · rfl

/-- The second pass keeps the vectors orthogonal to all rows: each row is cleared only with rows
below it, which the rows below it in the result determine again. -/
theorem annihilates_backSubstitute : ∀ rows : List Int,
    Annihilates w (backSubstitute w rows) v ↔ Annihilates w rows v
  | [] => Iff.rfl
  | r :: rest => by
    rw [backSubstitute, annihilates_cons, annihilates_cons, annihilates_backSubstitute rest]
    constructor
    · rintro ⟨hr, hrest⟩
      exact ⟨by rwa [dot_clearLeaders r rest hrest] at hr, hrest⟩
    · rintro ⟨hr, hrest⟩
      exact ⟨by rwa [dot_clearLeaders r rest hrest], hrest⟩

end Orthogonal

/-- **Row reduction keeps the kernel.**  A vector is orthogonal to every row of `echelon m`
exactly when it is orthogonal to every row of `m`. -/
theorem annihilates_echelon (m : BitMatrix) (v : Nat) :
    Annihilates m.cols m.echelon.rows v ↔ Annihilates m.cols m.rows v :=
  (annihilates_backSubstitute _).trans (annihilates_eliminate _ _)

end FiniteRings.BitMatrix

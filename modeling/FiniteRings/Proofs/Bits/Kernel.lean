import Mathlib
import FiniteRings.Proofs.Bits.Echelon

/-!
# The kernel of a matrix over GF(2)

The kernel of a `BitMatrix` is the set of vectors of `GF(2) ^ cols`, numbers below `2 ^ cols`,
orthogonal to every row. Row reduction keeps it (`kernel_echelon`), and on the reduced echelon
form it is read off directly: a leading column is determined by the columns that lead no row,
the free columns, through the equation of its row (`Reduced.annihilates_iff`). So a kernel
vector is fixed by its free entries, and any choice of them is completed to one
(`Reduced.solution`). Hence

* the kernel has `2 ^ (cols - rank)` vectors, `rank` being the number of nonzero rows of the
  echelon form (`card_kernel`);
* `kernelBasis` returns the completions of the single free columns: `cols - rank` distinct nonzero
  kernel vectors, or `none` when there is no free column (`kernelBasis_spec`).
-/

namespace FiniteRings.BitMatrix

open GF2Poly (ofBit ofBit_xor)

/-- The vectors orthogonal to every row of `m`. -/
def kernel (m : BitMatrix) : Finset Nat :=
  (Finset.range (2 ^ m.cols)).filter (Annihilates m.cols m.rows)

theorem mem_kernel {m : BitMatrix} {v : Nat} :
    v ∈ m.kernel ↔ v < 2 ^ m.cols ∧ Annihilates m.cols m.rows v := by
  rw [kernel, Finset.mem_filter, Finset.mem_range]

theorem kernel_echelon (m : BitMatrix) : m.echelon.kernel = m.kernel := by
  ext v
  rw [mem_kernel, mem_kernel]
  exact and_congr_right fun _ => annihilates_echelon m v

/-! ### Numbers from their bits -/

/-- The number whose bits below `w` are those `b` picks, and which has no bit from `w` on. -/
def ofBits (w : Nat) (b : Nat → Bool) : Nat :=
  ∑ j ∈ Finset.range w, if b j then 2 ^ j else 0

theorem ofBits_lt (w : Nat) (b : Nat → Bool) : ofBits w b < 2 ^ w := by
  induction w with
  | zero => simp [ofBits]
  | succ w ih =>
    rw [ofBits, Finset.sum_range_succ, ← ofBits, Nat.pow_succ]
    split <;> omega

theorem testBit_ofBits (w : Nat) (b : Nat → Bool) (j : Nat) :
    (ofBits w b).testBit j = (decide (j < w) && b j) := by
  induction w with
  | zero => simp [ofBits]
  | succ w ih =>
    rw [ofBits, Finset.sum_range_succ, ← ofBits]
    have hlt := ofBits_lt w b
    split
    · next hb =>
      rw [Nat.add_comm, ← Nat.mul_one (2 ^ w), Nat.testBit_two_pow_mul_add _ hlt]
      split
      · next hj => rw [ih, decide_eq_true hj, decide_eq_true (by omega)]
      · next hj =>
        rcases Nat.lt_or_ge j (w + 1) with hj' | hj'
        · have : j = w := by omega
          subst this
          simp [hb]
        · rw [Nat.testBit_eq_false_of_lt (by
            calc 1 < 2 := by decide
              _ ≤ 2 ^ (j - w) := Nat.le_self_pow (by omega) 2)]
          simp [show ¬j < w + 1 by omega]
    · next hb =>
      rw [Nat.add_zero, ih]
      by_cases hj : j = w
      · subst hj
        simp [hb]
      · by_cases hj' : j < w
        · simp [hj', show j < w + 1 by omega]
        · simp [hj', show ¬j < w + 1 by omega]

/-! ### The kernel of a reduced echelon form -/

/-- The leading columns of the pivot rows. -/
def leads (pivots : List (Int × Nat)) : Finset Nat := (pivots.map Prod.snd).toFinset

/-- The columns below `w` that lead no pivot row. -/
def freeCols (w : Nat) (pivots : List (Int × Nat)) : Finset Nat :=
  (Finset.range w).filter (· ∉ leads pivots)

theorem ofBit_decide_eq_one (x : ZMod 2) : ofBit (decide (x = 1)) = x := by
  fin_cases x <;> rfl

theorem dot_of_zeroRow {w : Nat} {z : Int} (hz : ZeroRow w z) (v : Nat) : dot w z v = 0 := by
  apply Finset.sum_eq_zero
  intro j hj
  rw [hz j (Finset.mem_range.1 hj), GF2Poly.ofBit_false, zero_mul]

section Reduced

variable {w : Nat} {pivots : List (Int × Nat)} {zeros : List Int}

theorem Reduced.lead_injective (h : Reduced w pivots zeros) {p q : Int × Nat}
    (hp : p ∈ pivots) (hq : q ∈ pivots) (hpq : p.2 = q.2) : p = q := by
  have hnodup : (pivots.map Prod.snd).Nodup :=
    (List.pairwise_map.2 h.increasing).imp fun hlt => ne_of_lt hlt
  exact List.inj_on_of_nodup_map hnodup hp hq hpq

/-- In a reduced echelon form a pivot row has a one at its own leading column and a zero at
every other one. -/
theorem Reduced.testBit_lead (h : Reduced w pivots zeros) {p q : Int × Nat}
    (hp : p ∈ pivots) (hq : q ∈ pivots) : Signed.testBit p.1 q.2 = decide (p.2 = q.2) := by
  rcases lt_trichotomy p.2 q.2 with hlt | heq | hgt
  · rw [decide_eq_false hlt.ne]
    -- `p` comes before `q`, since leading columns increase along the rows
    induction pivots with
    | nil => simp at hp
    | cons a rest ih =>
      have hinc := List.pairwise_cons.1 h.increasing
      have hcl := List.pairwise_cons.1 h.cleared
      have hrest : Reduced w rest zeros :=
        ⟨⟨fun r hr => h.leads r (List.mem_cons_of_mem _ hr), hinc.2, h.zero⟩, hcl.2⟩
      rcases List.mem_cons.1 hp with rfl | hp'
      · rcases List.mem_cons.1 hq with rfl | hq'
        · exact absurd hlt (lt_irrefl _)
        · exact hcl.1 q hq'
      · rcases List.mem_cons.1 hq with rfl | hq'
        · exact absurd (hinc.1 p hp') (not_lt.2 hlt.le)
        · exact ih hrest hp' hq'
  · rw [decide_eq_true heq, ← heq]
    exact (h.leads p hp).2.1
  · rw [decide_eq_false hgt.ne']
    exact (h.leads p hp).2.2 q.2 hgt

/-- **A pivot row's equation.**  The product of a pivot row with `v` is the entry of `v` at the
row's leading column plus the free entries the row picks. -/
theorem Reduced.dot_pivot (h : Reduced w pivots zeros) {p : Int × Nat} (hp : p ∈ pivots)
    (v : Nat) : dot w p.1 v = ofBit (v.testBit p.2) +
      ∑ f ∈ freeCols w pivots, ofBit (Signed.testBit p.1 f) * ofBit (v.testBit f) := by
  rw [dot, ← Finset.sum_filter_add_sum_filter_not _ (· ∈ leads pivots), freeCols]
  congr 1
  have hmem : p.2 ∈ (Finset.range w).filter (· ∈ leads pivots) := by
    rw [Finset.mem_filter, Finset.mem_range, leads, List.mem_toFinset]
    exact ⟨(h.leads p hp).1, List.mem_map_of_mem hp⟩
  rw [Finset.sum_eq_single_of_mem p.2 hmem, (h.leads p hp).2.1, GF2Poly.ofBit_true, one_mul]
  intro j hj hjp
  rw [Finset.mem_filter, leads, List.mem_toFinset, List.mem_map] at hj
  obtain ⟨-, q, hq, rfl⟩ := hj
  rw [h.testBit_lead hp hq, decide_eq_false (Ne.symm hjp), GF2Poly.ofBit_false, zero_mul]

/-- A vector is in the kernel of a reduced echelon form exactly when each leading entry is the
sum of the free entries its row picks. -/
theorem Reduced.annihilates_iff (h : Reduced w pivots zeros) (v : Nat) :
    Annihilates w (pivots.map Prod.fst ++ zeros) v ↔ ∀ p ∈ pivots,
      ofBit (v.testBit p.2) =
        ∑ f ∈ freeCols w pivots, ofBit (Signed.testBit p.1 f) * ofBit (v.testBit f) := by
  constructor
  · intro hv p hp
    have := hv p.1 (List.mem_append_left _ (List.mem_map_of_mem hp))
    rw [h.dot_pivot hp] at this
    exact eq_neg_of_add_eq_zero_left this |>.trans (CharTwo.neg_eq _)
  · intro hv r hr
    rcases List.mem_append.1 hr with hr | hr
    · obtain ⟨p, hp, rfl⟩ := List.mem_map.1 hr
      rw [h.dot_pivot hp, hv p hp, CharTwo.add_self_eq_zero]
    · exact dot_of_zeroRow (h.zero r hr) v

/-- Kernel vectors with the same free entries are equal. -/
theorem Reduced.eq_of_free (h : Reduced w pivots zeros) {u v : Nat} (hu : u < 2 ^ w)
    (hv : v < 2 ^ w) (hku : Annihilates w (pivots.map Prod.fst ++ zeros) u)
    (hkv : Annihilates w (pivots.map Prod.fst ++ zeros) v)
    (hfree : ∀ f ∈ freeCols w pivots, u.testBit f = v.testBit f) : u = v := by
  apply Nat.eq_of_testBit_eq
  intro j
  by_cases hj : j < w
  · by_cases hjf : j ∈ freeCols w pivots
    · exact hfree j hjf
    · -- `j` leads a pivot row, whose equation gives the entry from the free ones
      have : j ∈ leads pivots := by simpa [freeCols, hj] using hjf
      obtain ⟨p, hp, rfl⟩ := List.mem_map.1 (List.mem_toFinset.1 this)
      apply GF2Poly.ofBit_injective
      rw [(h.annihilates_iff u).1 hku p hp, (h.annihilates_iff v).1 hkv p hp]
      exact Finset.sum_congr rfl fun f hf => by rw [hfree f hf]
  · rw [Nat.testBit_lt_two_pow (Nat.lt_of_lt_of_le hu (Nat.pow_le_pow_right (by decide)
      (not_lt.1 hj))), Nat.testBit_lt_two_pow (Nat.lt_of_lt_of_le hv
      (Nat.pow_le_pow_right (by decide) (not_lt.1 hj)))]

/-- The kernel vector with the free entries of `S`: ones at the free columns of `S`, and at each
leading column the sum of the entries its row has at `S`. -/
def solution (w : Nat) (pivots : List (Int × Nat)) (S : Finset Nat) : Nat :=
  ofBits w fun j => decide (j ∈ S) ||
    pivots.any fun p => p.2 == j && decide (∑ f ∈ S, ofBit (Signed.testBit p.1 f) = 1)

theorem testBit_solution_free {S : Finset Nat} {f : Nat}
    (hf : f ∈ freeCols w pivots) : (solution w pivots S).testBit f = decide (f ∈ S) := by
  rw [freeCols, Finset.mem_filter, Finset.mem_range, leads, List.mem_toFinset] at hf
  rw [solution, testBit_ofBits, decide_eq_true hf.1, Bool.true_and]
  have : (pivots.any fun p => p.2 == f &&
      decide (∑ f ∈ S, ofBit (Signed.testBit p.1 f) = 1)) = false := by
    rw [List.any_eq_false]
    intro p hp
    rw [Bool.and_eq_true, beq_iff_eq]
    exact fun ⟨hpf, _⟩ => hf.2 (hpf ▸ List.mem_map_of_mem hp)
  rw [this, Bool.or_false]

theorem Reduced.testBit_solution_lead (h : Reduced w pivots zeros) {S : Finset Nat}
    (hS : S ⊆ freeCols w pivots) {p : Int × Nat} (hp : p ∈ pivots) :
    ofBit ((solution w pivots S).testBit p.2) = ∑ f ∈ S, ofBit (Signed.testBit p.1 f) := by
  have hpS : p.2 ∉ S := fun hmem => by
    have := hS hmem
    simp only [freeCols, Finset.mem_filter, leads, List.mem_toFinset] at this
    exact this.2 (List.mem_map_of_mem hp)
  have hany : (pivots.any fun q => q.2 == p.2 &&
      decide (∑ f ∈ S, ofBit (Signed.testBit q.1 f) = 1)) =
      decide (∑ f ∈ S, ofBit (Signed.testBit p.1 f) = 1) := by
    apply Bool.eq_iff_iff.2
    rw [List.any_eq_true]
    constructor
    · rintro ⟨q, hq, hqp⟩
      rw [Bool.and_eq_true, beq_iff_eq] at hqp
      rw [← h.lead_injective hq hp hqp.1]
      exact hqp.2
    · exact fun hsum => ⟨p, hp, by simpa using hsum⟩
  rw [solution, testBit_ofBits, decide_eq_true (h.leads p hp).1, Bool.true_and,
    decide_eq_false hpS, Bool.false_or, hany, ofBit_decide_eq_one]

/-- **Completing free entries.**  `solution S` is a kernel vector whose free entries are those
of `S`. -/
theorem Reduced.solution_mem (h : Reduced w pivots zeros) {S : Finset Nat}
    (hS : S ⊆ freeCols w pivots) :
    Annihilates w (pivots.map Prod.fst ++ zeros) (solution w pivots S) := by
  rw [h.annihilates_iff]
  intro p hp
  rw [h.testBit_solution_lead hS hp, ← Finset.sum_subset hS (fun f _ hfS => by
    rw [testBit_solution_free ‹_›, decide_eq_false hfS, GF2Poly.ofBit_false, mul_zero])]
  refine Finset.sum_congr rfl fun f hf => ?_
  rw [testBit_solution_free (hS hf), decide_eq_true hf, GF2Poly.ofBit_true, mul_one]

/-- **The size of the kernel.**  The kernel of a reduced echelon form has one vector for each set
of free columns. -/
theorem Reduced.card_kernel (h : Reduced w pivots zeros) :
    ((Finset.range (2 ^ w)).filter (Annihilates w (pivots.map Prod.fst ++ zeros))).card =
      2 ^ (freeCols w pivots).card := by
  rw [← Finset.card_powerset]
  refine Finset.card_bij (fun v _ => (freeCols w pivots).filter fun f => v.testBit f)
    (fun v _ => Finset.mem_powerset.2 (Finset.filter_subset _ _)) ?_ ?_
  · intro u hu v hv huv
    rw [Finset.mem_filter, Finset.mem_range] at hu hv
    refine h.eq_of_free hu.1 hv.1 hu.2 hv.2 fun f hf => ?_
    have := congrArg (f ∈ ·) huv
    simp only [Finset.mem_filter, hf, true_and, eq_iff_iff] at this
    exact Bool.eq_iff_iff.2 this
  · intro S hS
    rw [Finset.mem_powerset] at hS
    refine ⟨solution w pivots S, ?_, ?_⟩
    · rw [Finset.mem_filter, Finset.mem_range]
      exact ⟨ofBits_lt _ _, h.solution_mem hS⟩
    · ext f
      rw [Finset.mem_filter]
      constructor
      · rintro ⟨hf, hbit⟩
        rw [testBit_solution_free hf, decide_eq_true_iff] at hbit
        exact hbit
      · intro hf
        exact ⟨hS hf, by rw [testBit_solution_free (hS hf), decide_eq_true hf]⟩

theorem Reduced.card_freeCols (h : Reduced w pivots zeros) :
    (freeCols w pivots).card = w - pivots.length := by
  have hsub : leads pivots ⊆ Finset.range w := by
    intro j hj
    obtain ⟨p, hp, rfl⟩ := List.mem_map.1 (List.mem_toFinset.1 hj)
    exact Finset.mem_range.2 (h.leads p hp).1
  have hcard : (leads pivots).card = pivots.length := by
    rw [leads, List.toFinset_card_of_nodup, List.length_map]
    exact (List.pairwise_map.2 h.increasing).imp fun hlt => ne_of_lt hlt
  have := Finset.card_filter_add_card_filter_not (s := Finset.range w)
    (fun j => j ∈ leads pivots)
  rw [Finset.filter_mem_eq_inter, Finset.inter_eq_right.2 hsub, hcard, Finset.card_range] at this
  rw [freeCols]
  omega

end Reduced

/-! ### The kernel of a matrix and its basis -/

theorem isZero_rowAt {m : BitMatrix} {r : Int} : (m.rowAt r).isZero = true ↔ ZeroRow m.cols r := by
  rw [BitRow.isZero, BitRow.masked, beq_iff_eq]
  exact toNat_emod_two_pow_eq_zero_iff

theorem leaderPos_rowAt (m : BitMatrix) (r : Int) :
    (m.rowAt r).leaderPos = leaderOf m.cols r := by
  rw [BitRow.leaderPos, BitRow.masked, leaderOf, Int.toNat_of_nonneg (Int.emod_nonneg _ (by
    show (2 : Int) ^ m.cols ≠ 0
    positivity))]
  rfl

/-- The nonzero rows of a staircase are its pivot rows. -/
theorem leadingNonzero_eq {m : BitMatrix} {pivots : List (Int × Nat)} {zeros : List Int}
    (hrows : m.rows = pivots.map Prod.fst ++ zeros) (h : Staircase m.cols pivots zeros) :
    m.leadingNonzero = pivots.length := by
  have hzeros : (zeros.map m.rowAt).takeWhile (fun r => !r.isZero) = [] := by
    cases zeros with
    | nil => rfl
    | cons z zs =>
      rw [List.map_cons, List.takeWhile_cons_of_neg
        (by simpa using isZero_rowAt.2 (h.zero z List.mem_cons_self))]
  rw [leadingNonzero, bitRows, hrows, List.map_append, List.takeWhile_append_of_pos, hzeros,
    List.append_nil, List.length_map, List.length_map]
  intro r hr
  obtain ⟨x, hx, rfl⟩ := List.mem_map.1 hr
  obtain ⟨p, hp, rfl⟩ := List.mem_map.1 hx
  have hlead := h.leads p hp
  rw [Bool.not_eq_true', Bool.eq_false_iff]
  intro hz
  have := isZero_rowAt.1 hz p.2 hlead.1
  rw [hlead.2.1] at this
  exact absurd this (by decide)

/-- **The size of the kernel.**  A matrix with `cols` columns whose echelon form has `rank`
nonzero rows has `2 ^ (cols - rank)` kernel vectors. -/
theorem card_kernel (m : BitMatrix) :
    m.kernel.card = 2 ^ (m.cols - m.echelon.leadingNonzero) := by
  obtain ⟨pivots, zeros, heq, hred⟩ := echelon_reduced m
  rw [← kernel_echelon, leadingNonzero_eq heq hred.toStaircase, ← hred.card_freeCols, kernel, heq]
  exact hred.card_kernel

/-- Or-ing in the powers of two at the columns `l` of the pairs whose row has a one at `f`. -/
theorem foldl_or_two_pow (f : Nat) (g : Int → BitRow × Nat → Int)
    (hg : ∀ v r l, g v (r, l) = if r.entry f then Signed.or v (Int.pow 2 l) else v) :
    ∀ (L : List (BitRow × Nat)) (n : Nat), ∃ n' : Nat, L.foldl g (n : Int) = n' ∧
      ∀ j, n'.testBit j = (n.testBit j || L.any fun rl => rl.1.entry f && rl.2 == j)
  | [], n => ⟨n, rfl, fun j => by simp⟩
  | (r, l) :: L, n => by
    have hstep : g n (r, l) = ((if r.entry f then n ||| 2 ^ l else n : Nat) : Int) := by
      rw [hg]
      split
      · show Signed.or n (((2 ^ l : Nat) : Int)) = _
        rfl
      · rfl
    obtain ⟨n', heq, hbits⟩ := foldl_or_two_pow f g hg L _
    refine ⟨n', by rw [List.foldl_cons, hstep, heq], fun j => ?_⟩
    rw [hbits, List.any_cons]
    split
    · next hr => simp [Nat.testBit_or, Nat.testBit_two_pow, hr, Bool.or_assoc, eq_comm, beq_eq_decide]
    · next hr => simp [hr]

/-- A matrix is built from a nonempty list of rows of a width from 1 to 64. -/
theorem ofRows_eq_ok {cols : Int} {rows : List Int} (hrows : rows ≠ []) (hpos : 0 < cols)
    (hle : cols ≤ 64) : ∃ b : BitMatrix, ofRows cols rows = .ok b ∧ b.cols = cols.toNat ∧
      b.rows = rows := by
  have hlen : ¬(rows.length ≤ 0 ∨ cols ≤ 0) := by
    have := List.length_pos_iff.2 hrows
    omega
  rw [ofRows, dif_neg hlen, dif_pos hle]
  exact ⟨_, rfl, rfl, rfl⟩

theorem toNat_emod_two_pow_of_lt {w n : Nat} (hn : n < 2 ^ w) :
    (((n : Int) % Int.pow 2 w).toNat) = n := by
  apply Nat.eq_of_testBit_eq
  intro j
  rw [testBit_emod_two_pow]
  show (decide (j < w) && n.testBit j) = n.testBit j
  by_cases hj : j < w
  · rw [decide_eq_true hj, Bool.true_and]
  · rw [decide_eq_false hj, Bool.false_and, Nat.testBit_lt_two_pow (Nat.lt_of_lt_of_le hn
      (Nat.pow_le_pow_right (by decide) (not_lt.1 hj)))]

/-- The columns below `w` that lead no pivot row, in increasing order, as `kernelBasis` lists
them. -/
def freeList (w : Nat) (pivots : List (Int × Nat)) : List Nat :=
  (List.range w).filter fun j => !(pivots.map Prod.snd).contains j

/-- The completions of the single free columns: the rows of the matrix that `kernelBasis`
returns. -/
def kernelRows (w : Nat) (pivots : List (Int × Nat)) : List Int :=
  (freeList w pivots).map fun f => (solution w pivots {f} : Int)

theorem mem_freeList {w : Nat} {pivots : List (Int × Nat)} {f : Nat} :
    f ∈ freeList w pivots ↔ f ∈ freeCols w pivots := by
  rw [freeList, List.mem_filter, List.mem_range, freeCols, Finset.mem_filter, Finset.mem_range,
    leads, List.mem_toFinset]
  simp

theorem nodup_freeList (w : Nat) (pivots : List (Int × Nat)) : (freeList w pivots).Nodup :=
  List.nodup_range.filter _

theorem Reduced.length_freeList {w : Nat} {pivots : List (Int × Nat)} {zeros : List Int}
    (h : Reduced w pivots zeros) : (freeList w pivots).length = w - pivots.length := by
  rw [← h.card_freeCols, ← List.toFinset_card_of_nodup (nodup_freeList w pivots)]
  congr 1
  ext f
  rw [List.mem_toFinset, mem_freeList]

theorem Reduced.kernelRows_ne_nil {w : Nat} {pivots : List (Int × Nat)} {zeros : List Int}
    (h : Reduced w pivots zeros) (h0 : w - pivots.length ≠ 0) : kernelRows w pivots ≠ [] := by
  rw [Ne, kernelRows, List.map_eq_nil_iff, ← List.length_eq_zero_iff, h.length_freeList]
  exact h0

/-- The vector that `kernelBasis` builds for a free column `f`, by or-ing into `2 ^ f` the leading
column of every pivot row with a one at `f`, is the completion of `f`. -/
theorem foldl_pivots_eq_solution {m : BitMatrix} {pivots : List (Int × Nat)} {zeros : List Int}
    (hred : Reduced m.cols pivots zeros) {f : Nat} (hf : f ∈ freeList m.cols pivots) :
    (pivots.map fun p => (m.echelon.rowAt p.1, p.2)).foldl
        (fun v x => if x.1.entry f = true then Signed.or v (Int.pow 2 x.2) else v) (Int.pow 2 f) =
      (solution m.cols pivots {f} : Int) := by
  obtain ⟨n', hfold, hbits⟩ := foldl_or_two_pow f
    (fun v x => if x.1.entry f = true then Signed.or v (Int.pow 2 x.2) else v)
    (fun _ _ _ => rfl) (pivots.map fun p => (m.echelon.rowAt p.1, p.2)) (2 ^ f)
  rw [show Int.pow 2 f = ((2 ^ f : Nat) : Int) by push_cast; rfl, hfold, Int.natCast_inj]
  have hfw : f < m.cols := Finset.mem_range.1 (Finset.mem_filter.1 (mem_freeList.1 hf)).1
  apply Nat.eq_of_testBit_eq
  intro j
  rw [hbits, solution, testBit_ofBits, Nat.testBit_two_pow, List.any_map]
  simp only [Finset.sum_singleton, Finset.mem_singleton]
  by_cases hj : j < m.cols
  · rw [decide_eq_true hj, Bool.true_and]
    congr 1
    · exact decide_eq_decide.2 eq_comm
    refine List.any_congr rfl fun p => ?_
    cases hb : Signed.testBit p.1 f <;> simp [BitRow.entry, rowAt, hb, Bool.and_comm]
  · -- both have no bit from the width on
    rw [decide_eq_false hj, Bool.false_and, decide_eq_false (by omega), Bool.false_or,
      List.any_eq_false]
    intro p hp
    simp only [Function.comp_apply, Bool.and_eq_true, beq_iff_eq, not_and]
    intro _ hpj
    exact hj (hpj ▸ (hred.leads p hp).1)

/-- **What `kernelBasis` returns.**  Nothing when every column leads a row of the reduced
echelon form, and otherwise the matrix whose rows are the completions of the single free
columns. -/
theorem kernelBasis_eq {m : BitMatrix} {pivots : List (Int × Nat)} {zeros : List Int}
    (heq : m.echelon.rows = pivots.map Prod.fst ++ zeros) (hred : Reduced m.cols pivots zeros) :
    m.kernelBasis = if m.cols - pivots.length = 0 then .ok none else
      some <$> ofRows m.cols (kernelRows m.cols pivots) := by
  have hlnz := leadingNonzero_eq heq hred.toStaircase
  -- the pivots, leading columns and free columns as `kernelBasis` lists them
  have hpivots : (m.echelon.bitRows.take pivots.length).map (fun r => (r, r.leaderPos.toNat)) =
      pivots.map fun p => (m.echelon.rowAt p.1, p.2) := by
    rw [bitRows, heq, List.map_append, List.take_left' (by simp), List.map_map, List.map_map]
    refine List.map_congr_left fun p hp => ?_
    simp only [Function.comp_apply, Prod.mk.injEq, true_and]
    rw [leaderPos_rowAt, show m.echelon.cols = m.cols from rfl,
      leaderOf_of_leadsAt (hred.leads p hp), Int.toNat_natCast]
  have hleads : (pivots.map fun p => (m.echelon.rowAt p.1, p.2)).map (·.2) =
      pivots.map Prod.snd := by
    rw [List.map_map]
    rfl
  unfold kernelBasis
  simp only [hlnz, hpivots, hleads]
  by_cases h0 : m.cols - pivots.length = 0
  · simp [h0]
    rfl
  · have hlen : ¬((freeList m.cols pivots).length ≠ m.cols - pivots.length) :=
      not_not.2 hred.length_freeList
    rw [if_neg h0, if_neg h0, ← freeList, if_neg hlen,
      List.map_congr_left fun f hf => foldl_pivots_eq_solution hred hf]
    rfl

/-- **The kernel basis.**  `kernelBasis` returns `none` when the kernel is `{0}`, and otherwise a
matrix of the same width whose rows are distinct nonzero kernel vectors, one for each dimension
of the kernel. -/
theorem kernelBasis_spec (m : BitMatrix) : ∃ res, m.kernelBasis = .ok res ∧
    match res with
    | none => m.kernel.card = 1
    | some b => b.cols = m.cols ∧ m.kernel.card = 2 ^ b.numRows ∧ b.maskedRows.Nodup ∧
        ∀ v ∈ b.maskedRows, v ∈ m.kernel ∧ v ≠ 0 := by
  obtain ⟨pivots, zeros, heq, hred⟩ := echelon_reduced m
  have hcard := card_kernel m
  rw [leadingNonzero_eq heq hred.toStaircase] at hcard
  rw [kernelBasis_eq heq hred]
  by_cases h0 : m.cols - pivots.length = 0
  · exact ⟨none, by rw [if_pos h0], by rw [hcard, h0]; rfl⟩
  · rw [if_neg h0]
    set free := freeList m.cols pivots
    obtain ⟨b, hb, hbcols, hbrows⟩ := @ofRows_eq_ok m.cols (kernelRows m.cols pivots)
      (hred.kernelRows_ne_nil h0) (by exact_mod_cast m.cols_pos) (by exact_mod_cast m.cols_le)
    rw [hb]
    have hbcols' : b.cols = m.cols := by rw [hbcols, Int.toNat_natCast]
    have hmasked : b.maskedRows = free.map fun f => solution m.cols pivots {f} := by
      rw [maskedRows, bitRows, hbrows, kernelRows, List.map_map, List.map_map]
      refine List.map_congr_left fun f _ => ?_
      show (((solution m.cols pivots {f} : Nat) : Int) % Int.pow 2 b.cols).toNat = _
      rw [hbcols']
      exact toNat_emod_two_pow_of_lt (ofBits_lt _ _)
    -- the completion of `f` has a one at `f` and a zero at every other free column
    have hbit : ∀ f ∈ free, ∀ g ∈ free,
        (solution m.cols pivots {f}).testBit g = decide (g = f) := by
      intro f _ g hg
      rw [testBit_solution_free (mem_freeList.1 hg)]
      exact decide_eq_decide.2 Finset.mem_singleton
    refine ⟨some b, rfl, hbcols', ?_, ?_, ?_⟩
    · rw [numRows, hbrows, kernelRows, List.length_map, hred.length_freeList, hcard]
    · rw [hmasked]
      refine (nodup_freeList _ _).map_on fun f hf g hg hfg => ?_
      have := hbit f hf f hf
      rw [hfg, hbit g hg f hf] at this
      simpa using this
    · intro v hv
      rw [hmasked] at hv
      obtain ⟨f, hf, rfl⟩ := List.mem_map.1 hv
      refine ⟨mem_kernel.2 ⟨ofBits_lt _ _, ?_⟩, fun h0 => ?_⟩
      · rw [← annihilates_echelon, heq]
        exact hred.solution_mem (Finset.singleton_subset_iff.2 (mem_freeList.1 hf))
      · have := hbit f hf f hf
        rw [h0, Nat.zero_testBit] at this
        simp at this

end FiniteRings.BitMatrix

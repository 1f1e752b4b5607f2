import Mathlib
import FiniteRings.Proofs.Bits.Kernel

/-!
# Row spaces and the uniqueness of the reduced echelon form

A row of width `w` stands for the vector of `GF(2) ^ w` of its bits below `w` (`vec`); the bits
above, and the sign of a negative row, are no part of it. The row space of a matrix is the span
of these vectors (`rowSpan`).

* Both passes of `echelon` only swap rows and add one row to another, so they keep the row space
  (`rowSpan_echelon`).
* In a reduced echelon form every vector of the row space is the sum of the pivot rows at whose
  leading columns it has a one (`Reduced.eq_sum_of_mem`). Hence the pivot rows are independent,
  and `rank`, which counts them, is the dimension of the row space (`rank_eq_finrank`); and the
  leading columns and the pivot rows are determined by the row space alone, so two matrices
  with the same row space and the same number of rows reduce to the same entries
  (`echelon_maskedRows_eq`).
-/

namespace FiniteRings.BitMatrix

open GF2Poly (ofBit ofBit_xor)

/-! ### Rows as vectors -/

/-- The vector of `GF(2) ^ w` whose entry `j` is bit `j` of `r`: the entries of a row of width
`w` that stores the raw integer `r`. -/
def vec (w : Nat) (r : Int) : Fin w → ZMod 2 := fun j => ofBit (Signed.testBit r j)

@[simp] theorem vec_apply (w : Nat) (r : Int) (j : Fin w) :
    vec w r j = ofBit (Signed.testBit r j) := rfl

theorem vec_xor (w : Nat) (r s : Int) : vec w (Signed.xor r s) = vec w r + vec w s := by
  funext j
  rw [vec_apply, Pi.add_apply, vec_apply, vec_apply, Signed.testBit_xor, ofBit_xor]

theorem vec_eq_vec_iff {w : Nat} {r s : Int} :
    vec w r = vec w s ↔ ∀ j < w, Signed.testBit r j = Signed.testBit s j := by
  constructor
  · intro h j hj
    exact GF2Poly.ofBit_injective (congrFun h ⟨j, hj⟩)
  · intro h
    funext j
    rw [vec_apply, vec_apply, h j j.isLt]

theorem vec_eq_zero_iff {w : Nat} {r : Int} : vec w r = 0 ↔ ZeroRow w r := by
  constructor
  · intro h j hj
    have := congrFun h ⟨j, hj⟩
    rwa [vec_apply, Pi.zero_apply, GF2Poly.ofBit_eq_zero] at this
  · intro h
    funext j
    rw [vec_apply, h j j.isLt, GF2Poly.ofBit_false, Pi.zero_apply]

/-- The entry at column `j`, as a linear form; a column past the width reads `0`. -/
def entryAt (w j : Nat) : (Fin w → ZMod 2) →ₗ[ZMod 2] ZMod 2 :=
  if h : j < w then LinearMap.proj ⟨j, h⟩ else 0

theorem entryAt_of_lt {w j : Nat} (hj : j < w) (x : Fin w → ZMod 2) :
    entryAt w j x = x ⟨j, hj⟩ := by
  rw [entryAt, dif_pos hj]
  rfl

theorem entryAt_vec {w j : Nat} (hj : j < w) (r : Int) :
    entryAt w j (vec w r) = ofBit (Signed.testBit r j) := by
  rw [entryAt_of_lt hj, vec_apply]

/-- Vectors are linearly independent when each has a column at which it alone has a one: the
entries at those columns send them to the standard basis. -/
theorem linearIndependent_of_entryAt {ι : Type} [Fintype ι] [DecidableEq ι] {w : Nat}
    {v : ι → Fin w → ZMod 2} (c : ι → Nat)
    (h : ∀ i j, entryAt w (c i) (v j) = if i = j then 1 else 0) :
    LinearIndependent (ZMod 2) v := by
  apply LinearIndependent.of_comp (LinearMap.pi fun i => entryAt w (c i))
  have hbasis : (LinearMap.pi fun i => entryAt w (c i)) ∘ v = Pi.basisFun (ZMod 2) ι := by
    funext j i
    rw [Function.comp_apply, LinearMap.pi_apply, h, Pi.basisFun_apply, Pi.single_apply]
  rw [hbasis]
  exact (Pi.basisFun (ZMod 2) ι).linearIndependent

/-- The number whose bits below `w` are the entries of `x`, and which has no bit from `w` on. -/
def toBits {w : Nat} (x : Fin w → ZMod 2) : Nat := ofBits w fun j => decide (entryAt w j x = 1)

theorem toBits_lt {w : Nat} (x : Fin w → ZMod 2) : toBits x < 2 ^ w := ofBits_lt _ _

theorem testBit_toBits {w : Nat} (x : Fin w → ZMod 2) {j : Nat} (hj : j < w) :
    (toBits x).testBit j = decide (entryAt w j x = 1) := by
  rw [toBits, testBit_ofBits, decide_eq_true hj, Bool.true_and]

@[simp] theorem vec_toBits {w : Nat} (x : Fin w → ZMod 2) : vec w (toBits x) = x := by
  funext j
  rw [vec_apply, Word.testBit_natCast, testBit_toBits x j.isLt, ofBit_decide_eq_one,
    entryAt_of_lt j.isLt]

/-- The masked bits of a row are the number of its vector. -/
theorem toBits_vec (w : Nat) (r : Int) : toBits (vec w r) = (r % Int.pow 2 w).toNat := by
  apply Nat.eq_of_testBit_eq
  intro j
  rw [testBit_emod_two_pow]
  by_cases hj : j < w
  · rw [testBit_toBits _ hj, entryAt_vec hj, decide_eq_true hj, Bool.true_and]
    cases Signed.testBit r j <;> decide
  · rw [toBits, testBit_ofBits, decide_eq_false hj, Bool.false_and, Bool.false_and]

/-- The entries of a matrix's rows are the numbers of their vectors. -/
theorem maskedRows_eq_map_vec (m : BitMatrix) :
    m.maskedRows = m.rows.map fun r => toBits (vec m.cols r) := by
  rw [maskedRows, bitRows, List.map_map]
  exact List.map_congr_left fun r _ => (toBits_vec m.cols r).symm

/-! ### Row spaces -/

/-- The span in `GF(2) ^ w` of the vectors of the rows. -/
def rowSpan (w : Nat) (rows : List Int) : Submodule (ZMod 2) (Fin w → ZMod 2) :=
  Submodule.span (ZMod 2) {v | ∃ r ∈ rows, vec w r = v}

section RowSpan

variable {w : Nat}

theorem vec_mem_rowSpan {rows : List Int} {r : Int} (h : r ∈ rows) : vec w r ∈ rowSpan w rows :=
  Submodule.subset_span ⟨r, h, rfl⟩

theorem rowSpan_le_iff {rows : List Int} {p : Submodule (ZMod 2) (Fin w → ZMod 2)} :
    rowSpan w rows ≤ p ↔ ∀ r ∈ rows, vec w r ∈ p := by
  rw [rowSpan, Submodule.span_le]
  constructor
  · intro h r hr
    exact h ⟨r, hr, rfl⟩
  · rintro h _ ⟨r, hr, rfl⟩
    exact h r hr

theorem rowSpan_cons (r : Int) (rows : List Int) :
    rowSpan w (r :: rows) = (ZMod 2) ∙ vec w r ⊔ rowSpan w rows := by
  have hset : {v | ∃ s ∈ r :: rows, vec w s = v} =
      insert (vec w r) {v | ∃ s ∈ rows, vec w s = v} := by
    ext v
    simp only [Set.mem_ofPred_eq, Set.mem_insert_iff, List.mem_cons]
    constructor
    · rintro ⟨s, rfl | hs, rfl⟩
      exacts [Or.inl rfl, Or.inr ⟨s, hs, rfl⟩]
    · rintro (rfl | ⟨s, hs, rfl⟩)
      exacts [⟨r, Or.inl rfl, rfl⟩, ⟨s, Or.inr hs, rfl⟩]
  rw [rowSpan, hset, Submodule.span_insert]
  rfl

theorem rowSpan_mono {rows rows' : List Int} (h : ∀ r ∈ rows, r ∈ rows') :
    rowSpan w rows ≤ rowSpan w rows' :=
  rowSpan_le_iff.2 fun r hr => vec_mem_rowSpan (h r hr)

/-- A row may be replaced by itself plus a vector of the span of the other rows. -/
theorem rowSpan_cons_congr {x y : Int} {rows : List Int}
    (h : vec w x - vec w y ∈ rowSpan w rows) :
    rowSpan w (x :: rows) = rowSpan w (y :: rows) := by
  have hle : ∀ {a b : Int}, vec w a - vec w b ∈ rowSpan w rows →
      rowSpan w (a :: rows) ≤ rowSpan w (b :: rows) := by
    intro a b hab
    rw [rowSpan_cons a, rowSpan_cons b]
    refine sup_le ((Submodule.span_singleton_le_iff_mem _ _).2 ?_) le_sup_right
    -- `a` is `b` plus a vector of the other rows
    rw [← sub_add_cancel (vec w a) (vec w b)]
    exact add_mem (Submodule.mem_sup_right hab)
      (Submodule.mem_sup_left (Submodule.mem_span_singleton_self _))
  refine le_antisymm (hle h) (hle ?_)
  rw [← neg_sub]
  exact neg_mem h

/-- Rows without a one below the width add nothing to the span. -/
theorem rowSpan_append_zeroRows (rows : List Int) {zeros : List Int}
    (hz : ∀ z ∈ zeros, ZeroRow w z) : rowSpan w (rows ++ zeros) = rowSpan w rows := by
  refine le_antisymm (rowSpan_le_iff.2 fun r hr => ?_)
    (rowSpan_mono fun r hr => List.mem_append_left _ hr)
  rcases List.mem_append.1 hr with hr | hr
  · exact vec_mem_rowSpan hr
  · rw [vec_eq_zero_iff.2 (hz r hr)]
    exact zero_mem _

/-- A pivot step keeps the span: the pivot row is kept and added to some of the others. -/
theorem rowSpan_pivot_step {rows below : List Int} {pivot : Int} (c : Nat)
    (hp : pivot ∈ rows) (hb : ∀ r ∈ below, r ∈ rows)
    (hr : ∀ r ∈ rows, r = pivot ∨ r ∈ below) :
    rowSpan w (pivot :: below.map fun r => if Signed.testBit r c then Signed.xor r pivot else r) =
      rowSpan w rows := by
  apply le_antisymm
  · rw [rowSpan_le_iff]
    intro x hx
    rcases List.mem_cons.1 hx with rfl | hx
    · exact vec_mem_rowSpan hp
    · obtain ⟨r, hrb, rfl⟩ := List.mem_map.1 hx
      split
      · rw [vec_xor]
        exact add_mem (vec_mem_rowSpan (hb r hrb)) (vec_mem_rowSpan hp)
      · exact vec_mem_rowSpan (hb r hrb)
  · rw [rowSpan_le_iff]
    intro r hr'
    have hpivot : vec w pivot ∈ rowSpan w (pivot :: below.map fun r =>
        if Signed.testBit r c then Signed.xor r pivot else r) := vec_mem_rowSpan List.mem_cons_self
    rcases hr r hr' with rfl | hrb
    · exact hpivot
    · have hnew := vec_mem_rowSpan (w := w) (List.mem_cons_of_mem pivot (List.mem_map_of_mem
        (f := fun r => if Signed.testBit r c then Signed.xor r pivot else r) hrb))
      split at hnew
      · -- the row is its sum with the pivot, less the pivot
        rw [eq_sub_of_add_eq (vec_xor w r pivot).symm]
        exact sub_mem hnew hpivot
      · exact hnew

/-- The first pass keeps the span. -/
theorem rowSpan_eliminate : ∀ (cs : List Nat) (rows : List Int),
    rowSpan w (eliminate cs rows) = rowSpan w rows
  | [], rows => by rw [eliminate]
  | _ :: _, [] => rfl
  | c :: cs, r₀ :: rest => by
    rw [eliminate]
    split
    · exact rowSpan_eliminate cs _
    · next i hsome =>
      obtain ⟨hi, -, -⟩ := List.findIdx?_eq_some_iff_getElem.1 hsome
      obtain ⟨hpmem, hbelow, hrows⟩ := pivot_step r₀ rest (by simpa using hi)
      rw [rowSpan_cons, rowSpan_eliminate cs, ← rowSpan_cons]
      exact rowSpan_pivot_step c hpmem hbelow hrows

/-- Clearing a row adds rows of the span of the rows it is cleared with. -/
theorem vec_clearLeaders_sub_mem (r : Int) : ∀ rows : List Int,
    vec w (clearLeaders w r rows) - vec w r ∈ rowSpan w rows
  | [] => by
    rw [clearLeaders, sub_self]
    exact zero_mem _
  | s :: rest => by
    rw [clearLeaders]
    split
    · rw [sub_self]
      exact zero_mem _
    · have hrest := rowSpan_mono (w := w) fun x (hx : x ∈ rest) => List.mem_cons_of_mem s hx
      rw [← sub_add_sub_cancel _ (vec w (if Signed.testBit r (leaderOf w s).toNat then
        Signed.xor r s else r))]
      refine add_mem (hrest (vec_clearLeaders_sub_mem _ rest)) ?_
      split
      · rw [vec_xor, add_sub_cancel_left]
        exact vec_mem_rowSpan List.mem_cons_self
      · rw [sub_self]
        exact zero_mem _

/-- The second pass keeps the span: each row is cleared with the rows below it, which the rows
below it in the result span again. -/
theorem rowSpan_backSubstitute : ∀ rows : List Int,
    rowSpan w (backSubstitute w rows) = rowSpan w rows
  | [] => rfl
  | r :: rest => by
    rw [backSubstitute, rowSpan_cons, rowSpan_backSubstitute rest, ← rowSpan_cons]
    exact rowSpan_cons_congr (vec_clearLeaders_sub_mem r rest)

end RowSpan

/-- **Row reduction keeps the row space.** -/
theorem rowSpan_echelon (m : BitMatrix) : rowSpan m.cols m.echelon.rows = rowSpan m.cols m.rows :=
  (rowSpan_backSubstitute _).trans (rowSpan_eliminate _ _)

theorem cols_echelon (m : BitMatrix) : m.echelon.cols = m.cols := rfl

theorem numRows_echelon (m : BitMatrix) : m.echelon.numRows = m.numRows := by
  show (backSubstitute m.cols (eliminate (List.range m.cols) m.rows)).length = m.rows.length
  rw [length_backSubstitute, length_eliminate]

/-- The row space is the span of the masked rows. -/
theorem rowSpan_maskedRows (m : BitMatrix) :
    rowSpan m.cols (m.maskedRows.map fun n : Nat => (n : Int)) = rowSpan m.cols m.rows := by
  rw [maskedRows_eq_map_vec, List.map_map]
  apply le_antisymm
  · rw [rowSpan_le_iff]
    intro x hx
    obtain ⟨r, hr, rfl⟩ := List.mem_map.1 hx
    rw [Function.comp_apply, vec_toBits]
    exact vec_mem_rowSpan hr
  · rw [rowSpan_le_iff]
    intro r hr
    have := vec_mem_rowSpan (w := m.cols) (List.mem_map_of_mem
      (f := (fun n : Nat => (n : Int)) ∘ fun r => toBits (vec m.cols r)) hr)
    rwa [Function.comp_apply, vec_toBits] at this

/-! ### The row space of a reduced echelon form -/

section Reduced

variable {w : Nat} {pivots : List (Int × Nat)} {zeros : List Int}

theorem Reduced.nodup (h : Reduced w pivots zeros) : pivots.Nodup :=
  h.increasing.imp fun hlt => ne_of_apply_ne Prod.snd (ne_of_lt hlt)

/-- A pivot row has a one at its own leading column and a zero at every other one. -/
theorem Reduced.entryAt_lead (h : Reduced w pivots zeros) {p q : Int × Nat} (hp : p ∈ pivots)
    (hq : q ∈ pivots) : entryAt w q.2 (vec w p.1) = ofBit (decide (p.2 = q.2)) := by
  rw [entryAt_vec (h.leads q hq).1, h.testBit_lead hp hq]

theorem Reduced.entryAt_lead_of_ne (h : Reduced w pivots zeros) {p q : Int × Nat}
    (hp : p ∈ pivots) (hq : q ∈ pivots) (hpq : p ≠ q) : entryAt w q.2 (vec w p.1) = 0 := by
  rw [h.entryAt_lead hp hq, decide_eq_false fun h' => hpq (h.lead_injective hp hq h'),
    GF2Poly.ofBit_false]

/-- **Expansion in the pivot rows.**  A vector of the span of the pivot rows is the sum of the
pivot rows weighted by its entries at their leading columns. -/
theorem Reduced.eq_sum_of_mem (h : Reduced w pivots zeros) {x : Fin w → ZMod 2}
    (hx : x ∈ rowSpan w (pivots.map Prod.fst)) :
    x = ∑ p ∈ pivots.toFinset, entryAt w p.2 x • vec w p.1 := by
  rw [rowSpan] at hx
  induction hx using Submodule.span_induction with
  | mem v hv =>
    obtain ⟨r, hr, rfl⟩ := hv
    obtain ⟨p, hp, rfl⟩ := List.mem_map.1 hr
    rw [Finset.sum_eq_single_of_mem p (List.mem_toFinset.2 hp), h.entryAt_lead hp hp,
      decide_eq_true rfl, GF2Poly.ofBit_true, one_smul]
    intro q hq hqp
    rw [h.entryAt_lead_of_ne hp (List.mem_toFinset.1 hq) (Ne.symm hqp), zero_smul]
  | zero => simp
  | add x y _ _ hx hy =>
    simp only [map_add, add_smul, Finset.sum_add_distrib]
    rw [← hx, ← hy]
  | smul a x _ hx =>
    simp only [map_smul, smul_eq_mul, mul_smul, ← Finset.smul_sum]
    rw [← hx]

/-- A vector of the span with a one at `c` and zeros below `c` has `c` as a leading column. -/
theorem Reduced.exists_lead (h : Reduced w pivots zeros) {x : Fin w → ZMod 2}
    (hx : x ∈ rowSpan w (pivots.map Prod.fst)) {c : Nat} (hc : entryAt w c x = 1)
    (hbelow : ∀ j < c, entryAt w j x = 0) : ∃ p ∈ pivots, p.2 = c := by
  by_contra hno
  simp only [not_exists, not_and] at hno
  have hsum := congrArg (entryAt w c) (h.eq_sum_of_mem hx)
  rw [map_sum] at hsum
  -- a pivot row before `c` has weight zero, and one after `c` has a zero at `c`
  have hzero : ∀ p ∈ pivots.toFinset, entryAt w c (entryAt w p.2 x • vec w p.1) = 0 := by
    intro p hp
    rw [List.mem_toFinset] at hp
    rw [map_smul, smul_eq_mul]
    rcases lt_or_gt_of_ne (hno p hp) with hlt | hgt
    · rw [hbelow p.2 hlt, zero_mul]
    · have hlead := h.leads p hp
      rw [entryAt_vec (lt_trans hgt hlead.1), hlead.2.2 c hgt, GF2Poly.ofBit_false, mul_zero]
  rw [Finset.sum_eq_zero hzero, hc] at hsum
  exact one_ne_zero hsum

/-- A vector of the span with zeros at all leading columns is zero. -/
theorem Reduced.eq_zero_of_entryAt_leads (h : Reduced w pivots zeros) {x : Fin w → ZMod 2}
    (hx : x ∈ rowSpan w (pivots.map Prod.fst)) (hzero : ∀ p ∈ pivots, entryAt w p.2 x = 0) :
    x = 0 := by
  rw [h.eq_sum_of_mem hx]
  exact Finset.sum_eq_zero fun p hp => by rw [hzero p (List.mem_toFinset.1 hp), zero_smul]

/-- The pivot rows are linearly independent. -/
theorem Reduced.linearIndependent (h : Reduced w pivots zeros) :
    LinearIndependent (ZMod 2) fun i : Fin pivots.length => vec w pivots[i].1 := by
  have hmem : ∀ i : Fin pivots.length, pivots[i] ∈ pivots := fun i => List.getElem_mem _
  -- each pivot row alone has a one at its leading column
  refine linearIndependent_of_entryAt (fun i => pivots[i].2) fun i j => ?_
  by_cases hij : i = j
  · subst hij
    rw [h.entryAt_lead (hmem i) (hmem i), decide_eq_true rfl, GF2Poly.ofBit_true, if_pos rfl]
  · rw [h.entryAt_lead_of_ne (hmem j) (hmem i)
      fun heq => hij (Fin.ext (h.nodup.getElem_inj_iff.1 heq)).symm, if_neg hij]

/-- The span of the pivot rows has as many dimensions as there are pivot rows. -/
theorem Reduced.finrank_rowSpan (h : Reduced w pivots zeros) :
    Module.finrank (ZMod 2) (rowSpan w (pivots.map Prod.fst)) = pivots.length := by
  have hrange : rowSpan w (pivots.map Prod.fst) =
      Submodule.span (ZMod 2) (Set.range fun i : Fin pivots.length => vec w pivots[i].1) := by
    rw [rowSpan]
    congr 1
    ext v
    constructor
    · rintro ⟨r, hr, rfl⟩
      obtain ⟨p, hp, rfl⟩ := List.mem_map.1 hr
      obtain ⟨i, hi, rfl⟩ := List.getElem_of_mem hp
      exact ⟨⟨i, hi⟩, rfl⟩
    · rintro ⟨i, rfl⟩
      exact ⟨pivots[i].1, List.mem_map_of_mem (List.getElem_mem _), rfl⟩
  rw [hrange, finrank_span_eq_card h.linearIndependent, Fintype.card_fin]

end Reduced

/-! ### Rank -/

/-- The pivot rows of the reduced echelon form span the row space. -/
theorem rowSpan_pivots {m : BitMatrix} {P : List (Int × Nat)} {Z : List Int}
    (heq : m.echelon.rows = P.map Prod.fst ++ Z) (h : Reduced m.cols P Z) :
    rowSpan m.cols (P.map Prod.fst) = rowSpan m.cols m.rows := by
  rw [← rowSpan_append_zeroRows _ h.zero, ← heq, rowSpan_echelon]

/-- Both passes leave as many nonzero leading rows: `rank`, which runs the first pass only,
counts the pivot rows of the reduced echelon form. -/
theorem rank_eq_leadingNonzero_echelon (m : BitMatrix) : m.rank = m.echelon.leadingNonzero := by
  obtain ⟨pivots, zeros, heq, hs⟩ := eliminate_staircase m.cols m.rows
  obtain ⟨cleared, hback, hsnd, hred⟩ := backSubstitute_reduced zeros pivots hs
  have hrank : m.rank = pivots.length := leadingNonzero_eq (m := m.reduceBelow) heq hs
  have hech : m.echelon.leadingNonzero = cleared.length := by
    refine leadingNonzero_eq (m := m.echelon) ?_ hred.toStaircase
    show backSubstitute m.cols (eliminate (List.range m.cols) m.rows) = _
    rw [heq, hback]
  rw [hrank, hech]
  simpa using (congrArg List.length hsnd).symm

/-- **The rank is the dimension of the row space.** -/
theorem rank_eq_finrank (m : BitMatrix) :
    m.rank = Module.finrank (ZMod 2) (rowSpan m.cols m.rows) := by
  obtain ⟨pivots, zeros, heq, hred⟩ := echelon_reduced m
  rw [rank_eq_leadingNonzero_echelon, leadingNonzero_eq heq hred.toStaircase,
    ← rowSpan_pivots heq hred, hred.finrank_rowSpan]

theorem rank_le_cols (m : BitMatrix) : m.rank ≤ m.cols := by
  have := Submodule.finrank_le (rowSpan m.cols m.rows)
  rw [Module.finrank_fin_fun] at this
  rw [rank_eq_finrank]
  exact this

/-! ### Uniqueness of the reduced echelon form -/

section Unique

variable {w : Nat} {P₁ P₂ : List (Int × Nat)} {Z₁ Z₂ : List Int}

/-- A leading column of a reduced form leads a row of every reduced form whose span contains
the first one's. -/
theorem Reduced.exists_lead_of_le (h₁ : Reduced w P₁ Z₁) (h₂ : Reduced w P₂ Z₂)
    (hle : rowSpan w (P₁.map Prod.fst) ≤ rowSpan w (P₂.map Prod.fst)) {p : Int × Nat}
    (hp : p ∈ P₁) : ∃ q ∈ P₂, q.2 = p.2 := by
  have hlead := h₁.leads p hp
  refine h₂.exists_lead (hle (vec_mem_rowSpan (List.mem_map_of_mem hp))) ?_ fun j hj => ?_
  · rw [entryAt_vec hlead.1, hlead.2.1, GF2Poly.ofBit_true]
  · rw [entryAt_vec (lt_trans hj hlead.1), hlead.2.2 j hj, GF2Poly.ofBit_false]

/-- Two reduced forms of one span have the same pivot row at each leading column: the two rows
differ by a vector of the span that is zero at every leading column. -/
theorem Reduced.vec_eq_of_lead_eq (h₁ : Reduced w P₁ Z₁) (h₂ : Reduced w P₂ Z₂)
    (hspan : rowSpan w (P₁.map Prod.fst) = rowSpan w (P₂.map Prod.fst)) {p q : Int × Nat}
    (hp : p ∈ P₁) (hq : q ∈ P₂) (hpq : p.2 = q.2) : vec w p.1 = vec w q.1 := by
  rw [← sub_eq_zero]
  have hmem : vec w p.1 - vec w q.1 ∈ rowSpan w (P₂.map Prod.fst) :=
    sub_mem (hspan ▸ vec_mem_rowSpan (List.mem_map_of_mem hp))
      (vec_mem_rowSpan (List.mem_map_of_mem hq))
  refine h₂.eq_zero_of_entryAt_leads hmem fun q' hq' => ?_
  obtain ⟨p', hp', hpq'⟩ := h₂.exists_lead_of_le h₁ hspan.ge hq'
  rw [map_sub, ← hpq', h₁.entryAt_lead hp hp', hpq', h₂.entryAt_lead hq hq', hpq, sub_self]

/-- **Uniqueness.**  Two reduced forms of one span have the same pivot rows, with the same leading
columns, in the same order. -/
theorem Reduced.map_vec_eq (h₁ : Reduced w P₁ Z₁) (h₂ : Reduced w P₂ Z₂)
    (hspan : rowSpan w (P₁.map Prod.fst) = rowSpan w (P₂.map Prod.fst)) :
    P₁.map (fun p => (vec w p.1, p.2)) = P₂.map (fun p => (vec w p.1, p.2)) := by
  have : Std.Irrefl fun a b : (Fin w → ZMod 2) × Nat => a.2 < b.2 := ⟨fun a => lt_irrefl a.2⟩
  -- both lists are sorted by leading column and have the same members
  refine List.Pairwise.eq_of_mem_iff (r := fun a b : (Fin w → ZMod 2) × Nat => a.2 < b.2)
    (List.pairwise_map.2 h₁.increasing) (List.pairwise_map.2 h₂.increasing) fun x => ?_
  simp only [List.mem_map]
  constructor
  · rintro ⟨p, hp, rfl⟩
    obtain ⟨q, hq, hqp⟩ := h₁.exists_lead_of_le h₂ hspan.le hp
    exact ⟨q, hq, by rw [h₁.vec_eq_of_lead_eq h₂ hspan hp hq hqp.symm, hqp]⟩
  · rintro ⟨q, hq, rfl⟩
    obtain ⟨p, hp, hpq⟩ := h₂.exists_lead_of_le h₁ hspan.ge hq
    exact ⟨p, hp, by rw [h₁.vec_eq_of_lead_eq h₂ hspan hp hq hpq, hpq]⟩

end Unique

/-- The entries of a reduced form's rows: those of the pivot rows, then zeros. -/
theorem map_toBits_vec_reduced {w : Nat} {P : List (Int × Nat)} {Z : List Int}
    (h : Reduced w P Z) : (P.map Prod.fst ++ Z).map (fun r => toBits (vec w r)) =
      (P.map fun p => (vec w p.1, p.2)).map (fun x => toBits x.1) ++
        List.replicate Z.length (toBits (0 : Fin w → ZMod 2)) := by
  have hzeros : Z.map (fun r => toBits (vec w r)) =
      List.replicate Z.length (toBits (0 : Fin w → ZMod 2)) := by
    refine List.eq_replicate_iff.2 ⟨List.length_map _, fun b hb => ?_⟩
    obtain ⟨z, hz, rfl⟩ := List.mem_map.1 hb
    rw [vec_eq_zero_iff.2 (h.zero z hz)]
  rw [List.map_append, List.map_map, List.map_map, hzeros]
  rfl

/-- Matrices of one width and one row space reduce to the same pivot rows, at the same leading
columns. -/
theorem map_vec_pivots_eq {m₁ m₂ : BitMatrix} {P₁ P₂ : List (Int × Nat)} {Z₁ Z₂ : List Int}
    (hcols : m₁.cols = m₂.cols) (hspan : rowSpan m₁.cols m₁.rows = rowSpan m₁.cols m₂.rows)
    (heq₁ : m₁.echelon.rows = P₁.map Prod.fst ++ Z₁) (h₁ : Reduced m₁.cols P₁ Z₁)
    (heq₂ : m₂.echelon.rows = P₂.map Prod.fst ++ Z₂) (h₂ : Reduced m₂.cols P₂ Z₂) :
    P₁.map (fun p => (vec m₁.cols p.1, p.2)) = P₂.map (fun p => (vec m₁.cols p.1, p.2)) := by
  refine h₁.map_vec_eq (hcols ▸ h₂) ?_
  rw [rowSpan_pivots heq₁ h₁, hspan, hcols, rowSpan_pivots heq₂ h₂]

/-- **The reduced echelon form is unique.**  Two matrices with the same width, the same number
of rows and the same row space reduce to the same entries. -/
theorem echelon_maskedRows_eq {m₁ m₂ : BitMatrix} (hcols : m₁.cols = m₂.cols)
    (hrows : m₁.numRows = m₂.numRows)
    (hspan : rowSpan m₁.cols m₁.rows = rowSpan m₁.cols m₂.rows) :
    m₁.echelon.maskedRows = m₂.echelon.maskedRows := by
  obtain ⟨c₂, rows₂, hpos, hle, hne⟩ := m₂
  subst hcols
  obtain ⟨P₁, Z₁, heq₁, h₁⟩ := echelon_reduced m₁
  obtain ⟨P₂, Z₂, heq₂, h₂⟩ := echelon_reduced ⟨m₁.cols, rows₂, hpos, hle, hne⟩
  have hpivots := map_vec_pivots_eq (by rfl) hspan heq₁ h₁ heq₂ h₂
  -- the zero rows fill up the same number of rows
  have hlen : Z₁.length = Z₂.length := by
    have h₁len := congrArg List.length heq₁
    have h₂len := congrArg List.length heq₂
    have hP := congrArg List.length hpivots
    simp only [List.length_append, List.length_map] at h₁len h₂len hP
    have := numRows_echelon m₁
    have := numRows_echelon ⟨m₁.cols, rows₂, hpos, hle, hne⟩
    simp only [numRows] at *
    omega
  rw [maskedRows_eq_map_vec, maskedRows_eq_map_vec, cols_echelon, cols_echelon, heq₁, heq₂,
    map_toBits_vec_reduced h₁, map_toBits_vec_reduced h₂, hpivots, hlen]

/-! ### The reduced echelon form, read through the rows -/

/-- Rows in reduced echelon form with `r` nonzero rows, read as the rows of a matrix read
themselves: the first `r` rows are nonzero and the others zero, the leading positions of the
nonzero rows increase, and each leading column is zero in every other row. -/
def ReducedEchelon (rows : List BitRow) (r : Nat) : Prop :=
  ∃ nonzero zero : List BitRow, rows = nonzero ++ zero ∧ nonzero.length = r ∧
    (∀ x ∈ nonzero, x.isZero = false) ∧ (∀ z ∈ zero, z.isZero = true) ∧
    nonzero.Pairwise (fun x y => x.leaderPos < y.leaderPos ∧
      x.entry y.leaderPos.toNat = false ∧ y.entry x.leaderPos.toNat = false) ∧
    ∀ z ∈ zero, ∀ x ∈ nonzero, z.entry x.leaderPos.toNat = false

/-- The rows of `echelon m` are in reduced echelon form, with `leadingNonzero` nonzero rows. -/
theorem echelon_reducedEchelon (m : BitMatrix) :
    ReducedEchelon m.echelon.bitRows m.echelon.leadingNonzero := by
  obtain ⟨P, Z, heq, h⟩ := echelon_reduced m
  have hlead : ∀ p ∈ P, (m.rowAt p.1).leaderPos = p.2 := fun p hp => by
    rw [leaderPos_rowAt, leaderOf_of_leadsAt (h.leads p hp)]
  refine ⟨P.map fun p => m.rowAt p.1, Z.map m.rowAt, ?_, ?_, ?_, ?_, ?_, ?_⟩
  · rw [bitRows, heq, List.map_append, List.map_map]
    rfl
  · rw [List.length_map, leadingNonzero_eq heq h.toStaircase]
  · intro x hx
    obtain ⟨p, hp, rfl⟩ := List.mem_map.1 hx
    rw [Bool.eq_false_iff]
    intro hzero
    have := isZero_rowAt.1 hzero p.2 (h.leads p hp).1
    rw [(h.leads p hp).2.1] at this
    exact Bool.noConfusion this
  · intro x hx
    obtain ⟨z, hz, rfl⟩ := List.mem_map.1 hx
    exact isZero_rowAt.2 (h.zero z hz)
  · rw [List.pairwise_map]
    refine List.Pairwise.imp_of_mem (fun {p q} hp hq hpq => ?_) (h.increasing.and h.cleared)
    rw [hlead p hp, hlead q hq, Int.toNat_natCast, Int.toNat_natCast]
    -- the later row has no one before its own leading column
    exact ⟨by exact_mod_cast hpq.1, hpq.2, (h.leads q hq).2.2 p.2 hpq.1⟩
  · intro x hx y hy
    obtain ⟨z, hz, rfl⟩ := List.mem_map.1 hx
    obtain ⟨p, hp, rfl⟩ := List.mem_map.1 hy
    rw [hlead p hp, Int.toNat_natCast]
    exact h.zero z hz p.2 (h.leads p hp).1

/-- **Row reduction.**  After `echelon`, the rows are in reduced echelon form with
`leadingNonzero` nonzero rows, and they span the same space as before. That form is the only
one of its span: every matrix of the same width, number of rows and row space reduces to the
same entries, so reducing twice gives what reducing once gives. -/
theorem echelon_reduced_form (m : BitMatrix) :
    ReducedEchelon m.echelon.bitRows m.echelon.leadingNonzero ∧
    rowSpan m.cols m.echelon.rows = rowSpan m.cols m.rows ∧
    (∀ m' : BitMatrix, m'.cols = m.cols → m'.numRows = m.numRows →
      rowSpan m.cols m'.rows = rowSpan m.cols m.rows →
      m'.echelon.maskedRows = m.echelon.maskedRows) ∧
    m.echelon.echelon.maskedRows = m.echelon.maskedRows := by
  refine ⟨echelon_reducedEchelon m, rowSpan_echelon m, fun m' hcols hrows hspan => ?_, ?_⟩
  · exact echelon_maskedRows_eq hcols hrows (hcols ▸ hspan)
  · exact echelon_maskedRows_eq (cols_echelon m) (numRows_echelon m) (rowSpan_echelon m)

end FiniteRings.BitMatrix

import Mathlib
import FiniteRings.Proofs.Bits.Basis

/-!
# Bits beyond the width are never observed

A bit vector or a matrix keeps the raw integers it was given, with whatever bits they have at and
above the width and, for a negative integer, infinitely many ones there. Every method reads
those integers only below the width, or through their masked values, and writes into them only
bitwise or by adding rows; so two objects of one width with the same masked bits answer every
method alike and stay alike (`BitRow.apply_agree`, `BitMatrix.apply_agree`), and then so do
whole runs of methods (`stepAnswers_rel`). In particular an object answers as its masked copy
does (`masked_bits_determine_runs`).

The matrix methods that reduce rows are the ones where this is not plain: `rank` and
`kernel_basis` depend on the row space only, and `row_echelon_form` ends in the unique reduced
echelon form of the row space, which the masked rows determine.
-/

namespace FiniteRings

/-! ### Runs of related objects -/

/-- Two outcomes that are the same error, or successes with related values. -/
def OutcomeRel {α : Type} (R : α → α → Prop) : Outcome α → Outcome α → Prop
  | .ok a, .ok b => R a b
  | .error e, .error e' => e = e'
  | _, _ => False

section OutcomeRel

variable {α β : Type} {R : α → α → Prop} {o o' : Outcome α}

theorem OutcomeRel.bind_eq (h : OutcomeRel R o o') {f g : α → Outcome β}
    (hfg : ∀ a b, R a b → f a = g b) : o >>= f = o' >>= g :=
  match o, o', h with
  | .ok a, .ok b, h => hfg a b h
  | .error _, .error _, h => by
    subst h
    rfl

/-- Continuing two related outcomes with steps that relate their results; the step on the
first side may use that its outcome is the success it continues. -/
theorem OutcomeRel.bind {S : β → β → Prop} (h : OutcomeRel R o o') {f g : α → Outcome β}
    (hfg : ∀ a b, o = .ok a → R a b → OutcomeRel S (f a) (g b)) :
    OutcomeRel S (o >>= f) (o' >>= g) :=
  match o, o', h with
  | .ok a, .ok b, h => hfg a b rfl h
  | .error _, .error _, h => h

end OutcomeRel

/-- Mutators with related outcomes answer alike and leave related objects. -/
theorem mutation_rel {σ : Type} {R : σ → σ → Prop} {s s' : σ} {o o' : Outcome σ}
    (hs : R s s') (ho : OutcomeRel R o o') :
    (mutation s o).1 = (mutation s' o').1 ∧ R (mutation s o).2 (mutation s' o').2 :=
  match o, o', ho with
  | .ok _, .ok _, h => ⟨rfl, h⟩
  | .error _, .error _, h => by
    subst h
    exact ⟨rfl, hs⟩

/-- **Runs of related objects.**  If every step answers alike on related objects and leaves
them related, then two runs from related objects answer alike step by step, and the objects
stay related after every step. -/
theorem stepAnswers_rel {σ τ : Type} {apply : σ → τ → Outcome Reply × σ}
    {R : σ → σ → Prop}
    (hstep : ∀ {s s' : σ} (t : τ), R s s' →
      (apply s t).1 = (apply s' t).1 ∧ R (apply s t).2 (apply s' t).2) :
    ∀ (ts : List τ) {s s' : σ}, R s s' → List.Forall₂ (fun a b => a.1 = b.1 ∧ R a.2 b.2)
      (stepAnswers apply s ts) (stepAnswers apply s' ts)
  | [], _, _, _ => List.Forall₂.nil
  | t :: ts, _, _, h => List.Forall₂.cons (hstep t h) (stepAnswers_rel hstep ts (hstep t h).2)

theorem mapM_eq_of_forall₂ {α β γ : Type} {R : α → β → Prop} {f : α → Outcome γ}
    {g : β → Outcome γ} (hfg : ∀ a b, R a b → f a = g b) :
    ∀ {l : List α} {l' : List β}, List.Forall₂ R l l' → l.mapM f = l'.mapM g
  | [], [], .nil => rfl
  | a :: _, b :: _, .cons hab h => by
    rw [List.mapM_cons, List.mapM_cons, hfg a b hab, mapM_eq_of_forall₂ hfg h]

/-! ### Raw rows with the same entries -/

namespace BitMatrix

/-- Two raw rows have the same masked bits exactly when they are the same vector. -/
theorem masked_eq_iff_vec_eq {w : Nat} {a b : Int} :
    (a % Int.pow 2 w).toNat = (b % Int.pow 2 w).toNat ↔ vec w a = vec w b := by
  rw [← toBits_vec, ← toBits_vec]
  constructor
  · intro h
    rw [← vec_toBits (vec w a), h, vec_toBits]
  · intro h
    rw [h]

theorem vec_or_congr {w : Nat} {a a' : Int} (h : vec w a = vec w a') (b : Int) :
    vec w (Signed.or a b) = vec w (Signed.or a' b) := by
  rw [vec_eq_vec_iff] at h ⊢
  intro j hj
  rw [Signed.testBit_or, Signed.testBit_or, h j hj]

theorem vec_and_congr {w : Nat} {a a' : Int} (h : vec w a = vec w a') (b : Int) :
    vec w (Signed.and a b) = vec w (Signed.and a' b) := by
  rw [vec_eq_vec_iff] at h ⊢
  intro j hj
  rw [Signed.testBit_and, Signed.testBit_and, h j hj]

end BitMatrix

namespace BitRow

open BitMatrix (vec vec_eq_vec_iff masked_eq_iff_vec_eq)

/-- Two bit vectors of one width with the same masked bits. -/
def Agree (r s : BitRow) : Prop := r.width = s.width ∧ r.masked = s.masked

section Agree

variable {r s : BitRow}

theorem agree_iff :
    r.Agree s ↔ r.width = s.width ∧ vec r.width r.bits = vec r.width s.bits := by
  rw [Agree, masked, masked]
  constructor
  · rintro ⟨hw, hm⟩
    rw [← hw] at hm
    exact ⟨hw, masked_eq_iff_vec_eq.1 hm⟩
  · rintro ⟨hw, hv⟩
    refine ⟨hw, ?_⟩
    rw [← hw]
    exact masked_eq_iff_vec_eq.2 hv

theorem Agree.entry_eq (h : r.Agree s) {j : Nat} (hj : j < r.width) : r.entry j = s.entry j :=
  vec_eq_vec_iff.1 (agree_iff.1 h).2 j hj

theorem Agree.inRange_eq (h : r.Agree s) (j : Int) : r.inRange j = s.inRange j := by
  simp only [inRange, h.1]

theorem Agree.get_eq (h : r.Agree s) (j : Int) : r.get j = s.get j := by
  unfold get
  rw [← h.inRange_eq, ← h.1]
  split
  · next hj => rw [h.entry_eq (by simp [inRange] at hj; omega)]
  · rfl

/-- Setting an entry keeps two vectors alike. -/
theorem Agree.set (h : r.Agree s) (j v : Int) : OutcomeRel Agree (r.set j v) (s.set j v) := by
  have hv := (agree_iff.1 h).2
  unfold BitRow.set
  rw [← h.inRange_eq]
  split
  · refine agree_iff.2 ⟨h.1, ?_⟩
    show vec r.width (if v % 2 = 1 then _ else _) = vec r.width (if v % 2 = 1 then _ else _)
    split
    · exact BitMatrix.vec_or_congr hv _
    · exact BitMatrix.vec_and_congr hv _
  · show Error.bitIndex j r.width = Error.bitIndex j s.width
    rw [h.1]

/-- Flipping an entry keeps two vectors alike. -/
theorem Agree.toggle (h : r.Agree s) (j : Int) : OutcomeRel Agree (r.toggle j) (s.toggle j) := by
  have hv := (agree_iff.1 h).2
  unfold BitRow.toggle
  rw [← h.inRange_eq]
  split
  · refine agree_iff.2 ⟨h.1, ?_⟩
    show vec r.width (Signed.xor r.bits _) = vec r.width (Signed.xor s.bits _)
    rw [BitMatrix.vec_xor, BitMatrix.vec_xor, hv]
  · show Error.bitIndex j r.width = Error.bitIndex j s.width
    rw [h.1]

theorem Agree.format_eq (h : r.Agree s) (spec : String) : r.format spec = s.format spec := by
  simp only [format, h.1, h.2]

theorem Agree.toBinary_eq (h : r.Agree s) : r.toBinary = s.toBinary := by
  simp only [toBinary, h.1, h.2]

end Agree

theorem width_of_set {r r' : BitRow} {j v : Int} (h : r.set j v = .ok r') : r'.width = r.width := by
  unfold BitRow.set at h
  split at h
  · cases h
    rfl
  · cases h

/-- **One method on alike vectors.**  Every method answers alike on two vectors of one width with
the same masked bits, and leaves them alike. -/
theorem apply_agree {r s : BitRow} (t : Step) (h : r.Agree s) :
    (r.apply t).1 = (s.apply t).1 ∧ (r.apply t).2.Agree (s.apply t).2 := by
  cases t with
  | get j => exact ⟨by simp only [apply, h.get_eq j], h⟩
  | set j v => exact mutation_rel h (h.set j v)
  | toggle j => exact mutation_rel h (h.toggle j)
  | findLeaderPos => exact ⟨by simp only [apply, leaderPos, h.2], h⟩
  | masked => exact ⟨by simp only [apply, h.2], h⟩
  | isZero => exact ⟨by simp only [apply, isZero, h.2], h⟩
  | len => exact ⟨by simp only [apply, h.1], h⟩
  | format spec => exact ⟨by simp only [apply, h.format_eq spec], h⟩
  | str => exact ⟨by simp only [apply, h.toBinary_eq], h⟩
  | repr => exact ⟨by simp only [apply, repr, h.1, h.toBinary_eq], h⟩
  | eq n bits => exact ⟨by simp only [apply, sameVector, h.1, h.2], h⟩

/-- The vector with its raw bits replaced by its masked bits. -/
def lowered (r : BitRow) : BitRow := { r with bits := r.masked }

theorem masked_lt (r : BitRow) : r.masked < 2 ^ r.width := by
  rw [masked, ← BitMatrix.toBits_vec]
  exact BitMatrix.toBits_lt _

theorem agree_lowered (r : BitRow) : r.Agree r.lowered :=
  ⟨rfl, (BitMatrix.toNat_emod_two_pow_of_lt r.masked_lt).symm⟩

end BitRow

/-! ### Matrices with the same entries -/

namespace BitMatrix

/-- Two matrices of one width with the same masked rows. -/
def Agree (m n : BitMatrix) : Prop := m.cols = n.cols ∧ m.maskedRows = n.maskedRows

theorem masked_rowAt (m : BitMatrix) {r : BitRow} (hr : r.width = m.cols) :
    (m.rowAt r.bits).masked = r.masked := by
  rw [BitRow.masked, BitRow.masked, hr]
  rfl

theorem masked_rowAt_getD (m : BitMatrix) (k : Nat) :
    (m.rowAt (m.rows.getD k 0)).masked = m.maskedRows.getD k 0 := by
  rw [maskedRows, bitRows, List.map_map, List.getD_eq_getElem?_getD, List.getD_eq_getElem?_getD,
    List.getElem?_map]
  cases m.rows[k]? with
  | none => simp [BitRow.masked, rowAt]
  | some r => rfl

/-- The masked rows after replacing row `k` by the raw bits of a vector of the matrix's width. -/
theorem maskedRows_setRow (m : BitMatrix) (k : Nat) {r : BitRow} (hr : r.width = m.cols)
    (hne : m.rows.set k r.bits ≠ []) :
    ({ m with rows := m.rows.set k r.bits, rows_ne := hne } : BitMatrix).maskedRows =
      m.maskedRows.set k r.masked := by
  rw [maskedRows, bitRows, maskedRows, bitRows, List.map_map, List.map_map, List.map_set]
  congr 1
  exact masked_rowAt m hr

/-- The rows that lead with a nonzero row, counted on the masked rows. -/
theorem leadingNonzero_eq_maskedRows (m : BitMatrix) :
    m.leadingNonzero = (m.maskedRows.takeWhile fun k => !(k == 0)).length := by
  rw [maskedRows, List.takeWhile_map, List.length_map]
  rfl

section Agree

variable {m n : BitMatrix}

theorem Agree.numRows_eq (h : m.Agree n) : m.numRows = n.numRows := by
  have := congrArg List.length h.2
  simpa [maskedRows, bitRows, numRows] using this

theorem Agree.forall₂_bitRows (h : m.Agree n) :
    List.Forall₂ BitRow.Agree m.bitRows n.bitRows := by
  have hmasked : List.Forall₂ Eq m.maskedRows n.maskedRows := by
    rw [List.forall₂_eq_eq_eq]
    exact h.2
  simp only [maskedRows, bitRows, List.forall₂_map_left_iff, List.forall₂_map_right_iff]
    at hmasked ⊢
  exact hmasked.imp fun a b hab => ⟨h.1, hab⟩

theorem Agree.map_bitRows {α : Type} (h : m.Agree n) {f : BitRow → α}
    (hf : ∀ r s, r.Agree s → f r = f s) : m.bitRows.map f = n.bitRows.map f := by
  have hmap : List.Forall₂ Eq (m.bitRows.map f) (n.bitRows.map f) := by
    rw [List.forall₂_map_left_iff, List.forall₂_map_right_iff]
    exact h.forall₂_bitRows.imp hf
  rwa [List.forall₂_eq_eq_eq] at hmap

/-- Alike matrices have the same row space. -/
theorem Agree.rowSpan_eq (h : m.Agree n) : rowSpan m.cols m.rows = rowSpan m.cols n.rows := by
  obtain ⟨c, rows, hpos, hle, hne⟩ := n
  obtain ⟨hc, hrows⟩ := h
  subst hc
  rw [← rowSpan_maskedRows m, hrows]
  exact rowSpan_maskedRows ⟨m.cols, rows, hpos, hle, hne⟩

theorem Agree.rowAt_getD (h : m.Agree n) (k : Nat) :
    (m.rowAt (m.rows.getD k 0)).Agree (n.rowAt (n.rows.getD k 0)) :=
  ⟨h.1, by rw [masked_rowAt_getD, masked_rowAt_getD, h.2]⟩

theorem Agree.row (h : m.Agree n) (i : Int) : OutcomeRel BitRow.Agree (m.row i) (n.row i) := by
  unfold BitMatrix.row
  rw [h.numRows_eq]
  split
  · next k _ => exact h.rowAt_getD k
  · rfl

theorem Agree.get_eq (h : m.Agree n) (i j : Int) : m.get i j = n.get i j :=
  (h.row i).bind_eq fun _ _ hab => hab.get_eq j

/-- Setting an entry keeps two matrices alike: the rows set are alike vectors of the width. -/
theorem Agree.set (h : m.Agree n) (i j v : Int) : OutcomeRel Agree (m.set i j v) (n.set i j v) := by
  unfold BitMatrix.set
  rw [h.numRows_eq]
  split
  · next k _ =>
    refine ((h.rowAt_getD k).set j v).bind fun a b ha hab => ?_
    have hwa : a.width = m.cols := BitRow.width_of_set ha
    show Agree _ _
    refine ⟨h.1, ?_⟩
    rw [maskedRows_setRow m k hwa, maskedRows_setRow n k (hab.1 ▸ h.1 ▸ hwa), h.2, hab.2]
  · rfl

theorem Agree.mulBits_eq (h : m.Agree n) (v : Int) : m.mulBits v = n.mulBits v := by
  unfold mulBits
  rw [h.2, h.numRows_eq]

theorem Agree.mulRow_eq (h : m.Agree n) : m.mulRow = n.mulRow :=
  funext fun v => h.mulBits_eq v.masked

theorem Agree.repr_eq (h : m.Agree n) : m.repr = n.repr := by
  unfold BitMatrix.repr
  rw [h.1, h.2]

/-- Alike matrices reduce to alike matrices: both end in the reduced echelon form of one row
space. -/
theorem Agree.echelon (h : m.Agree n) : m.echelon.Agree n.echelon :=
  ⟨h.1, echelon_maskedRows_eq h.1 h.numRows_eq h.rowSpan_eq⟩

theorem Agree.rank_eq (h : m.Agree n) : m.rank = n.rank := by
  rw [rank_eq_finrank, rank_eq_finrank, h.rowSpan_eq, h.1]

theorem Agree.leadingNonzero_eq (h : m.Agree n) : m.leadingNonzero = n.leadingNonzero := by
  rw [leadingNonzero_eq_maskedRows, leadingNonzero_eq_maskedRows, h.2]

end Agree

/-- The completion of a single free column reads the pivot rows only through their entries. -/
theorem solution_single_congr {w f : Nat} (hf : f < w) {P₁ P₂ : List (Int × Nat)}
    (h : P₁.map (fun p => (vec w p.1, p.2)) = P₂.map (fun p => (vec w p.1, p.2))) :
    solution w P₁ {f} = solution w P₂ {f} := by
  have hany : ∀ (P : List (Int × Nat)) (j : Nat),
      (P.any fun p => p.2 == j &&
        decide (∑ g ∈ ({f} : Finset Nat), GF2Poly.ofBit (Signed.testBit p.1 g) = 1)) =
      (P.map fun p => (vec w p.1, p.2)).any fun x => x.2 == j && decide (x.1 ⟨f, hf⟩ = 1) := by
    intro P j
    rw [List.any_map]
    simp only [Finset.sum_singleton, Function.comp_def, vec_apply]
    -- the decision procedures still name the entry through `vec`
    rfl
  unfold solution
  congr 1
  funext j
  rw [hany P₁ j, hany P₂ j, h]

/-- The kernel rows of a reduced form read its pivot rows only through their entries. -/
theorem kernelRows_congr {w : Nat} {P₁ P₂ : List (Int × Nat)}
    (h : P₁.map (fun p => (vec w p.1, p.2)) = P₂.map (fun p => (vec w p.1, p.2))) :
    kernelRows w P₁ = kernelRows w P₂ := by
  have hsnd : P₁.map Prod.snd = P₂.map Prod.snd := by
    simpa [List.map_map, Function.comp_def] using congrArg (List.map Prod.snd) h
  have hfree : freeList w P₁ = freeList w P₂ := by
    rw [freeList, freeList, hsnd]
  rw [kernelRows, kernelRows, hfree]
  refine List.map_congr_left fun f hf => ?_
  have hfw : f < w := List.mem_range.1 (List.mem_filter.1 hf).1
  rw [solution_single_congr hfw h]

/-- Alike matrices have the same kernel basis, raw rows included: it is read off the pivot rows
of the reduced echelon form, which have the same entries, at the same leading columns. -/
theorem Agree.kernelBasis_eq {m n : BitMatrix} (h : m.Agree n) : m.kernelBasis = n.kernelBasis := by
  obtain ⟨P₁, Z₁, heq₁, h₁⟩ := echelon_reduced m
  obtain ⟨P₂, Z₂, heq₂, h₂⟩ := echelon_reduced n
  have hP := map_vec_pivots_eq h.1 h.rowSpan_eq heq₁ h₁ heq₂ h₂
  have hlen : P₁.length = P₂.length := by
    simpa using congrArg List.length hP
  rw [BitMatrix.kernelBasis_eq heq₁ h₁, BitMatrix.kernelBasis_eq heq₂ h₂, hlen,
    kernelRows_congr hP, h.1]

/-- **One method on alike matrices.**  Every method answers alike on two matrices of one width
with the same masked rows, and leaves them alike. -/
theorem apply_agree {m n : BitMatrix} (t : Step) (h : m.Agree n) :
    (m.apply t).1 = (n.apply t).1 ∧ (m.apply t).2.Agree (n.apply t).2 := by
  cases t with
  | get i j => exact ⟨by simp only [apply, h.get_eq i j], h⟩
  | set i j v => exact mutation_rel h (h.set i j v)
  | mul v => exact ⟨by simp only [apply, h.mulBits_eq v], h⟩
  | mulVec k bits => exact ⟨by simp only [apply, h.mulRow_eq], h⟩
  | rowEchelonForm => exact ⟨rfl, h.echelon⟩
  | rank => exact ⟨by simp only [apply, h.rank_eq], h⟩
  | rankRR => exact ⟨by simp only [apply, h.leadingNonzero_eq], h⟩
  | kernelBasis => exact ⟨by simp only [apply, h.kernelBasis_eq], h⟩
  | format spec =>
    refine ⟨?_, h⟩
    simp only [apply, format, mapM_eq_of_forall₂ (fun a b hab => hab.format_eq spec)
      h.forall₂_bitRows]
  | str =>
    exact ⟨by simp only [apply, toBinary, h.map_bitRows fun _ _ => BitRow.Agree.toBinary_eq], h⟩
  | repr => exact ⟨by simp only [apply, h.repr_eq], h⟩
  | len => exact ⟨by simp only [apply, h.numRows_eq], h⟩
  | eq cols rows => exact ⟨by simp only [apply, sameMatrix, h.1, h.2], h⟩

/-- The matrix with every raw row replaced by its masked bits. -/
def lowered (m : BitMatrix) : BitMatrix where
  cols := m.cols
  rows := m.maskedRows.map fun k : Nat => (k : Int)
  cols_pos := m.cols_pos
  cols_le := m.cols_le
  rows_ne := by simpa [maskedRows, bitRows] using m.rows_ne

theorem agree_lowered (m : BitMatrix) : m.Agree m.lowered := by
  refine ⟨rfl, ?_⟩
  have hlt : ∀ k ∈ m.maskedRows, k < 2 ^ m.cols := by
    intro k hk
    obtain ⟨r, hr, rfl⟩ := List.mem_map.1 hk
    obtain ⟨x, -, rfl⟩ := List.mem_map.1 hr
    exact BitRow.masked_lt (m.rowAt x)
  -- a masked row, read again as a raw row of the width, is its own masked value
  show m.maskedRows = ((m.maskedRows.map fun k : Nat => (k : Int)).map m.rowAt).map BitRow.masked
  rw [List.map_map, List.map_map]
  refine (List.map_id _).symm.trans (List.map_congr_left fun k hk => ?_)
  exact (toNat_emod_two_pow_of_lt (hlt k hk)).symm

end BitMatrix

/-- **Bits beyond the width are never observed.**  Any run of methods on a bit vector, or on a
matrix, gives step for step the same answers and errors as the same run on the copy whose raw
integers are replaced by their masked bits, and after every step the two objects have the same
width and the same masked bits. -/
theorem masked_bits_determine_runs :
    (∀ (r : BitRow) (steps : List BitRow.Step),
      List.Forall₂ (fun a b => a.1 = b.1 ∧ a.2.width = b.2.width ∧ a.2.masked = b.2.masked)
        (stepAnswers BitRow.apply r steps) (stepAnswers BitRow.apply r.lowered steps)) ∧
    (∀ (m : BitMatrix) (steps : List BitMatrix.Step),
      List.Forall₂
        (fun a b => a.1 = b.1 ∧ a.2.cols = b.2.cols ∧ a.2.maskedRows = b.2.maskedRows)
        (stepAnswers BitMatrix.apply m steps) (stepAnswers BitMatrix.apply m.lowered steps)) :=
  ⟨fun r steps => stepAnswers_rel BitRow.apply_agree steps r.agree_lowered,
    fun m steps => stepAnswers_rel BitMatrix.apply_agree steps m.agree_lowered⟩

end FiniteRings

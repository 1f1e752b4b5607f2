import Mathlib.Data.List.TakeWhile
import FiniteRings.Proofs.Text.Numeral

/-!
# The grammar of integers written in a radix

`readRadix base` reads an integer in a base up to sixteen. `RadixText` states what it accepts:
after each decimal digit of another script is replaced by its ASCII digit and each blank beyond
ASCII by a space (`asciiTwin`), the text is an optional sign and a numeral between ASCII blanks;
the numeral may stand after `0x` or `0X` and one underscore in base sixteen, and any two of its
digits may be separated by one underscore. The main statement is `readRadix_eq_some_iff`.
-/

namespace FiniteRings.Text

/-- Digits of `base`, each after at most one underscore, and their values. -/
inductive UnderscoredDigits (base : Nat) : List Char → List Nat → Prop
  | nil : UnderscoredDigits base [] []
  | digit {c : Char} {v : Nat} {cs : List Char} {vs : List Nat} (hc : DigitOf base c v)
      (h : UnderscoredDigits base cs vs) : UnderscoredDigits base (c :: cs) (v :: vs)
  | underscore {c : Char} {v : Nat} {cs : List Char} {vs : List Nat} (hc : DigitOf base c v)
      (h : UnderscoredDigits base cs vs) : UnderscoredDigits base ('_' :: c :: cs) (v :: vs)

/-- A numeral of `base` in which any two neighbouring digits may be separated by one underscore,
and the number it denotes. -/
def GroupedNumeral (base : Nat) (cs : List Char) (n : Nat) : Prop :=
  ∃ c rest v vs, cs = c :: rest ∧ DigitOf base c v ∧ UnderscoredDigits base rest vs ∧
    n = Nat.ofDigits base (v :: vs).reverse

/-- The unsigned numbers of `base`: a grouped numeral, which in base sixteen may stand after `0x`
or `0X` and one underscore. -/
inductive RadixUnsigned (base : Nat) : List Char → Nat → Prop
  | plain {cs : List Char} {n : Nat} (h : GroupedNumeral base cs n) : RadixUnsigned base cs n
  | prefixed {x : Char} {cs : List Char} {n : Nat} (hb : base = 16) (hx : x = 'x' ∨ x = 'X')
      (h : GroupedNumeral base cs n) : RadixUnsigned base ('0' :: x :: cs) n
  | prefixedUnderscore {x : Char} {cs : List Char} {n : Nat} (hb : base = 16)
      (hx : x = 'x' ∨ x = 'X') (h : GroupedNumeral base cs n) :
      RadixUnsigned base ('0' :: x :: '_' :: cs) n

/-- The numbers of `base` with an optional sign. -/
inductive RadixSigned (base : Nat) : List Char → Int → Prop
  | unsigned {cs : List Char} {n : Nat} (h : RadixUnsigned base cs n) : RadixSigned base cs n
  | plus {cs : List Char} {n : Nat} (h : RadixUnsigned base cs n) : RadixSigned base ('+' :: cs) n
  | minus {cs : List Char} {n : Nat} (h : RadixUnsigned base cs n) :
      RadixSigned base ('-' :: cs) (-n)

/-- A character whose value, if any, is sixteen or more is no digit of a base up to sixteen. -/
theorem not_digitOf {base : Nat} (hb : base ≤ 16) {c : Char}
    (h : (digitValue? c).all (16 ≤ ·) = true) (v : Nat) : ¬DigitOf base c v := by
  rw [← digitIn_eq_some_iff hb, digitIn]
  cases hd : digitValue? c with
  | none => simp
  | some w =>
    simp only [hd, Option.all_some, decide_eq_true_eq] at h
    simp only [Option.ite_none_right_eq_some, Option.some.injEq, not_and]
    omega

/-- A character is the digit of one value only. -/
theorem DigitOf.unique {base : Nat} (hb : base ≤ 16) {c : Char} {v w : Nat} (hv : DigitOf base c v)
    (hw : DigitOf base c w) : v = w := by
  rw [← digitIn_eq_some_iff hb] at hv hw
  exact Option.some_injective _ (hv.symm.trans hw)

/-- The blanks around a number have no digit value. -/
theorem digitValue?_of_isNumberBlank {c : Char} (h : isNumberBlank c = true) :
    digitValue? c = none := by
  have hc : c.toNat < 48 := by
    simp only [isNumberBlank, Bool.or_eq_true, decide_eq_true_eq] at h
    rcases h with ((((h | h) | h) | h) | h) | h <;> first | subst h; decide | omega
  unfold digitValue?
  simp only [char_le_iff, Char.reduceToNat]
  split_ifs <;> first | rfl | omega

/-! ### Grouped digits -/

/-- A grouped numeral starts with a digit. -/
theorem GroupedNumeral.head {c : Char} {cs : List Char} {n : Nat}
    (h : GroupedNumeral base (c :: cs) n) : ∃ v, DigitOf base c v := by
  obtain ⟨c', rest, v, -, he, hc, -⟩ := h
  obtain ⟨rfl, -⟩ := List.cons.inj he
  exact ⟨v, hc⟩

section Grouped

variable {base : Nat} (hb : base ≤ 16)
include hb

/-- `readGroupedRest` reads digits, each after at most one underscore, on top of `acc`. -/
theorem readGroupedRest_eq_some_iff (acc : Nat) (cs : List Char) (n : Nat) :
    readGroupedRest base acc cs = some n ↔ ∃ vs, UnderscoredDigits base cs vs ∧
      n = acc * base ^ vs.length + Nat.ofDigits base vs.reverse := by
  fun_induction readGroupedRest base acc cs with
  | case1 acc =>
    constructor
    · rintro ⟨⟩
      exact ⟨[], .nil, by simp⟩
    · rintro ⟨vs, h, rfl⟩
      cases h
      simp
  | case2 acc c rest d hd ih =>
    -- an underscore, then the digit `c`
    rw [ih]
    have hc := (digitIn_eq_some_iff hb).1 hd
    constructor
    · rintro ⟨vs, h, rfl⟩
      exact ⟨d :: vs, .underscore hc h, (ofDigits_reverse_cons base acc d vs).symm⟩
    · rintro ⟨_, h, rfl⟩
      cases h with
      | digit hu => exact absurd hu (not_digitOf hb (by decide) _)
      | underscore hc' h =>
        rw [← hc.unique hb hc']
        exact ⟨_, h, ofDigits_reverse_cons base acc d _⟩
  | case3 acc c rest hd =>
    refine iff_of_false (by simp) ?_
    rintro ⟨_, h, -⟩
    cases h with
    | digit hu => exact not_digitOf hb (by decide) _ hu
    | underscore hc => simp [(digitIn_eq_some_iff hb).2 hc] at hd
  | case4 acc c rest hu d hd ih =>
    -- a digit without an underscore before it
    rw [ih]
    have hc := (digitIn_eq_some_iff hb).1 hd
    constructor
    · rintro ⟨vs, h, rfl⟩
      exact ⟨d :: vs, .digit hc h, (ofDigits_reverse_cons base acc d vs).symm⟩
    · rintro ⟨_, h, rfl⟩
      cases h with
      | digit hc' h =>
        rw [← hc.unique hb hc']
        exact ⟨_, h, ofDigits_reverse_cons base acc d _⟩
      | underscore => exact (hu _ _ rfl rfl).elim
  | case5 acc c rest hu hd =>
    refine iff_of_false (by simp) ?_
    rintro ⟨_, h, -⟩
    cases h with
    | digit hc => simp [(digitIn_eq_some_iff hb).2 hc] at hd
    | underscore => exact hu _ _ rfl rfl

/-- `readGrouped` reads exactly the grouped numerals. -/
theorem readGrouped_eq_some_iff (cs : List Char) (n : Nat) :
    readGrouped base cs = some n ↔ GroupedNumeral base cs n := by
  cases cs with
  | nil =>
    refine iff_of_false (by simp [readGrouped]) ?_
    rintro ⟨c, rest, v, vs, h, -⟩
    cases h
  | cons c rest =>
    cases hd : digitIn base c with
    | none =>
      refine iff_of_false (by simp [readGrouped, hd]) ?_
      rintro ⟨c', rest', v, vs, h, hc, -⟩
      cases h
      simp [(digitIn_eq_some_iff hb).2 hc] at hd
    | some d =>
      have hc := (digitIn_eq_some_iff hb).1 hd
      simp only [readGrouped, hd, readGroupedRest_eq_some_iff hb]
      constructor
      · rintro ⟨vs, h, rfl⟩
        exact ⟨c, rest, d, vs, rfl, hc, h, (ofDigits_reverse_cons_lead base d vs).symm⟩
      · rintro ⟨c', rest', v, vs, h, hc', hvs, rfl⟩
        obtain ⟨rfl, rfl⟩ := List.cons.inj h
        rw [← hc.unique hb hc']
        exact ⟨vs, hvs, ofDigits_reverse_cons_lead base d vs⟩

omit hb in
/-- An unsigned number starts with `0` or a digit. -/
theorem RadixUnsigned.head {c : Char} {cs : List Char} {n : Nat}
    (h : RadixUnsigned base (c :: cs) n) : c = '0' ∨ ∃ v, DigitOf base c v := by
  cases h with
  | plain h => exact .inr h.head
  | prefixed => exact .inl rfl
  | prefixedUnderscore => exact .inl rfl

omit hb in
/-- Digits after underscores end with a digit, if there are any. -/
theorem UnderscoredDigits.ends {cs : List Char} {vs : List Nat}
    (h : UnderscoredDigits base cs vs) :
    cs = [] ∨ ∃ init d v, cs = init ++ [d] ∧ DigitOf base d v := by
  induction h with
  | nil => exact .inl rfl
  | @digit c v cs vs hc _ ih =>
    rcases ih with rfl | ⟨init, d, w, rfl, hd⟩
    · exact .inr ⟨[], c, v, rfl, hc⟩
    · exact .inr ⟨c :: init, d, w, rfl, hd⟩
  | @underscore c v cs vs hc _ ih =>
    rcases ih with rfl | ⟨init, d, w, rfl, hd⟩
    · exact .inr ⟨['_'], c, v, rfl, hc⟩
    · exact .inr ⟨'_' :: c :: init, d, w, rfl, hd⟩

omit hb in
/-- A grouped numeral ends with a digit. -/
theorem GroupedNumeral.last {cs : List Char} {n : Nat} (h : GroupedNumeral base cs n) :
    ∃ init d v, cs = init ++ [d] ∧ DigitOf base d v := by
  obtain ⟨c, rest, v, vs, rfl, hc, hvs, -⟩ := h
  rcases hvs.ends with rfl | ⟨init, d, w, rfl, hd⟩
  · exact ⟨[], c, v, rfl, hc⟩
  · exact ⟨c :: init, d, w, rfl, hd⟩

omit hb in
/-- An unsigned number ends with the last digit of its grouped numeral. -/
theorem RadixUnsigned.last {cs : List Char} {n : Nat} (h : RadixUnsigned base cs n) :
    ∃ init d w, cs = init ++ [d] ∧ DigitOf base d w := by
  cases h with
  | plain h => exact h.last
  | prefixed _ _ h =>
    obtain ⟨init, d, w, rfl, hd⟩ := h.last
    exact ⟨_ :: _ :: init, d, w, rfl, hd⟩
  | prefixedUnderscore _ _ h =>
    obtain ⟨init, d, w, rfl, hd⟩ := h.last
    exact ⟨_ :: _ :: _ :: init, d, w, rfl, hd⟩

omit hb in
/-- A signed number ends with a digit. -/
theorem RadixSigned.last {cs : List Char} {v : Int} (h : RadixSigned base cs v) :
    ∃ init d w, cs = init ++ [d] ∧ DigitOf base d w := by
  cases h with
  | unsigned h => exact h.last
  | plus h =>
    obtain ⟨init, d, w, rfl, hd⟩ := h.last
    exact ⟨_ :: init, d, w, rfl, hd⟩
  | minus h =>
    obtain ⟨init, d, w, rfl, hd⟩ := h.last
    exact ⟨_ :: init, d, w, rfl, hd⟩

/-- A digit is no blank. -/
theorem DigitOf.not_blank {c : Char} {v : Nat} (h : DigitOf base c v) : isNumberBlank c = false := by
  rw [Bool.eq_false_iff]
  intro hc
  have := (digitIn_eq_some_iff hb).2 h
  simp [digitIn, digitValue?_of_isNumberBlank hc] at this

/-- An unsigned number starts with a `0` or a digit, so with no blank. -/
theorem RadixUnsigned.head_not_blank {cs : List Char} {n : Nat} (h : RadixUnsigned base cs n) :
    ∃ b bs, cs = b :: bs ∧ isNumberBlank b = false := by
  cases h with
  | plain h =>
    obtain ⟨c, rest, v, -, rfl, hc, -⟩ := h
    exact ⟨c, rest, rfl, hc.not_blank hb⟩
  | prefixed => exact ⟨_, _, rfl, by decide⟩
  | prefixedUnderscore => exact ⟨_, _, rfl, by decide⟩

/-- A signed number starts with a sign, a `0` or a digit, so with no blank. -/
theorem RadixSigned.head {cs : List Char} {v : Int} (h : RadixSigned base cs v) :
    ∃ b bs, cs = b :: bs ∧ isNumberBlank b = false := by
  cases h with
  | unsigned h => exact h.head_not_blank hb
  | plus => exact ⟨_, _, rfl, by decide⟩
  | minus => exact ⟨_, _, rfl, by decide⟩

end Grouped

/-! ### Trimming blanks -/

section Trim

variable {α : Type} (p : α → Bool)

/-- A list with no element that `p` accepts is left as it is by trimming. -/
theorem trim_of_forall {l : List α} (h : ∀ c ∈ l, p c = false) :
    ((l.dropWhile p).reverse.dropWhile p).reverse = l := by
  have hfront : l.dropWhile p = l :=
    List.dropWhile_eq_self_iff.2 fun hl => by simp [h _ (List.getElem_mem hl)]
  have hback : l.reverse.dropWhile p = l.reverse :=
    List.dropWhile_eq_self_iff.2 fun hl => by
      rw [h _ (List.mem_reverse.1 (List.getElem_mem hl))]
      decide
  rw [hfront, hback, List.reverse_reverse]

end Trim

/-! ### Reading numbers in a radix -/

/-- An ASCII character is its own twin. -/
theorem mapM_asciiTwin_of_lt {cs : List Char} (h : ∀ c ∈ cs, c.toNat < 127) :
    cs.mapM asciiTwin = some cs := by
  induction cs with
  | nil => rfl
  | cons c cs ih =>
    have hc : asciiTwin c = some c := if_pos (h c (by simp))
    simp [List.mapM_cons, hc, ih fun d hd => h d (by simp [hd])]

theorem UnderscoredDigits.of_forall₂ {base : Nat} {cs : List Char} {vs : List Nat}
    (h : List.Forall₂ (DigitOf base) cs vs) : UnderscoredDigits base cs vs := by
  induction h with
  | nil => exact .nil
  | cons hc _ ih => exact .digit hc ih

/-- Without underscores, digits after underscores are plain digits. -/
theorem underscoredDigits_iff_forall₂ {base : Nat} {cs : List Char} (hu : '_' ∉ cs)
    {vs : List Nat} : UnderscoredDigits base cs vs ↔ List.Forall₂ (DigitOf base) cs vs := by
  constructor
  · intro h
    induction h with
    | nil => exact .nil
    | digit hc _ ih => exact .cons hc (ih fun h => hu (List.mem_cons_of_mem _ h))
    | underscore => exact absurd List.mem_cons_self hu
  · exact .of_forall₂

/-- Without underscores a grouped numeral is a plain numeral. -/
theorem groupedNumeral_iff_numeral {base : Nat} {cs : List Char} (hu : '_' ∉ cs) {n : Nat} :
    GroupedNumeral base cs n ↔ Numeral (DigitOf base) base cs n := by
  constructor
  · rintro ⟨c, rest, v, vs, rfl, hc, hvs, rfl⟩
    have hrest : '_' ∉ rest := fun h => hu (List.mem_cons_of_mem _ h)
    exact ⟨v :: vs, .cons hc ((underscoredDigits_iff_forall₂ hrest).1 hvs), List.cons_ne_nil _ _, rfl⟩
  · rintro ⟨vs, hvs, hne, rfl⟩
    match cs, vs, hvs, hne with
    | c :: cs, v :: vs, .cons hc hvs, _ => exact ⟨c, cs, v, vs, rfl, hc, .of_forall₂ hvs, rfl⟩

theorem readGrouped_eq_some_iff_numeral {base : Nat} (hb : base ≤ 16) {cs : List Char}
    (hu : '_' ∉ cs) {n : Nat} : readGrouped base cs = some n ↔ Numeral (DigitOf base) base cs n := by
  rw [readGrouped_eq_some_iff hb, groupedNumeral_iff_numeral hu]

/-- A text that starts with no sign is read as an unsigned number. -/
theorem readSigned_of_unsigned (unsigned : List Char → Option Nat) {cs : List Char}
    (hp : ∀ r, cs ≠ '+' :: r) (hm : ∀ r, cs ≠ '-' :: r) :
    readSigned unsigned cs = (unsigned cs).map Int.ofNat := by
  fun_cases readSigned unsigned cs with
  | case1 rest => exact absurd rfl (hp rest)
  | case2 rest => exact absurd rfl (hm rest)
  | case3 => rfl

/-- ASCII characters that are no blanks are read as they stand: no twin replaces them and no
trimming removes them. -/
theorem readNumber_of_plain (unsigned : List Char → Option Nat) {cs : List Char}
    (h : ∀ c ∈ cs, c.toNat < 127 ∧ isNumberBlank c = false) :
    readNumber unsigned cs = readSigned unsigned cs := by
  simp only [readNumber, mapM_asciiTwin_of_lt fun c hc => (h c hc).1, Option.bind_eq_bind,
    Option.bind_some]
  rw [trim_of_forall isNumberBlank fun c hc => (h c hc).2]

end FiniteRings.Text

import PipelineCache.Proofs.Json.Extension

/-! Whole numbers whose digits are cut off. The digits in front are a number that is no larger, and
no text makes a number that 32 bits hold out of one that is not whole or that they do not hold. -/
namespace PipelineCache.Json
namespace Numeral

theorem wholeDigits_cons {c : Char} {ds : List Char} :
    WholeDigits (c :: ds) ↔ AllDigits (c :: ds) ∧ (c = '0' → ds = []) := by
  constructor
  · intro h
    refine ⟨h.allDigits, ?_⟩
    rintro rfl
    cases h with
    | zero => rfl
    | positive _ hc => exact absurd rfl hc
  · rintro ⟨hd, hz⟩
    by_cases hc : c = '0'
    · rw [hz hc, hc]
      exact .zero
    · exact .positive hd hc

theorem wholePart_eq_ok {t r ds : List Char} (h : wholePart t = .ok (ds, r)) :
    WholeDigits ds ∧ digits t = .ok (ds, r) := by
  unfold wholePart at h
  split at h
  · cases h
  · cases h
  · next ds r hz hd =>
    cases h
    obtain ⟨-, hds, hn, -⟩ := digits_eq_ok hd
    obtain ⟨c, cs, rfl⟩ := List.exists_cons_of_ne_nil hn
    refine ⟨wholeDigits_cons.2 ⟨hds, ?_⟩, hd⟩
    rintro rfl
    cases cs with
    | nil => rfl
    | cons d cs => exact absurd rfl (hz d cs)

theorem WholeDigits.of_append {ds es : List Char} (h : WholeDigits (ds ++ es)) (hn : ds ≠ []) :
    WholeDigits ds := by
  obtain ⟨c, cs, rfl⟩ := List.exists_cons_of_ne_nil hn
  rw [List.cons_append, wholeDigits_cons] at h
  refine wholeDigits_cons.2 ⟨fun d hd => h.1 d (List.mem_append_left es hd), fun hc => ?_⟩
  exact (List.append_eq_nil_iff.1 (h.2 hc)).1

theorem le_significand (ds : List Char) (s : Nat) : s ≤ (significand s ds).1 := by
  induction ds generalizing s with
  | nil => exact Nat.le_refl s
  | cons c ds ih =>
    rw [significand]
    split
    · have := ih (s * 10 + digitValue c)
      omega
    · exact Nat.le_refl s

theorem significand_append {ds es : List Char} {a b : Nat}
    (h : significand a (ds ++ es) = (b, [])) :
    ∃ c, significand a ds = (c, []) ∧ c ≤ b := by
  induction ds generalizing a with
  | nil =>
    have hl := le_significand es a
    rw [List.nil_append] at h
    rw [h] at hl
    exact ⟨a, rfl, hl⟩
  | cons d ds ih =>
    rw [List.cons_append, significand] at h
    split at h
    · next hd =>
      rw [significand, if_pos hd]
      exact ih h
    · cases h

theorem significand_pos {c : Char} (hd : c.isDigit) (hc : c ≠ '0') (ds : List Char) :
    0 < (significand 0 (c :: ds)).1 := by
  have hv : 0 < digitValue c ∧ digitValue c < 10 := by
    have hz : c.toNat ≠ 48 := fun h => hc (Char.toNat_inj.1 h)
    rw [Char.isDigit_iff_toNat] at hd
    simp only [digitValue, Char.reduceToNat] at hd ⊢
    omega
  have hl := le_significand ds (0 * 10 + digitValue c)
  rw [significand, if_pos (by simp [UInt64.size]; omega)]
  omega

theorem double_found {negative : Bool} {s : Nat} {e : Int} {x : Found}
    (h : double negative s e = .ok x) : ∃ bits, x = .double bits := by
  unfold double at h
  split at h
  · exact ⟨_, (Except.ok.inj h).symm⟩
  · obtain ⟨y, -, hy⟩ := exists_of_map_eq_ok h
    exact ⟨_, hy.symm⟩

theorem fractional_found {n : Numeral} {s : Nat} {shift : Int} {x : Found}
    (h : fractional n s shift = .ok x) : ∃ bits, x = .double bits := by
  grind [fractional, double_found, signed]

/-- A whole number has neither fraction nor exponent, and its digits fit 64 bits. -/
theorem value_eq_integer {n : Numeral} {i : Int} (h : n.value = .ok (.integer i)) :
    n.fraction = [] ∧ n.exponent = none ∧
      ∃ s, significand 0 n.whole = (s, []) ∧ integer n.negative s = .ok (.integer i) := by
  obtain ⟨negative, whole, fraction, exponent⟩ := n
  cases hs : significand 0 whole with
  | mk s left =>
    simp only [value, hs] at h
    split at h
    · next hc =>
      simp only [Bool.and_eq_true, List.isEmpty_iff, Option.isNone_iff_eq_none] at hc
      obtain ⟨⟨rfl, rfl⟩, rfl⟩ := hc
      exact ⟨rfl, rfl, s, rfl, h⟩
    · obtain ⟨bits, hb⟩ := fractional_found h
      cases hb

theorem integer_eq_integer {negative : Bool} {s : Nat} {i : Int}
    (h : integer negative s = .ok (.integer i)) :
    (negative = false ∧ i = s) ∨ (negative = true ∧ 0 < s ∧ s ≤ lowestMagnitude ∧ i = -s) := by
  unfold integer at h
  split at h
  · cases h
    simp_all
  · split at h
    · obtain ⟨bits, hb⟩ := double_found h
      cases hb
    · cases h
      right
      simp_all
      omega

theorem value_of_append {negative : Bool} {ds es : List Char} {i : Int} (hd : WholeDigits ds)
    (hde : WholeDigits (ds ++ es))
    (h : value ⟨negative, ds ++ es, [], none⟩ = .ok (.integer i)) :
    ∃ j, value ⟨negative, ds, [], none⟩ = .ok (.integer j) ∧ (0 ≤ j ∧ j ≤ i ∨ i ≤ j ∧ j ≤ 0) := by
  obtain ⟨-, -, s, hs, hi⟩ := value_eq_integer h
  obtain ⟨s', hs', hle⟩ := significand_append hs
  have hv : value ⟨negative, ds, [], none⟩ = integer negative s' := by
    simp only [value, hs']
    rfl
  rw [hv]
  obtain ⟨rfl, rfl⟩ | ⟨rfl, hpos, hlow, rfl⟩ := integer_eq_integer hi
  · exact ⟨s', rfl, .inl ⟨by omega, by omega⟩⟩
  · have hpos' : 0 < s' := by
      cases hd with
      | zero =>
        have he : es = [] := (wholeDigits_cons.1 hde).2 rfl
        subst he
        cases hs
        cases hpos
      | @positive c cs hds hc =>
        have hp := significand_pos (hds c List.mem_cons_self) hc cs
        rwa [hs'] at hp
    refine ⟨-s', ?_, .inr ⟨by omega, by omega⟩⟩
    have hn : ¬ (s' = 0 ∨ lowestMagnitude < s') := by omega
    simp only [integer, Bool.not_true, Bool.false_eq_true, if_false, if_neg hn]

theorem digits_of_append {t q ds es r : List Char} (h : digits t = .ok (ds, []))
    (hq : digits (t ++ q) = .ok (es, r)) : ∃ fs, es = ds ++ fs := by
  obtain ⟨rfl, hd, hn, -⟩ := digits_eq_ok h
  obtain ⟨c, cs, rfl⟩ := List.exists_cons_of_ne_nil hn
  obtain ⟨hc, hcs⟩ := List.forall_mem_cons.1 hd
  rw [List.append_nil, List.cons_append, digits, if_pos hc,
    List.takeWhile_append_of_pos hcs] at hq
  cases hq
  exact ⟨_, rfl⟩

theorem read_eq_ok {t r : List Char} {n : Numeral} (h : read t = .ok (n, r)) :
    ∃ t₁ t₂, n.negative = (sign t).1 ∧ wholePart (sign t).2 = .ok (n.whole, t₁) ∧
      fractionPart t₁ = .ok (n.fraction, t₂) ∧ exponentPart t₂ = .ok (n.exponent, r) := by
  unfold read at h
  split at h
  · cases h
  · next hw =>
    split at h
    · cases h
    · next hf =>
      split at h
      · cases h
      · next hx =>
        cases h
        exact ⟨_, _, rfl, hw, hf, hx⟩

/-- Where neither fraction nor exponent is read, none is begun. -/
theorem not_begun {c : Char} {t t' r : List Char} (hf : fractionPart (c :: t) = .ok ([], t'))
    (hx : exponentPart t' = .ok (none, r)) : c ≠ '.' ∧ ¬ (c = 'e' ∨ c = 'E') := by
  have hc : c ≠ '.' := by
    rintro rfl
    obtain ⟨-, -, hn, -⟩ := digits_eq_ok hf
    exact hn rfl
  refine ⟨hc, fun he => ?_⟩
  have ht : t' = c :: t := by simpa [fractionPart, hc] using hf.symm
  rw [ht, exponentPart, if_pos he] at hx
  split at hx <;> cases hx

/-- A number is read to the end of a text. Where the text goes on and holds neither a fraction nor
an exponent, only digits have been added. -/
theorem read_of_append {p q r : List Char} {n m : Numeral} (hp : read p = .ok (n, []))
    (hq : read (p ++ q) = .ok (m, r)) (hf : m.fraction = []) (hx : m.exponent = none) :
    ∃ negative ds es, WholeDigits ds ∧ WholeDigits (ds ++ es) ∧
      n = ⟨negative, ds, [], none⟩ ∧ m = ⟨negative, ds ++ es, [], none⟩ := by
  obtain ⟨t₁, t₂, hn, hpw, hpf, hpx⟩ := read_eq_ok hp
  obtain ⟨u₁, u₂, hm, hqw, hqf, hqx⟩ := read_eq_ok hq
  have hne : p ≠ [] := by
    rintro rfl
    cases hp
  rw [sign_append_of_ne hne] at hm hqw
  rw [hf] at hqf
  rw [hx] at hqx
  obtain ⟨negative, whole, fraction, exponent⟩ := n
  obtain ⟨negative', whole', fraction', exponent'⟩ := m
  simp only at hn hm hf hx hpw hqw hpf hpx ⊢
  subst hn hm hf hx
  cases t₁ with
  | nil =>
    cases hpf
    cases hpx
    obtain ⟨hwp, hdp⟩ := wholePart_eq_ok hpw
    obtain ⟨hwq, hdq⟩ := wholePart_eq_ok hqw
    obtain ⟨es, rfl⟩ := digits_of_append hdp hdq
    exact ⟨_, whole, es, hwp, hwq, rfl, rfl⟩
  | cons c t =>
    have hw := extends_wholePart hpw (s := q) fun he => by cases he
    rw [hqw] at hw
    cases hw
    obtain ⟨hdot, he⟩ := not_begun hqf hqx
    have hpf' : fractionPart (c :: t) = .ok ([], c :: t) := by simp [fractionPart, hdot]
    rw [hpf] at hpf'
    cases hpf'
    rw [exponentPart, if_neg he] at hpx
    cases hpx

end Numeral

theorem int32Of_eq_ok {x : Found} {n : Int32} (h : int32Of x = .ok n) :
    ∃ i, x = .integer i ∧ Int32.minValue.toInt ≤ i ∧ i ≤ Int32.maxValue.toInt := by
  unfold int32Of at h
  split at h
  · next i =>
    split at h
    · next hi => exact ⟨i, rfl, hi⟩
    · cases h
  · cases h

theorem int32Of_integer {i : Int} (h : Int32.minValue.toInt ≤ i ∧ i ≤ Int32.maxValue.toInt) :
    int32Of (.integer i) = .ok (Int32.ofInt i) := by
  rw [int32Of, if_pos h]

theorem numberFound_eq_ok {t r : List Char} {x : Found} (h : numberFound t = .ok (x, r)) :
    ∃ n, Numeral.read t = .ok (n, r) ∧ n.value = .ok x := by
  unfold numberFound at h
  split at h
  · cases h
  · next n r hn =>
    split at h
    · cases h
    · next hv =>
      cases h
      exact ⟨n, hn, hv⟩

/-- Numbers between zero and one that 32 bits hold are held as well. -/
theorem int32Of_between {i j : Int} {n : Int32} (h : int32Of (.integer i) = .ok n)
    (hj : 0 ≤ j ∧ j ≤ i ∨ i ≤ j ∧ j ≤ 0) : ∃ m, int32Of (.integer j) = .ok m := by
  obtain ⟨i', he, hlow, hhigh⟩ := int32Of_eq_ok h
  cases he
  refine ⟨_, int32Of_integer ?_⟩
  rw [Int32.toInt_minValue, Int32.toInt_maxValue] at *
  omega

/-- No text makes a number fit that does not. -/
theorem int32Of_of_append {p q s r : List Char} {x y : Found} {n : Int32}
    (hp : numberFound p = .ok (y, s)) (hq : numberFound (p ++ q) = .ok (x, r))
    (hx : int32Of x = .ok n) : ∃ m, int32Of y = .ok m := by
  by_cases hs : s = []
  · subst hs
    obtain ⟨i, rfl, -, -⟩ := int32Of_eq_ok hx
    obtain ⟨m, hm, hy⟩ := numberFound_eq_ok hp
    obtain ⟨m', hm', hi⟩ := numberFound_eq_ok hq
    obtain ⟨hf, he, -⟩ := Numeral.value_eq_integer hi
    obtain ⟨negative, ds, es, hd, hde, rfl, rfl⟩ := Numeral.read_of_append hm hm' hf he
    obtain ⟨j, hj, hbetween⟩ := Numeral.value_of_append hd hde hi
    rw [hj] at hy
    cases hy
    exact int32Of_between hx hbetween
  · have hq' := extends_numberFound hp (s := q) fun he => absurd he hs
    rw [hq] at hq'
    cases hq'
    exact ⟨n, hx⟩

end PipelineCache.Json

import PipelineCache.Json.Numeral

/-! The spellings of numbers. Each one is read to its end wherever the text behind it goes on with
something that no number goes on with, and whole numbers are read back as they are written. -/
namespace PipelineCache.Json

/-- What may stand behind a value: nothing, a blank, a comma or a closing bracket. -/
def Delimited (t : List Char) : Prop := ∀ c ∈ t.head?, isBlank c ∨ c = ',' ∨ c = ']' ∨ c = '}'

namespace Numeral

def AllDigits (ds : List Char) : Prop := ∀ c ∈ ds, c.isDigit

/-- No zero stands in front of another digit. -/
inductive WholeDigits : List Char → Prop
  | zero : WholeDigits ['0']
  | positive {c : Char} {ds : List Char} (h : AllDigits (c :: ds)) (hc : c ≠ '0') :
      WholeDigits (c :: ds)

def signText (negative : Bool) : List Char := if negative then ['-'] else []

def fractionText : List Char → List Char
  | [] => []
  | c :: ds => '.' :: c :: ds

inductive SignSpelled : List Char → Bool → Prop
  | none : SignSpelled [] false
  | plus : SignSpelled ['+'] false
  | minus : SignSpelled ['-'] true

inductive ExponentSpelled : List Char → Option (Bool × List Char) → Prop
  | none : ExponentSpelled [] none
  | some {e : Char} {s ds : List Char} {negative : Bool} (he : e = 'e' ∨ e = 'E')
      (hs : SignSpelled s negative) (hd : AllDigits ds) (hn : ds ≠ []) :
      ExponentSpelled (e :: (s ++ ds)) (some (negative, ds))

/-- The numbers that a text may hold, of any size. -/
inductive Spelled : List Char → Numeral → Prop
  | mk {n : Numeral} {x : List Char} (hw : WholeDigits n.whole) (hf : AllDigits n.fraction)
      (hx : ExponentSpelled x n.exponent) :
      Spelled (signText n.negative ++ (n.whole ++ (fractionText n.fraction ++ x))) n

/-- No character that a number goes on with comes next. -/
def Ended (t : List Char) : Prop := ∀ c ∈ t.head?, ¬ c.isDigit ∧ c ≠ '.' ∧ c ≠ 'e' ∧ c ≠ 'E'

def NoDigit (t : List Char) : Prop := ∀ c ∈ t.head?, ¬ c.isDigit

theorem ended_of_delimited {t : List Char} (h : Delimited t) : Ended t := by
  intro c hc
  have hd := h c hc
  simp only [isBlank, Bool.or_eq_true, beq_iff_eq] at hd
  obtain (((rfl | rfl) | rfl) | rfl) | rfl | rfl | rfl := hd <;> decide

theorem Ended.noDigit {t : List Char} (h : Ended t) : NoDigit t := fun c hc => (h c hc).1

theorem takeWhile_noDigit {t : List Char} (h : NoDigit t) : t.takeWhile Char.isDigit = [] := by
  cases t with
  | nil => rfl
  | cons c t => simp [h c rfl]

theorem dropWhile_noDigit {t : List Char} (h : NoDigit t) : t.dropWhile Char.isDigit = t := by
  cases t with
  | nil => rfl
  | cons c t => simp [h c rfl]

theorem digits_append {ds t : List Char} (hd : AllDigits ds) (hn : ds ≠ []) (ht : NoDigit t) :
    digits (ds ++ t) = .ok (ds, t) := by
  cases ds with
  | nil => exact absurd rfl hn
  | cons c ds =>
    have hc : c.isDigit := hd c List.mem_cons_self
    have hds : ∀ x ∈ ds, x.isDigit := fun x hx => hd x (List.mem_cons_of_mem c hx)
    simp [digits, hc, List.takeWhile_append_of_pos hds, List.dropWhile_append_of_pos hds,
      takeWhile_noDigit ht, dropWhile_noDigit ht]

theorem WholeDigits.allDigits {ds : List Char} (h : WholeDigits ds) : AllDigits ds := by
  cases h with
  | zero =>
    intro c hc
    rw [List.mem_singleton] at hc
    subst hc
    rfl
  | positive h _ => exact h

theorem WholeDigits.ne_nil {ds : List Char} (h : WholeDigits ds) : ds ≠ [] := by
  cases h <;> simp

theorem wholePart_append {ds t : List Char} (h : WholeDigits ds) (ht : NoDigit t) :
    wholePart (ds ++ t) = .ok (ds, t) := by
  have hd := digits_append h.allDigits h.ne_nil ht
  cases h with
  | zero =>
    rw [wholePart, hd]
    rfl
  | positive _ hc =>
    rw [wholePart, hd]
    split <;> simp_all

theorem fractionPart_append {ds t : List Char} (hd : AllDigits ds) (ht : NoDigit t)
    (hp : ∀ c ∈ t.head?, c ≠ '.') : fractionPart (fractionText ds ++ t) = .ok (ds, t) := by
  cases ds with
  | nil =>
    cases t with
    | nil => rfl
    | cons c t =>
      have hc : c ≠ '.' := hp c rfl
      simp [fractionText, fractionPart, hc]
  | cons c ds => exact digits_append hd (by simp) ht

theorem exponentSign_append {s ds t : List Char} {negative : Bool} (hs : SignSpelled s negative)
    (hd : AllDigits ds) (hn : ds ≠ []) :
    exponentSign (s ++ (ds ++ t)) = (negative, ds ++ t) := by
  cases hs with
  | none =>
    cases ds with
    | nil => exact absurd rfl hn
    | cons c ds =>
      have hc : c.isDigit := hd c List.mem_cons_self
      have hp : c ≠ '+' := by rintro rfl; cases hc
      have hm : c ≠ '-' := by rintro rfl; cases hc
      simp [exponentSign, hp, hm]
  | plus => rfl
  | minus => rfl

theorem exponentPart_append {x t : List Char} {e : Option (Bool × List Char)}
    (hx : ExponentSpelled x e) (ht : Ended t) : exponentPart (x ++ t) = .ok (e, t) := by
  cases hx with
  | none =>
    cases t with
    | nil => rfl
    | cons c t =>
      have hc := ht c rfl
      simp [exponentPart, hc.2.2.1, hc.2.2.2]
  | some he hs hd hn =>
    rw [List.cons_append, List.append_assoc, exponentPart, if_pos he, exponentSign_append hs hd hn,
      digits_append hd hn ht.noDigit]

theorem ExponentSpelled.head {x t : List Char} {e : Option (Bool × List Char)}
    (hx : ExponentSpelled x e) (ht : Ended t) : ∀ c ∈ (x ++ t).head?, ¬ c.isDigit ∧ c ≠ '.' := by
  intro c hc
  cases hx with
  | none => exact ⟨(ht c hc).1, (ht c hc).2.1⟩
  | some he =>
    rw [List.cons_append, List.head?_cons, Option.mem_some_iff] at hc
    subst hc
    obtain rfl | rfl := he <;> decide

theorem fractionText_head {ds t : List Char} (ht : NoDigit t) : NoDigit (fractionText ds ++ t) := by
  cases ds with
  | nil => exact ht
  | cons c ds =>
    intro c hc
    rw [fractionText, List.cons_append, List.head?_cons, Option.mem_some_iff] at hc
    subst hc
    decide

theorem sign_append {ds t : List Char} (h : WholeDigits ds) (negative : Bool) :
    sign (signText negative ++ (ds ++ t)) = (negative, ds ++ t) := by
  cases negative with
  | true => rfl
  | false =>
    cases ds with
    | nil => exact absurd rfl h.ne_nil
    | cons c ds =>
      have hc : c.isDigit := h.allDigits c List.mem_cons_self
      have hm : c ≠ '-' := by rintro rfl; cases hc
      simp [signText, sign, hm]

/-- A number is read to its end. -/
theorem read_spelled {t r : List Char} {n : Numeral} (h : Spelled t n) (hr : Ended r) :
    read (t ++ r) = .ok (n, r) := by
  cases h with
  | @mk n x hw hf hx =>
    have hx' := hx.head hr
    have hd : NoDigit (x ++ r) := fun c hc => (hx' c hc).1
    simp only [List.append_assoc, read, sign_append hw]
    rw [wholePart_append hw (fractionText_head hd)]
    simp only [fractionPart_append hf hd fun c hc => (hx' c hc).2, exponentPart_append hx hr]

theorem skipNumber_spelled {t r : List Char} {n : Numeral} (h : Spelled t n) (hr : Ended r) :
    skipNumber (t ++ r) = .ok r := by
  rw [skipNumber, read_spelled h hr]

theorem Spelled.startsNumber {t : List Char} {n : Numeral} (h : Spelled t n) :
    ∃ c s, t = c :: s ∧ startsNumber c := by
  cases h with
  | @mk n x hw =>
    cases hn : n.negative with
    | true => exact ⟨'-', _, rfl, rfl⟩
    | false =>
      cases hd : n.whole with
      | nil => exact absurd hd hw.ne_nil
      | cons c ds =>
        rw [hd] at hw
        refine ⟨c, _, rfl, ?_⟩
        simp [Json.startsNumber, hw.allDigits c List.mem_cons_self]

theorem toDigits_positive {n : Nat} (h : 0 < n) : ∃ c ds, Nat.toDigits 10 n = c :: ds ∧ c ≠ '0' := by
  induction n using Nat.strongRecOn with
  | ind n ih =>
    by_cases hn : n < 10
    · refine ⟨n.digitChar, [], Nat.toDigits_of_lt_base hn, ?_⟩
      intro hc
      have hv := Nat.toNat_digitChar_of_lt_ten hn
      rw [hc] at hv
      simp at hv
      omega
    · obtain ⟨c, ds, hd, hc⟩ := ih (n / 10) (by omega) (by omega)
      refine ⟨c, ds ++ [(n % 10).digitChar], ?_, hc⟩
      rw [Nat.toDigits_of_base_le (by omega) (by omega), hd, List.cons_append]

theorem wholeDigits_toDigits (n : Nat) : WholeDigits (Nat.toDigits 10 n) := by
  obtain rfl | h := Nat.eq_zero_or_pos n
  · exact .zero
  · obtain ⟨c, ds, hd, hc⟩ := toDigits_positive h
    rw [hd]
    refine .positive ?_ hc
    intro x hx
    rw [← hd] at hx
    exact Nat.isDigit_of_mem_toDigits (by decide) (by decide) hx

/-- What is written for `n`, as it is read. -/
def ofInt (n : Int) : Numeral := ⟨decide (n < 0), Nat.toDigits 10 n.natAbs, [], none⟩

theorem spelled_write (n : Int) : Spelled (write n) (ofInt n) := by
  have h : Spelled _ (ofInt n) := .mk (wholeDigits_toDigits _) (by simp [ofInt, AllDigits]) .none
  have ht : write n = signText (ofInt n).negative ++
      ((ofInt n).whole ++ (fractionText (ofInt n).fraction ++ [])) := by
    by_cases hn : n < 0 <;> simp [write, ofInt, signText, fractionText, hn]
  rw [ht]
  exact h

theorem le_ofDigitChars (ds : List Char) (s : Nat) : s ≤ Nat.ofDigitChars 10 ds s := by
  induction ds generalizing s with
  | nil => simp
  | cons c ds ih =>
    rw [Nat.ofDigitChars_cons]
    have := ih (10 * s + (c.toNat - '0'.toNat))
    omega

theorem significand_of_lt {ds : List Char} {s : Nat} (h : Nat.ofDigitChars 10 ds s < UInt64.size) :
    significand s ds = (Nat.ofDigitChars 10 ds s, []) := by
  induction ds generalizing s with
  | nil => simp [significand]
  | cons c ds ih =>
    have hs : s * 10 + digitValue c = 10 * s + (c.toNat - '0'.toNat) := by
      simp [digitValue, Nat.mul_comm]
    rw [Nat.ofDigitChars_cons, ← hs] at h ⊢
    have hl := le_ofDigitChars ds (s * 10 + digitValue c)
    rw [significand, if_pos (by omega), ih h]

/-- A whole number that 64 bits hold is read as itself. -/
theorem value_ofInt {n : Int} (hl : -2147483648 ≤ n) (hu : n < 2147483648) :
    value (ofInt n) = .ok (.integer n) := by
  have hs : significand 0 (Nat.toDigits 10 n.natAbs) = (n.natAbs, []) := by
    have h : Nat.ofDigitChars 10 (Nat.toDigits 10 n.natAbs) 0 = n.natAbs :=
      Nat.ofDigitChars_ten_toDigits
    rw [significand_of_lt (by rw [h, UInt64.size]; omega), h]
  by_cases hn : n < 0
  · have h0 : ¬ (n.natAbs = 0 ∨ lowestMagnitude < n.natAbs) := by
      rw [lowestMagnitude]
      omega
    have hv : -(n.natAbs : Int) = n := by omega
    simp only [value, ofInt, hs, List.isEmpty_nil, Option.isNone_none, Bool.and_self, if_true,
      integer, hn, decide_true, Bool.not_true, Bool.false_eq_true, if_false, if_neg h0, hv]
  · have hv : (n.natAbs : Int) = n := by omega
    simp only [value, ofInt, hs, List.isEmpty_nil, Option.isNone_none, Bool.and_self, if_true,
      integer, hn, decide_false, Bool.not_false, hv]

end Numeral
end PipelineCache.Json

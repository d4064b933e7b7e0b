import Mathlib.Tactic
import Mathlib.Order.CompletePartialOrder
import PipelineCache.Uri.Scan
import PipelineCache.Proofs.Uri.Grammar

/-! The classes of characters and their runs, as languages of the grammar. -/
namespace PipelineCache.Uri
open Grammar
open scoped Computability

/-! Characters -/

theorem Grammar.mem_word {s : String} {t : List Char} : t ∈ word s ↔ t = s.toList := Iff.rfl

theorem Grammar.mem_one {p : Char → Bool} {t : List Char} :
    t ∈ one p ↔ ∃ c, p c ∧ t = [c] := Iff.rfl

theorem Grammar.mem_optional {l : Language Char} {t : List Char} :
    t ∈ optional l ↔ t = [] ∨ t ∈ l := Iff.rfl

theorem Grammar.mem_word_mul {s : String} {l : Language Char} {t : List Char} :
    t ∈ word s * l ↔ ∃ x ∈ l, t = s.toList ++ x := by
  simp only [Language.mem_mul, mem_word, exists_eq_left, eq_comm]

theorem Grammar.mem_of_le {l m : Language Char} (h : l ≤ m) {t : List Char} : t ∈ l → t ∈ m :=
  @h t

theorem Grammar.one_or (p q : Char → Bool) : one (fun c => p c || q c) = one p + one q := by
  ext t
  simp only [Language.mem_add, mem_one, Bool.or_eq_true, or_and_right, exists_or]

theorem Grammar.one_false : one (fun _ => false) = 0 := by
  ext t
  simp [mem_one]

theorem Grammar.word_singleton (c : Char) : word (String.singleton c) = one (· == c) := by
  ext t
  simp only [mem_word, mem_one, beq_iff_eq, exists_eq_left, String.toList_singleton]

theorem one_letter : one isLetter = alpha := one_or _ _

theorem one_digit : one Char.isDigit = digit := rfl

theorem one_hexDigit : one isHexDigit = hexdig := by
  rw [hexdig, ← one_digit, between, between, ← one_or, ← one_or]
  rfl

theorem one_schemeChar : one isSchemeChar = alpha + digit + word "+" + word "-" + word "." := by
  change one (fun c => isLetter c || c.isDigit || c == '+' || c == '-' || c == '.') = _
  simp only [one_or, ← word_singleton, one_letter]
  rfl

theorem one_unreserved : one isUnreserved = unreserved := by
  change one (fun c => isLetter c || c.isDigit || c == '-' || c == '.' || c == '_' || c == '~') = _
  simp only [one_or, ← word_singleton, one_letter]
  rfl

theorem one_delimiter : one isDelimiter = subDelims := by
  unfold isDelimiter
  simp only [List.contains_cons, List.contains_nil, one_or, one_false, ← word_singleton, add_zero,
    ← add_assoc]
  rfl

theorem one_hostChar : one isHostChar = unreserved + subDelims := by
  rw [← one_unreserved, ← one_delimiter, ← one_or]
  rfl

theorem one_authorityChar : one isAuthorityChar = unreserved + subDelims + word ":" := by
  rw [← one_hostChar]
  exact (one_or _ _).trans (congrArg _ (word_singleton ':').symm)

theorem one_colonless : one isColonless = unreserved + subDelims + word "@" := by
  rw [← one_hostChar]
  exact (one_or _ _).trans (congrArg _ (word_singleton '@').symm)

/-- The characters of one path segment. -/
def isSegmentChar (c : Char) : Bool := isColonless c || c == ':'

theorem one_segmentChar :
    one isSegmentChar = unreserved + subDelims + word ":" + word "@" := by
  rw [add_right_comm, ← one_colonless]
  exact (one_or _ _).trans (congrArg _ (word_singleton ':').symm)

theorem one_pathChar : one isPathChar = one isSegmentChar + word "/" :=
  (one_or _ _).trans (congrArg _ (word_singleton '/').symm)

theorem one_queryChar : one isQueryChar = one isPathChar + word "?" :=
  (one_or _ _).trans (congrArg _ (word_singleton '?').symm)

/-! Runs of a class -/

/-- The texts of a class: its characters, and percent signs with two hexadecimal digits. -/
def runs (p : Char → Bool) : Language Char := (one p + pctEncoded)∗

theorem pchar_eq : pchar = one isSegmentChar + pctEncoded := by
  rw [one_segmentChar, pchar]
  ac_rfl

theorem runs_segmentChar : runs isSegmentChar = Grammar.segment := by
  rw [runs, Grammar.segment, pchar_eq]

theorem runs_hostChar : runs isHostChar = regName := by
  rw [runs, regName, one_hostChar, add_right_comm]

theorem runs_authorityChar : runs isAuthorityChar = userinfo := by
  rw [runs, userinfo, one_authorityChar]
  ac_rfl

theorem runs_queryChar : runs isQueryChar = query := by
  rw [runs, query, pchar_eq, one_queryChar, one_pathChar]
  ac_rfl

theorem segmentNzNc_eq : segmentNzNc = (one isColonless + pctEncoded) * runs isColonless := by
  rw [runs, segmentNzNc, one_colonless]
  congr 1 <;> ac_rfl

/-- The texts of two languages are pieces of the first, between which pieces of the second stand. -/
theorem kstar_add (l m : Language Char) : (l + m)∗ = l∗ * (m * l∗)∗ := by
  apply le_antisymm
  · apply kstar_le_of_mul_le_right
    · exact one_le_kstar.trans (le_mul_of_one_le_right' one_le_kstar)
    · rw [add_mul, ← mul_assoc, ← mul_assoc]
      apply add_le
      · exact mul_le_mul_left mul_kstar_le_kstar _
      · exact mul_kstar_le_kstar.trans (le_mul_of_one_le_left' one_le_kstar)
  · have hl : l∗ ≤ (l + m)∗ := kstar_mono (by simp)
    have hm : m * l∗ ≤ (l + m)∗ := by
      calc m * l∗ ≤ (l + m) * (l + m)∗ := mul_le_mul' (by simp) hl
        _ ≤ (l + m)∗ := mul_kstar_le_kstar
    calc l∗ * (m * l∗)∗ ≤ (l + m)∗ * (l + m)∗∗ := mul_le_mul' hl (kstar_mono hm)
      _ = (l + m)∗ := by rw [kstar_idem, kstar_mul_kstar]

theorem runs_pathChar : runs isPathChar = Grammar.segment * pathAbempty := by
  rw [runs, one_pathChar, add_right_comm, ← pchar_eq, kstar_add]
  rfl

theorem runs_authority_split : runs isAuthorityChar = regName * (word ":" * regName)∗ := by
  rw [runs, one_authorityChar, ← one_hostChar, add_right_comm, kstar_add, ← runs, runs_hostChar]

/-! Runs, character by character -/

/-- A run of a class, from its front. -/
inductive Run (p : Char → Bool) : List Char → Prop where
  | nil : Run p []
  | char {c t} : p c → c ≠ '%' → Run p t → Run p (c :: t)
  | octet {a b t} : isHexDigit a → isHexDigit b → Run p t → Run p ('%' :: a :: b :: t)

theorem mem_pctEncoded {t : List Char} :
    t ∈ pctEncoded ↔ ∃ a b, isHexDigit a ∧ isHexDigit b ∧ t = ['%', a, b] := by
  simp only [pctEncoded, ← one_hexDigit, Language.mem_mul, mem_word, mem_one]
  constructor
  · rintro ⟨_, ⟨_, rfl, _, ⟨a, ha, rfl⟩, rfl⟩, _, ⟨b, hb, rfl⟩, rfl⟩
    exact ⟨a, b, ha, hb, rfl⟩
  · rintro ⟨a, b, ha, hb, rfl⟩
    exact ⟨_, ⟨_, rfl, _, ⟨a, ha, rfl⟩, rfl⟩, _, ⟨b, hb, rfl⟩, rfl⟩

theorem Run.mem_runs {p : Char → Bool} {t : List Char} (h : Run p t) : t ∈ runs p := by
  have step : ∀ {x y}, x ∈ one p + pctEncoded → y ∈ runs p → x ++ y ∈ runs p :=
    fun hx hy => mem_of_le mul_kstar_le_kstar (Language.append_mem_mul hx hy)
  induction h with
  | nil => exact Language.nil_mem_kstar _
  | @char c t hc _ _ ih => exact step (.inl ⟨c, hc, rfl⟩) ih
  | @octet a b t ha hb _ ih => exact step (.inr (mem_pctEncoded.mpr ⟨a, b, ha, hb, rfl⟩)) ih

theorem mem_runs {p : Char → Bool} (hp : p '%' = false) {t : List Char} :
    t ∈ runs p ↔ Run p t := by
  constructor
  · rintro ⟨pieces, rfl, h⟩
    induction pieces with
    | nil => exact .nil
    | cons x pieces ih =>
      have rest := ih fun y hy => h y (List.mem_cons_of_mem _ hy)
      obtain ⟨c, hc, rfl⟩ | hx := h x List.mem_cons_self
      · refine .char hc ?_ rest
        rintro rfl
        rw [hp] at hc
        cases hc
      · obtain ⟨a, b, ha, hb, rfl⟩ := mem_pctEncoded.mp hx
        exact .octet ha hb rest
  · exact Run.mem_runs

end PipelineCache.Uri

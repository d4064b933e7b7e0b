import PipelineCache.Json.Record

/-! Readers that look at the form of a text only. Strings, numbers, separators and values that are
passed over may be malformed or cut short, and none of them is said not to fit. -/
namespace PipelineCache.Json
variable {α β σ : Type}

/-- Whatever went wrong is about the form of the text. -/
def Proper (x : Except Fault α) : Prop := ∀ c, x ≠ .error (.misfit c)

theorem proper_map {x : Except Fault α} (h : Proper x) (f : α → β) : Proper (x.map f) := by
  intro c hc
  cases x with
  | error e => exact h c (congrArg Except.error (Except.error.inj hc))
  | ok a => cases hc

theorem proper_reader_map {p : Reader α} {t : List Char} (h : Proper (p.run t)) (f : α → β) :
    Proper ((p.map f).run t) := by
  intro c hc
  simp only [Reader.map, Reader.check] at hc
  split at hc
  · next he =>
    cases hc
    exact h c he
  · cases hc

theorem proper_loop {step : σ → Reader (σ ⊕ α)} (hs : ∀ x t, Proper ((step x).run t)) (x : σ)
    (t : List Char) : Proper ((Reader.loop step x).run t) := by
  change Proper (repeated step x t)
  fun_induction repeated step x t with
  | case1 x t e he =>
    intro c h
    cases h
    exact hs x t c he
  | case2 =>
    intro c h
    cases h
  | case3 x t x' r h ih => exact ih

theorem proper_afterWord (w t : List Char) : Proper (afterWord w t) := by
  fun_induction afterWord w t with
  | case3 c w t ih => exact ih
  | case1 | case2 | case4 =>
    intro c h
    cases h

namespace Text

theorem proper_codeUnit (t : List Char) : Proper (codeUnit t) := by
  intro c h
  unfold codeUnit at h
  split at h
  · split at h <;> cases h
  · split at h <;> cases h

theorem proper_trailing (lead : Nat) (t : List Char) : Proper (trailing lead t) := by
  intro c h
  unfold trailing at h
  split at h
  · split at h
    · next hu =>
      cases h
      exact proper_codeUnit _ c hu
    · split at h <;> cases h
  all_goals cases h

theorem proper_numbered (t : List Char) : Proper (numbered t) := by
  intro c h
  unfold numbered at h
  split at h
  · next hu =>
    cases h
    exact proper_codeUnit _ c hu
  · split at h
    · cases h
    · split at h
      · exact proper_trailing _ _ c h
      · cases h

theorem proper_character (t : List Char) : Proper (character t) := by
  intro c h
  unfold character at h
  split at h
  case h_4 =>
    split at h
    · next hn =>
      cases h
      exact proper_numbered _ c hn
    · cases h
  case h_5 | h_6 => split at h <;> cases h
  all_goals cases h

theorem proper_passed (t : List Char) : Proper (passed t) := by
  intro c h
  unfold passed at h
  split at h
  case h_4 =>
    split at h
    · next hn =>
      cases h
      exact proper_codeUnit _ c hn
    · cases h
  case h_5 | h_6 => split at h <;> cases h
  all_goals cases h

theorem proper_body (t : List Char) : Proper (body.run t) :=
  proper_loop (fun _ u => proper_reader_map (proper_character u) _) _ t

theorem proper_skip (t : List Char) : Proper (skip.run t) :=
  proper_loop (fun _ u => proper_reader_map (proper_passed u) _) _ t

end Text

namespace Numeral

theorem proper_digits (t : List Char) : Proper (digits t) := by
  intro c h
  unfold digits at h
  split at h
  · cases h
  · split at h <;> cases h

theorem proper_wholePart (t : List Char) : Proper (wholePart t) := by
  grind [Proper, wholePart, proper_digits]

theorem proper_fractionPart (t : List Char) : Proper (fractionPart t) := by
  intro c h
  unfold fractionPart at h
  split at h
  · exact proper_digits _ c h
  · cases h

theorem proper_exponentPart (t : List Char) : Proper (exponentPart t) := by
  intro c h
  unfold exponentPart at h
  split at h
  · cases h
  · grind [Proper, proper_digits]

theorem proper_read (t : List Char) : Proper (read t) := by
  grind [Proper, read, proper_wholePart, proper_fractionPart, proper_exponentPart]

theorem proper_raise (x : Float) (n : Nat) : Proper (raise x n) := by
  grind [Proper, raise]

theorem proper_double (negative : Bool) (s : Nat) (e : Int) : Proper (double negative s e) := by
  intro c h
  unfold double at h
  split at h
  · cases h
  · exact proper_map (proper_raise _ _) _ c h

theorem proper_fractional (n : Numeral) (s : Nat) (shift : Int) :
    Proper (fractional n s shift) := by
  grind [Proper, fractional, proper_double]

theorem proper_value (n : Numeral) : Proper n.value := by
  grind [Proper, value, integer, proper_double, proper_fractional]

end Numeral

theorem proper_numberFound (t : List Char) : Proper (numberFound t) := by
  grind [Proper, numberFound, Numeral.proper_read, Numeral.proper_value]

namespace Place

theorem proper_colon (t : List Char) : Proper (colon t) := by
  grind [Proper, colon]

theorem proper_skipWord (w : List Char) (outer : List Bracket) (t : List Char) :
    Proper (skipWord w outer t) := by
  grind [Proper, skipWord, proper_afterWord]

theorem proper_start (outer : List Bracket) (t : List Char) : Proper (start outer t) := by
  intro c h
  unfold start at h
  split at h <;> grind [Proper, proper_skipWord, Text.proper_skip, skipNumber]

theorem proper_name (outer : List Bracket) (t : List Char) : Proper (name outer t) := by
  intro c h
  unfold name at h
  split at h <;> grind [Proper, Text.proper_skip, proper_colon]

theorem proper_stepRun (p : Place) (t : List Char) : Proper (stepRun p t) := by
  intro c h
  unfold stepRun at h
  split at h <;> grind [Proper, proper_start, proper_name]

end Place

theorem proper_skipValue (t : List Char) : Proper (skipValue.run t) :=
  proper_loop Place.proper_stepRun _ t

theorem proper_memberValue {p : Reader α} (hp : ∀ t, Proper (p.run t)) (t : List Char) :
    Proper (memberValue p t) := by
  intro c h
  unfold memberValue at h
  split at h
  · next he =>
    cases h
    exact Place.proper_colon _ c he
  · exact hp _ c h

theorem proper_nextItem (first : Bool) (t : List Char) : Proper (nextItem first t) := by
  grind [Proper, nextItem]

theorem proper_nextMember (first : Bool) (t : List Char) : Proper (nextMember first t) := by
  grind [Proper, nextMember]

theorem proper_closing (t : List Char) : Proper (closing t) := by
  grind [Proper, closing]

end PipelineCache.Json

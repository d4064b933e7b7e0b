import PipelineCache.Json.Format
import PipelineCache.Proofs.Json.Value

/-! Reading goes no further than the value. A text that is read is read in the same way when more
text stands behind it, and the more is left over as well; only where a text was read to its very end
it matters what the more begins with, since a number goes on with digits. -/
namespace PipelineCache.Json
variable {α β σ : Type}

/-- What may come behind a text that was read but for `r`. -/
def Fits (r s : List Char) : Prop := r = [] → Delimited s

theorem Fits.of_length_le {r r' s : List Char} (h : Fits r s) (hl : r.length ≤ r'.length) :
    Fits r' s := by
  intro hr
  exact h (List.eq_nil_of_length_eq_zero (by rw [hr] at hl; simpa using hl))

/-- A text that goes on is read in the same way, and what comes behind is left over. -/
def Extends (run : List Char → Reading α) : Prop :=
  ∀ ⦃t r s : List Char⦄ ⦃a : α⦄, run t = .ok (a, r) → Fits r s → run (t ++ s) = .ok (a, r ++ s)

/-- What was read stays so with any text behind it. -/
def Bounded (run : List Char → Reading α) : Prop :=
  ∀ ⦃t r : List Char⦄ ⦃a : α⦄, run t = .ok (a, r) → ∀ s, run (t ++ s) = .ok (a, r ++ s)

theorem Bounded.extends {run : List Char → Reading α} (h : Bounded run) : Extends run :=
  fun _ _ s _ ht _ => h ht s

theorem exists_of_map_eq_ok {x : Except Fault α} {f : α → β} {b : β} (h : x.map f = .ok b) :
    ∃ a, x = .ok a ∧ f a = b := by
  cases x with
  | error e => cases h
  | ok a => exact ⟨a, rfl, Except.ok.inj h⟩

theorem extends_check {p : Reader α} (hp : Extends p.run) (f : α → Except Fault β) :
    Extends (p.check f).run := by
  intro t r s b h hs
  simp only [Reader.check] at h
  split at h
  · cases h
  · next a r' hr =>
    split at h
    · cases h
    · next hf =>
      cases h
      exact Reader.run_check (hp hr hs) hf

theorem extends_loop {step : σ → Reader (σ ⊕ α)} (hs : ∀ x, Extends (step x).run) (x : σ) :
    Extends (Reader.loop step x).run := by
  intro t r s a h hf
  change repeated step x t = _ at h
  change repeated step x (t ++ s) = _
  fun_induction repeated step x t with
  | case1 => cases h
  | case2 x t a' r' hr =>
    cases h
    exact repeated_inr (hs x hr hf)
  | case3 x t x' r' hr ih =>
    have hl := repeated_shrinks step h
    rw [repeated_inl (hs x hr (hf.of_length_le (Nat.le_of_lt hl)))]
    exact ih h

theorem bounded_check {p : Reader α} (hp : Bounded p.run) (f : α → Except Fault β) :
    Bounded (p.check f).run := by
  intro t r b h s
  simp only [Reader.check] at h
  split at h
  · cases h
  · next hr =>
    split at h
    · cases h
    · next hf =>
      cases h
      exact Reader.run_check (hp hr s) hf

/-- Each step before the last one leaves something to read, so only the last one has to be bounded.
-/
theorem bounded_loop {step : σ → Reader (σ ⊕ α)} (hs : ∀ x, Extends (step x).run)
    (hl : ∀ x t r a, (step x).run t = .ok (.inr a, r) →
      ∀ s, (step x).run (t ++ s) = .ok (.inr a, r ++ s)) (x : σ) :
    Bounded (Reader.loop step x).run := by
  intro t r a h s
  change repeated step x t = _ at h
  change repeated step x (t ++ s) = _
  fun_induction repeated step x t with
  | case1 => cases h
  | case2 x t a' r' hr =>
    cases h
    exact repeated_inr (hl _ _ _ _ hr s)
  | case3 x t x' r' hr ih =>
    have hf : Fits r' s := by
      rintro rfl
      cases repeated_shrinks step h
    rw [repeated_inl (hs x hr hf)]
    exact ih h

theorem afterBlanks_append_of_cons {c : Char} {t r : List Char} (h : afterBlanks t = c :: r)
    (s : List Char) : afterBlanks (t ++ s) = c :: (r ++ s) := by
  rw [afterBlanks, List.dropWhile_append]
  rw [afterBlanks] at h
  simp [h]

theorem afterWord_append {w t r : List Char} (h : afterWord w t = .ok r) (s : List Char) :
    afterWord w (t ++ s) = .ok (r ++ s) := by
  rw [afterWord_eq_ok] at h ⊢
  rw [h, List.append_assoc]

namespace Text

theorem codeUnit_append {t r : List Char} {n : Nat} (h : codeUnit t = .ok (n, r)) (s : List Char) :
    codeUnit (t ++ s) = .ok (n, r ++ s) := by
  unfold codeUnit at h
  split at h
  · split at h <;> cases h
    simp only [List.cons_append, codeUnit, *]
  · cases h

theorem trailing_append {lead : Nat} {t r : List Char} {c : Char}
    (h : trailing lead t = .ok (c, r)) (s : List Char) :
    trailing lead (t ++ s) = .ok (c, r ++ s) := by
  unfold trailing at h
  split at h
  · split at h
    · cases h
    · next hu =>
      split at h
      · next ht =>
        simp only [Except.ok.injEq, Prod.mk.injEq] at h
        simp only [List.cons_append, trailing, codeUnit_append hu, ht, if_true, h]
      · cases h
  all_goals cases h

theorem numbered_append {t r : List Char} {c : Char} (h : numbered t = .ok (c, r))
    (s : List Char) : numbered (t ++ s) = .ok (c, r ++ s) := by
  unfold numbered at h ⊢
  split at h
  · cases h
  · next hu =>
    simp only [codeUnit_append hu]
    split at h
    · cases h
    · next ht =>
      rw [if_neg ht]
      split at h
      · next hl => rw [if_pos hl, trailing_append h]
      · next hl =>
        cases h
        rw [if_neg hl]

theorem bounded_character : Bounded character := by
  intro t r c h s
  unfold character at h
  split at h
  · cases h
  · cases h
    rfl
  · cases h
  · split at h
    · cases h
    · next hn =>
      cases h
      simp only [List.cons_append, character, numbered_append hn]
  · next e t _ =>
    split at h
    · next he =>
      cases h
      exact character_spelled (.short he) _
    · cases h
  · next c t hq hb _ hn =>
    split at h
    · next hr =>
      cases h
      have hc : c ≠ '\\' := by
        rintro rfl
        cases r with
        | nil => exact hb rfl rfl
        | cons e r => exact hn e r rfl rfl
      exact character_spelled (.raw hr hq hc) _
    · cases h

theorem bounded_gather (got : List Char) : Bounded (gather got).run :=
  bounded_check bounded_character _

theorem bounded_body : Bounded body.run :=
  bounded_loop (fun got => (bounded_gather got).extends) (fun got _ _ _ h => bounded_gather got h) []

theorem bounded_passed : Bounded passed := by
  intro t r c h s
  unfold passed at h
  split at h
  · cases h
  · cases h
    rfl
  · cases h
  · split at h
    · cases h
    · next hn =>
      cases h
      simp only [List.cons_append, passed, codeUnit_append hn]
  · next e t _ =>
    split at h
    · next he =>
      cases h
      obtain ⟨x, hx⟩ := Option.isSome_iff_exists.1 he
      exact passed_passedChar (.short hx) _
    · cases h
  · next c t hq hb _ hn =>
    split at h
    · next hr =>
      cases h
      have hc : c ≠ '\\' := by
        rintro rfl
        cases r with
        | nil => exact hb rfl rfl
        | cons e r => exact hn e r rfl rfl
      exact passed_passedChar (.raw hr hq hc) _
    · cases h

theorem bounded_skip : Bounded skip.run :=
  bounded_loop (fun _ => (bounded_check bounded_passed _).extends)
    (fun _ _ _ _ h => bounded_check bounded_passed _ h) ()

end Text

namespace Numeral

theorem ended_of_fits {s : List Char} (h : Fits [] s) : Ended s := ended_of_delimited (h rfl)

theorem digits_eq_ok {t r ds : List Char} (h : digits t = .ok (ds, r)) :
    t = ds ++ r ∧ AllDigits ds ∧ ds ≠ [] ∧ NoDigit r := by
  unfold digits at h
  split at h
  · cases h
  · next c t =>
    split at h
    · next hc =>
      cases h
      have hd := List.all_eq_true.1 (List.all_takeWhile (p := Char.isDigit) (l := t))
      have hr := List.head?_dropWhile_not Char.isDigit t
      refine ⟨by simp, List.forall_mem_cons.2 ⟨hc, hd⟩, by simp, fun d hd => ?_⟩
      rw [Option.mem_def.1 hd] at hr
      simp [hr]
    · cases h

theorem extends_digits : Extends digits := by
  intro t r s ds h hs
  obtain ⟨rfl, hd, hn, hr⟩ := digits_eq_ok h
  rw [List.append_assoc, digits_append hd hn]
  cases r with
  | nil => exact (ended_of_fits hs).noDigit
  | cons c r => exact hr

theorem extends_wholePart : Extends wholePart := by
  intro t r s ds h hs
  unfold wholePart at h
  split at h
  · cases h
  · cases h
  · next ds' r' hz hd =>
    cases h
    rw [wholePart, extends_digits hd hs]
    split <;> simp_all

theorem extends_fractionPart : Extends fractionPart := by
  intro t r s ds h hs
  unfold fractionPart at h
  split at h
  · exact extends_digits h hs
  · next hp =>
    cases h
    cases t with
    | nil =>
      have he := ended_of_fits hs
      have hn : AllDigits [] := by simp [AllDigits]
      exact fractionPart_append hn he.noDigit fun c hc => (he c hc).2.1
    | cons c r =>
      have hc : c ≠ '.' := by
        rintro rfl
        exact hp r rfl
      simp [fractionPart, hc]

theorem exponentSign_append_of_ne {t : List Char} (h : t ≠ []) (s : List Char) :
    exponentSign (t ++ s) = ((exponentSign t).1, (exponentSign t).2 ++ s) := by
  cases t with
  | nil => exact absurd rfl h
  | cons c t =>
    unfold exponentSign
    split <;> simp_all

theorem sign_append_of_ne {t : List Char} (h : t ≠ []) (s : List Char) :
    sign (t ++ s) = ((sign t).1, (sign t).2 ++ s) := by
  cases t with
  | nil => exact absurd rfl h
  | cons c t =>
    unfold sign
    split <;> simp_all

theorem extends_exponentPart : Extends exponentPart := by
  intro t r s x h hs
  unfold exponentPart at h
  split at h
  · cases h
    exact exponentPart_append .none (ended_of_fits hs)
  · next c t =>
    split at h
    · next hc =>
      split at h
      · cases h
      · next hd =>
        cases h
        have ht : t ≠ [] := by
          rintro rfl
          cases hd
        rw [List.cons_append, exponentPart, if_pos hc, exponentSign_append_of_ne ht]
        simp only [extends_digits hd hs]
    · next hc =>
      cases h
      rw [List.cons_append, exponentPart, if_neg hc]

theorem extends_read : Extends read := by
  intro t r s n h hs
  unfold read at h
  split at h
  · cases h
  · next hw =>
    split at h
    · cases h
    · next hf =>
      split at h
      · cases h
      · next hx =>
        cases h
        have ht : t ≠ [] := by
          rintro rfl
          cases hw
        have hs₂ := hs.of_length_le (length_exponentPart hx)
        have hs₁ := hs₂.of_length_le (length_fractionPart hf)
        simp only [read, sign_append_of_ne ht, extends_wholePart hw hs₁, extends_fractionPart hf hs₂,
          extends_exponentPart hx hs]

end Numeral

theorem extends_numberFound : Extends numberFound := by
  intro t r s x h hs
  unfold numberFound at h
  split at h
  · cases h
  · next hn =>
    split at h
    · cases h
    · next hv =>
      cases h
      simp only [numberFound, Numeral.extends_read hn hs, hv]

theorem skipNumber_append {t r s : List Char} (h : skipNumber t = .ok r) (hs : Fits r s) :
    skipNumber (t ++ s) = .ok (r ++ s) := by
  unfold skipNumber at h
  split at h
  · cases h
  · next hn =>
    cases h
    simp only [skipNumber, Numeral.extends_read hn hs]

theorem map_afterWord_append {w t r : List Char} {x a : α}
    (h : (afterWord w t).map (fun r => (x, r)) = .ok (a, r)) (s : List Char) :
    (afterWord w (t ++ s)).map (fun r => (x, r)) = .ok (a, r ++ s) := by
  obtain ⟨r', hw, he⟩ := exists_of_map_eq_ok h
  cases he
  rw [afterWord_append hw]
  rfl

theorem bounded_textRun (expected : String) : Bounded (textRun expected) := by
  intro t r a h s
  unfold textRun at h
  split at h
  · next hb =>
    rw [textRun, afterBlanks_append_of_cons hb]
    exact Text.bounded_body h s
  · cases h

theorem extends_flagRun : Extends flagRun := by
  intro t r s a h _
  unfold flagRun at h
  split at h
  · next hb =>
    rw [flagRun, afterBlanks_append_of_cons hb]
    exact map_afterWord_append h s
  · next hb =>
    rw [flagRun, afterBlanks_append_of_cons hb]
    exact map_afterWord_append h s
  · cases h

theorem extends_int32Run : Extends int32Run := by
  intro t r s a h hs
  unfold int32Run at h
  split at h
  · cases h
  · next hb =>
    split at h
    · next hc =>
      split at h
      · cases h
      · next x r' hn =>
        obtain ⟨n, hx, he⟩ := exists_of_map_eq_ok h
        cases he
        have hn := extends_numberFound hn hs
        rw [List.cons_append] at hn
        simp only [int32Run, afterBlanks_append_of_cons hb, hc, if_true, hn, hx]
        rfl
    · cases h

theorem nextItem_append {first : Bool} {t : List Char} {x : List Char ⊕ List Char}
    (h : nextItem first t = .ok x) (s : List Char) :
    nextItem first (t ++ s) = .ok (x.map (· ++ s) (· ++ s)) := by
  unfold nextItem at h
  split at h
  · cases h
  · next hb =>
    cases h
    rw [nextItem, afterBlanks_append_of_cons hb]
    rfl
  · next c r hc hb =>
    rw [nextItem, afterBlanks_append_of_cons hb]
    cases first with
    | true =>
      cases h
      simp
    | false =>
      simp only [Bool.false_eq_true, if_false] at h ⊢
      split at h
      · next hcomma =>
        subst hcomma
        split at h
        · cases h
        · cases h
        · next r' hn hd =>
          cases h
          cases hr : afterBlanks r with
          | nil => exact absurd hr hn
          | cons d u =>
            have hd : d ≠ ']' := by
              rintro rfl
              exact hd u hr
            simp [afterBlanks_append_of_cons hr, hd]
      · cases h

theorem extends_itemRun {item : Reader α} (hi : Extends item.run) (got : List α × Bool) :
    Extends (itemRun item got) := by
  intro t r s x h hs
  unfold itemRun at h
  split at h
  · cases h
  · next hn =>
    cases h
    simp only [itemRun, nextItem_append hn]
    rfl
  · next hn =>
    split at h
    · cases h
    · next hr =>
      cases h
      have hn := nextItem_append hn s
      simp only [Sum.map_inr] at hn
      simp only [itemRun, hn, hi hr hs]

theorem bounded_items {item : Reader α} (hi : Extends item.run) : Bounded (items item).run := by
  refine bounded_loop (extends_itemRun hi) (fun got t r xs h s => ?_) _
  change itemRun item got t = _ at h
  change itemRun item got (t ++ s) = _
  unfold itemRun at h
  split at h
  · cases h
  · next hn =>
    cases h
    simp only [itemRun, nextItem_append hn]
    rfl
  · split at h <;> cases h

theorem bounded_listRun {item : Reader α} (hi : Extends item.run) : Bounded (listRun item) := by
  intro t r xs h s
  unfold listRun at h
  split at h
  · next hb =>
    rw [listRun, afterBlanks_append_of_cons hb]
    exact bounded_items hi h s
  · cases h

theorem Reader.run_nil_ne (p : Reader α) (x : α × List Char) : p.run [] ≠ .ok x := by
  intro h
  have hl := p.shrinks h
  cases hl

theorem extends_optionalRun {p : Reader α} (hp : Extends p.run)
    (hb : ∀ t, p.run (afterBlanks t) = p.run t) : Extends (optionalRun p) := by
  intro t r s x h hs
  unfold optionalRun at h
  split at h
  · next hw =>
    rw [optionalRun, afterBlanks_append_of_cons hw]
    exact map_afterWord_append h s
  · next hn =>
    have hm := extends_check hp _ h hs
    cases hw : afterBlanks t with
    | nil =>
      have hm' : (p.map some).run (afterBlanks t) = .ok (x, r) := by
        rw [← h]
        simp only [Reader.map, Reader.check, hb]
      rw [hw] at hm'
      exact absurd hm' (Reader.run_nil_ne _ _)
    | cons c u =>
      have hc : c ≠ 'n' := by
        rintro rfl
        exact hn u hw
      simp only [optionalRun, afterBlanks_append_of_cons hw]
      split
      · simp_all
      · exact hm

namespace Place

theorem colon_extends {t r : List Char} (h : colon t = .ok r) (s : List Char) :
    colon (t ++ s) = .ok (r ++ s) := by
  unfold colon at h
  split at h
  · cases h
  · next hb =>
    cases h
    rw [colon, afterBlanks_append_of_cons hb]
    rfl
  · cases h

theorem skipWord_append {w t r : List Char} {outer : List Bracket} {x : Place ⊕ Unit}
    (h : skipWord w outer t = .ok (x, r)) (s : List Char) :
    skipWord w outer (t ++ s) = .ok (x, r ++ s) := by
  unfold skipWord at h
  split at h
  · cases h
  · next hw =>
    cases h
    simp only [skipWord, afterWord_append hw]

theorem extends_start (outer : List Bracket) : Extends (start outer) := by
  intro t r s x h hs
  unfold start at h
  split at h
  · cases h
  · cases h
    rfl
  · cases h
    rfl
  · split at h
    · cases h
    · next ht =>
      cases h
      simp only [List.cons_append, start, Text.bounded_skip ht s]
  · exact skipWord_append h s
  · exact skipWord_append h s
  · exact skipWord_append h s
  · next c t h₁ h₂ h₃ h₄ h₅ h₆ =>
    split at h
    · next hc =>
      split at h
      · cases h
      · next hk =>
        cases h
        have hk := skipNumber_append hk hs
        rw [List.cons_append] at hk ⊢
        simp [start, hc, hk]
    · cases h

theorem extends_name (outer : List Bracket) : Extends (name outer) := by
  intro t r s x h hs
  unfold name at h
  split at h
  · cases h
  · split at h
    · cases h
    · next ht =>
      split at h
      · cases h
      · next hc =>
        cases h
        simp only [List.cons_append, name, Text.bounded_skip ht s, colon_extends hc]
  · cases h

theorem extends_stepRun (p : Place) : Extends (stepRun p) := by
  intro t r s x h hs
  cases hb : afterBlanks t with
  | nil =>
    unfold stepRun at h
    split at h <;> simp only [hb] at h <;> cases h
  | cons c u =>
    have hb' := afterBlanks_append_of_cons hb s
    unfold stepRun at h ⊢
    split at h <;> rw [hb] at h <;> rw [hb']
    · exact extends_start _ h hs
    · split at h
      · next he =>
        cases he
        cases h
        rfl
      · have hx := extends_start _ h hs
        rw [List.cons_append] at hx
        simp_all
    · split at h
      · next he =>
        cases he
        cases h
        rfl
      · have hx := extends_name _ h hs
        rw [List.cons_append] at hx
        simp_all
    · split at h
      · cases h
      · next he =>
        cases he
        cases h
        rfl
      · next he =>
        cases he
        cases h
        rfl
      · cases h
    · split at h
      · cases h
      · next he =>
        cases he
        cases h
        rfl
      · next v he =>
        cases he
        cases hu : afterBlanks u with
        | nil =>
          rw [hu] at h
          cases h
        | cons d v =>
          rw [hu] at h
          have hx := extends_name _ h hs
          rw [List.cons_append] at hx
          simp only [afterBlanks_append_of_cons hu, hx]
      · cases h

end Place

theorem extends_skipValue : Extends skipValue.run := extends_loop Place.extends_stepRun _

end PipelineCache.Json

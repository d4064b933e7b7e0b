import PipelineCache.Proofs.Json.Digits

/-! Only well-formed values are passed over. What the loop has taken off the text when it ends fills
in what the open brackets still demanded where it began. -/
namespace PipelineCache.Json
variable {α σ : Type}

/-- What a step leaves to be taken: what its state demands, or nothing behind the last one. -/
def Leaves (demands : σ → List Char → Prop) : σ ⊕ α → List Char → Prop
  | .inl s, w => demands s w
  | .inr _, w => w = []

/-- Where each step takes a part of what its state demands, all steps together take the whole. -/
theorem repeated_eq_ok {step : σ → Reader (σ ⊕ α)} (demands : σ → List Char → Prop)
    (hs : ∀ s t x r, (step s).run t = .ok (x, r) →
      ∃ u, t = u ++ r ∧ ∀ w, Leaves demands x w → demands s (u ++ w))
    {s : σ} {t r : List Char} {a : α} (h : repeated step s t = .ok (a, r)) :
    ∃ w, t = w ++ r ∧ demands s w := by
  fun_induction repeated step s t with
  | case1 => cases h
  | case2 s t a' r' hr =>
    cases h
    obtain ⟨u, rfl, hu⟩ := hs s t _ _ hr
    have hd := hu [] rfl
    rw [List.append_nil] at hd
    exact ⟨u, rfl, hd⟩
  | case3 s t s' r' hr ih =>
    obtain ⟨w, rfl, hw⟩ := ih h
    obtain ⟨u, rfl, hu⟩ := hs s t _ _ hr
    exact ⟨u ++ w, (List.append_assoc u w r).symm, hu w hw⟩

theorem exists_blanks (t : List Char) : ∃ b, Blanks b ∧ t = b ++ afterBlanks t :=
  ⟨t.takeWhile isBlank, List.all_eq_true.1 List.all_takeWhile, List.takeWhile_append_dropWhile.symm⟩

theorem eq_of_afterBlanks {c : Char} {t r : List Char} (h : afterBlanks t = c :: r) :
    ∃ b, Blanks b ∧ t = b ++ c :: r := by
  obtain ⟨b, hb, ht⟩ := exists_blanks t
  exact ⟨b, hb, h ▸ ht⟩

namespace Text

theorem codeUnit_eq_ok {t r : List Char} {n : Nat} (h : codeUnit t = .ok (n, r)) :
    ∃ u, Digits u n ∧ t = u ++ r := by
  unfold codeUnit at h
  split at h
  · next a b c d t =>
    split at h
    · next ha hb hc hd =>
      cases h
      exact ⟨[a, b, c, d], .mk ha hb hc hd, rfl⟩
    · cases h
  · cases h

theorem passed_eq_ok {t r : List Char} {closed : Bool} (h : passed t = .ok (closed, r)) :
    closed = true ∧ t = '"' :: r ∨ closed = false ∧ ∃ u, PassedChar u ∧ t = u ++ r := by
  unfold passed at h
  split at h
  · cases h
  · cases h
    exact .inl ⟨rfl, rfl⟩
  · cases h
  · split at h
    · cases h
    · next hu =>
      cases h
      obtain ⟨u, hd, rfl⟩ := codeUnit_eq_ok hu
      exact .inr ⟨rfl, _, .number hd, rfl⟩
  · next e t _ =>
    split at h
    · next he =>
      cases h
      obtain ⟨c, hc⟩ := Option.isSome_iff_exists.1 he
      exact .inr ⟨rfl, _, .short hc, rfl⟩
    · cases h
  · next c t hq hend _ hb =>
    split at h
    · next hr =>
      cases h
      refine .inr ⟨rfl, _, .raw hr ?_ ?_, rfl⟩
      · rintro rfl
        exact hq rfl
      · rintro rfl
        cases r with
        | nil => exact hend rfl rfl
        | cons e r => exact hb e r rfl rfl
    · cases h

/-- Only the characters of a string are passed over before its closing quote. -/
theorem skip_eq_ok {t r : List Char} (h : skip.run t = .ok ((), r)) :
    ∃ s, Passed s ∧ t = s ++ '"' :: r := by
  suffices hw : ∃ w, t = w ++ r ∧ ∃ s, Passed s ∧ w = s ++ ['"'] by
    obtain ⟨w, rfl, s, hs, rfl⟩ := hw
    exact ⟨s, hs, by simp only [List.append_assoc, List.singleton_append]⟩
  refine repeated_eq_ok (fun _ w => ∃ s, Passed s ∧ w = s ++ ['"']) ?_ h
  intro _ t x r hx
  simp only [Reader.map, Reader.check] at hx
  split at hx
  · cases hx
  · next closed r' hp =>
    cases hx
    obtain ⟨rfl, rfl⟩ | ⟨rfl, u, hu, rfl⟩ := passed_eq_ok hp
    · exact ⟨['"'], rfl, fun w hw => ⟨[], .nil, by rw [hw]; rfl⟩⟩
    · refine ⟨u, rfl, ?_⟩
      rintro w ⟨s, hs, rfl⟩
      exact ⟨u ++ s, .cons hu hs, (List.append_assoc u s _).symm⟩

end Text

namespace Numeral

theorem sign_eq (t : List Char) : t = signText (sign t).1 ++ (sign t).2 := by
  unfold sign
  split <;> rfl

theorem fractionPart_eq_ok {t r ds : List Char} (h : fractionPart t = .ok (ds, r)) :
    AllDigits ds ∧ t = fractionText ds ++ r := by
  unfold fractionPart at h
  split at h
  · obtain ⟨rfl, hd, hn, -⟩ := digits_eq_ok h
    obtain ⟨c, cs, rfl⟩ := List.exists_cons_of_ne_nil hn
    exact ⟨hd, rfl⟩
  · cases h
    exact ⟨by simp [AllDigits], rfl⟩

theorem exponentSign_eq (t : List Char) : ∃ s, SignSpelled s (exponentSign t).1 ∧
    t = s ++ (exponentSign t).2 := by
  unfold exponentSign
  split
  · exact ⟨['+'], .plus, rfl⟩
  · exact ⟨['-'], .minus, rfl⟩
  · exact ⟨[], .none, rfl⟩

theorem exponentPart_eq_ok {t r : List Char} {x : Option (Bool × List Char)}
    (h : exponentPart t = .ok (x, r)) : ∃ e, ExponentSpelled e x ∧ t = e ++ r := by
  unfold exponentPart at h
  split at h
  · cases h
    exact ⟨[], .none, rfl⟩
  · next c t =>
    split at h
    · next hc =>
      split at h
      · cases h
      · next ds r hd =>
        cases h
        obtain ⟨s, hs, ht⟩ := exponentSign_eq t
        obtain ⟨hr, hds, hn, -⟩ := digits_eq_ok hd
        refine ⟨_, .some hc hs hds hn, ?_⟩
        rw [List.cons_append, List.append_assoc, ← hr, ← ht]
    · cases h
      exact ⟨[], .none, rfl⟩

theorem spelled_of_read {t r : List Char} {n : Numeral} (h : read t = .ok (n, r)) :
    ∃ v, Spelled v n ∧ t = v ++ r := by
  obtain ⟨t₁, t₂, hs, hw, hf, hx⟩ := read_eq_ok h
  obtain ⟨hwhole, hd⟩ := wholePart_eq_ok hw
  obtain ⟨hsign, -⟩ := digits_eq_ok hd
  obtain ⟨hfraction, rfl⟩ := fractionPart_eq_ok hf
  obtain ⟨e, he, rfl⟩ := exponentPart_eq_ok hx
  refine ⟨_, .mk hwhole hfraction he, ?_⟩
  rw [sign_eq t, hsign, hs]
  simp only [List.append_assoc]

end Numeral

theorem skipNumber_eq_ok {t r : List Char} (h : skipNumber t = .ok r) :
    ∃ v n, Numeral.Spelled v n ∧ t = v ++ r := by
  unfold skipNumber at h
  split at h
  · cases h
  · next n r' hn =>
    cases h
    obtain ⟨v, hv, ht⟩ := Numeral.spelled_of_read hn
    exact ⟨v, n, hv, ht⟩

namespace Bracket

/-- What a bracket still holds behind a value in it, up to its closing. -/
inductive Rest (k : Bracket) : List Char → Prop
  | close {b : List Char} (hb : Blanks b) : Rest k (b ++ [k.closing])
  | more {b t : List Char} (hb : Blanks b) (ht : WellFormed (some k) t) :
      Rest k (b ++ ',' :: (t ++ [k.closing]))

end Bracket

namespace Place

/-- What is still to come behind a value, given the brackets around it. -/
def Closes : List Bracket → List Char → Prop
  | [], w => w = []
  | k :: outer, w => ∃ u w', k.Rest u ∧ Closes outer w' ∧ w = u ++ w'

/-- What is still to come from a value on, without blanks in front of it. -/
def Begins (outer : List Bracket) (w : List Char) : Prop :=
  ∃ v w', WellFormed none v ∧ Closes outer w' ∧ w = v ++ w'

/-- What is still to come from the first of some values in a bracket on. -/
def Fills (k : Bracket) (outer : List Bracket) (w : List Char) : Prop :=
  ∃ s w', WellFormed (some k) s ∧ Closes outer w' ∧ w = s ++ k.closing :: w'

/-- What is still to come from a place on. -/
def Demands : Place → List Char → Prop
  | .value outer, w => ∃ b w', Blanks b ∧ Begins outer w' ∧ w = b ++ w'
  | .first k outer, w => ∃ u w', WellFormed none (k.opening :: u) ∧ Closes outer w' ∧ w = u ++ w'
  | .next k outer, w => Closes (k :: outer) w

section
variable {k : Bracket} {outer : List Bracket} {b w : List Char}

theorem leaves_after (h : Leaves Demands (after outer) w) : Closes outer w := by
  cases outer with
  | nil => exact h
  | cons k outer => exact h

theorem Begins.of_value {v : List Char} (hv : WellFormed none v)
    (hw : Leaves Demands (after outer) w) : Begins outer (v ++ w) :=
  ⟨v, w, hv, leaves_after hw, rfl⟩

/-- A value and what is still to come behind it fill the bracket around them. -/
theorem Begins.fills {l : List Char} (h : Begins (k :: outer) w) (hl : k.Lead l) (hb : Blanks b) :
    Fills k outer (l ++ (b ++ w)) := by
  obtain ⟨v, w, hv, ⟨u, w', hu, hw', rfl⟩, rfl⟩ := h
  cases hu with
  | close hb' => exact ⟨_, w', .last hl hb hv hb', hw', by simp⟩
  | more hb' ht => exact ⟨_, w', .more hl hb hv hb' ht, hw', by simp⟩

theorem first_of_fills (h : Fills k outer w) : Demands (.first k outer) w := by
  obtain ⟨s, w', hs, hw', rfl⟩ := h
  exact ⟨s ++ [k.closing], w', .full hs, hw', by simp⟩

theorem first_of_empty (hb : Blanks b) (hw : Closes outer w) :
    Demands (.first k outer) (b ++ k.closing :: w) :=
  ⟨b ++ [k.closing], w, .empty hb, hw, by simp⟩

theorem next_of_close (hb : Blanks b) (hw : Closes outer w) :
    Demands (.next k outer) (b ++ k.closing :: w) :=
  ⟨b ++ [k.closing], w, .close hb, hw, by simp⟩

theorem next_of_fills (hb : Blanks b) (h : Fills k outer w) :
    Demands (.next k outer) (b ++ ',' :: w) := by
  obtain ⟨s, w', hs, hw', rfl⟩ := h
  exact ⟨_, w', .more hb hs, hw', by simp⟩

end

section
variable {outer : List Bracket} {t r : List Char} {x : Place ⊕ Unit}

theorem skipWord_eq_ok {word : List Char} (h : skipWord word outer t = .ok (x, r)) :
    x = after outer ∧ t = word ++ r := by
  unfold skipWord at h
  split at h
  · cases h
  · next hw =>
    cases h
    exact ⟨rfl, afterWord_eq_ok.1 hw⟩

theorem start_eq_ok (h : start outer t = .ok (x, r)) :
    ∃ u, t = u ++ r ∧ ∀ w, Leaves Demands x w → Begins outer (u ++ w) := by
  have word {w t : List Char} {c : Char} (hw : c :: w ∈ words)
      (h : skipWord w outer t = .ok (x, r)) :
      ∃ u, c :: t = u ++ r ∧ ∀ w, Leaves Demands x w → Begins outer (u ++ w) := by
    obtain ⟨rfl, rfl⟩ := skipWord_eq_ok h
    exact ⟨c :: w, rfl, fun _ => .of_value (.word hw)⟩
  have opening (k : Bracket) {w : List Char} (h : Demands (.first k outer) w) :
      Begins outer (k.opening :: w) := by
    obtain ⟨u, w', hv, hw, rfl⟩ := h
    exact ⟨_, w', hv, hw, rfl⟩
  unfold start at h
  split at h
  · cases h
  · cases h
    exact ⟨['['], rfl, fun _ => opening .square⟩
  · cases h
    exact ⟨['{'], rfl, fun _ => opening .curly⟩
  · split at h
    · cases h
    · next hs =>
      cases h
      obtain ⟨s, hp, rfl⟩ := Text.skip_eq_ok hs
      exact ⟨'"' :: (s ++ ['"']), by simp, fun _ => .of_value (.string hp)⟩
  · exact word (by decide) h
  · exact word (by decide) h
  · exact word (by decide) h
  · split at h
    · split at h
      · cases h
      · next hn =>
        cases h
        obtain ⟨v, n, hv, ht⟩ := skipNumber_eq_ok hn
        exact ⟨v, ht, fun _ => .of_value (.number hv)⟩
    · cases h

theorem colon_eq_ok (h : colon t = .ok r) : ∃ b, Blanks b ∧ t = b ++ ':' :: r := by
  unfold colon at h
  split at h
  · cases h
  · next hb =>
    cases h
    exact eq_of_afterBlanks hb
  · cases h

/-- An item of a list leads to the list's end. -/
theorem item_eq_ok (h : start (.square :: outer) t = .ok (x, r)) : ∃ u, t = u ++ r ∧
    ∀ b w, Blanks b → Leaves Demands x w → Fills .square outer (b ++ (u ++ w)) := by
  obtain ⟨u, hu, hw⟩ := start_eq_ok h
  exact ⟨u, hu, fun b w hb hx => (hw w hx).fills .item hb⟩

/-- A name and its colon lead, over a value, to the object's end. -/
theorem name_eq_ok (h : name outer t = .ok (x, r)) : ∃ u, t = u ++ r ∧
    ∀ b w, Blanks b → Leaves Demands x w → Fills .curly outer (b ++ (u ++ w)) := by
  unfold name at h
  split at h
  · cases h
  · split at h
    · cases h
    · next hs =>
      split at h
      · cases h
      · next hc =>
        cases h
        obtain ⟨n, hn, rfl⟩ := Text.skip_eq_ok hs
        obtain ⟨b', hb', rfl⟩ := colon_eq_ok hc
        refine ⟨'"' :: (n ++ '"' :: (b' ++ [':'])), by simp, ?_⟩
        rintro b w hb ⟨c, w', hc, hv, rfl⟩
        have hf := hv.fills (.name hb hn hb') hc
        simpa only [List.append_assoc, List.cons_append, List.nil_append] using hf
  · cases h

theorem of_blanks {P : List Char → Prop} (h : ∃ u, afterBlanks t = u ++ r ∧
      ∀ b w, Blanks b → Leaves Demands x w → P (b ++ (u ++ w))) :
    ∃ u, t = u ++ r ∧ ∀ w, Leaves Demands x w → P (u ++ w) := by
  obtain ⟨b, hb, ht⟩ := exists_blanks t
  obtain ⟨u, hu, hw⟩ := h
  refine ⟨b ++ u, by rw [List.append_assoc, ← hu, ← ht], fun w hx => ?_⟩
  rw [List.append_assoc]
  exact hw b w hb hx

theorem of_closing {P : List Char → Prop} {c : Char} (hc : afterBlanks t = c :: r)
    (hP : ∀ b w, Blanks b → Closes outer w → P (b ++ c :: w)) :
    ∃ u, t = u ++ r ∧ ∀ w, Leaves Demands (after outer) w → P (u ++ w) := by
  obtain ⟨b, hb, rfl⟩ := eq_of_afterBlanks hc
  refine ⟨b ++ [c], by simp, fun w hw => ?_⟩
  rw [List.append_assoc]
  exact hP b w hb (leaves_after hw)

theorem first_eq_ok (k : Bracket) (h : stepRun (.first k outer) t = .ok (x, r)) :
    ∃ u, t = u ++ r ∧ ∀ w, Leaves Demands x w → Demands (.first k outer) (u ++ w) := by
  cases k with
  | square =>
    simp only [stepRun] at h
    split at h
    · next hc =>
      cases h
      exact of_closing hc fun _ _ => first_of_empty
    · obtain ⟨u, hu, hw⟩ := of_blanks (item_eq_ok h)
      exact ⟨u, hu, fun w hx => first_of_fills (hw w hx)⟩
  | curly =>
    simp only [stepRun] at h
    split at h
    · next hc =>
      cases h
      exact of_closing hc fun _ _ => first_of_empty
    · obtain ⟨u, hu, hw⟩ := of_blanks (name_eq_ok h)
      exact ⟨u, hu, fun w hx => first_of_fills (hw w hx)⟩

theorem next_eq_ok (k : Bracket) (h : stepRun (.next k outer) t = .ok (x, r)) :
    ∃ u, t = u ++ r ∧ ∀ w, Leaves Demands x w → Demands (.next k outer) (u ++ w) := by
  cases k with
  | square =>
    simp only [stepRun] at h
    split at h
    · cases h
    · next hc =>
      cases h
      exact of_closing hc fun _ _ => next_of_close
    · next hc =>
      cases h
      obtain ⟨b, hb, rfl⟩ := eq_of_afterBlanks hc
      refine ⟨b ++ [','], by simp, ?_⟩
      rintro w ⟨b', w', hb', hw', rfl⟩
      rw [List.append_assoc, List.singleton_append]
      exact next_of_fills hb (hw'.fills .item hb')
    · cases h
  | curly =>
    simp only [stepRun] at h
    split at h
    · cases h
    · next hc =>
      cases h
      exact of_closing hc fun _ _ => next_of_close
    · next hc =>
      obtain ⟨b, hb, rfl⟩ := eq_of_afterBlanks hc
      obtain ⟨u, rfl, hw⟩ := of_blanks (name_eq_ok h)
      refine ⟨b ++ ',' :: u, by simp, fun w hx => ?_⟩
      rw [List.append_assoc, List.cons_append]
      exact next_of_fills hb (hw w hx)
    · cases h

theorem stepRun_eq_ok {p : Place} (h : stepRun p t = .ok (x, r)) :
    ∃ u, t = u ++ r ∧ ∀ w, Leaves Demands x w → Demands p (u ++ w) := by
  cases p with
  | value outer =>
    obtain ⟨u, hu, hw⟩ := start_eq_ok h
    exact of_blanks ⟨u, hu, fun b w hb hx => ⟨b, u ++ w, hb, hw w hx, rfl⟩⟩
  | first k outer => exact first_eq_ok k h
  | next k outer => exact next_eq_ok k h

end
end Place

/-- What is passed over is one well-formed value with blanks in front of it. -/
theorem skipValue_eq_ok {t r : List Char} (h : skipValue.run t = .ok ((), r)) :
    ∃ b v, Blanks b ∧ WellFormed none v ∧ t = b ++ (v ++ r) := by
  obtain ⟨w, rfl, b, -, hb, ⟨v, -, hv, rfl, rfl⟩, rfl⟩ :=
    repeated_eq_ok Place.Demands (fun _ _ _ _ => Place.stepRun_eq_ok) h
  exact ⟨b, v, hb, hv, by simp only [List.append_assoc, List.append_nil]⟩

theorem wellFormed_iff {v : List Char} :
    WellFormed none v ↔ afterBlanks v = v ∧ (skipValue.run v).toOption = some ((), []) := by
  have front {b v : List Char} (hb : Blanks b) (hv : WellFormed none v) :
      afterBlanks (b ++ v) = v := by
    obtain ⟨c, s, rfl, hc, -⟩ := hv.opens
    exact afterBlanks_cons_of_not hb hc s
  constructor
  · intro hv
    have hs := skipValue_wellFormed blanks_nil hv delimited_nil
    rw [List.nil_append, List.append_nil] at hs
    exact ⟨front blanks_nil hv, by rw [hs]; rfl⟩
  · rintro ⟨hb, hs⟩
    cases hr : skipValue.run v with
    | error e =>
      rw [hr] at hs
      cases hs
    | ok y =>
      rw [hr] at hs
      cases hs
      obtain ⟨b, u, hblanks, hu, rfl⟩ := skipValue_eq_ok hr
      rw [List.append_nil, front hblanks hu] at hb
      rwa [List.append_nil, ← hb]

instance (v : List Char) : Decidable (WellFormed none v) :=
  decidable_of_iff _ wellFormed_iff.symm

/-- Whether a value and what may stand behind one are at the front of a text. -/
def HoldsValue (x : List Char) : Prop :=
  ∃ b v r, Blanks b ∧ WellFormed none v ∧ Delimited r ∧ x = b ++ (v ++ r)

/-- A value is there exactly where it can be passed over. -/
theorem holdsValue_iff {x : List Char} :
    HoldsValue x ↔ ∃ y ∈ (skipValue.run x).toOption, Delimited y.2 := by
  constructor
  · rintro ⟨b, v, r, hb, hv, hr, rfl⟩
    rw [skipValue_wellFormed hb hv hr]
    exact ⟨((), r), rfl, hr⟩
  · rintro ⟨⟨_, r⟩, hy, hr⟩
    cases hs : skipValue.run x with
    | error e =>
      rw [hs] at hy
      cases hy
    | ok y =>
      rw [hs] at hy
      cases hy
      obtain ⟨b, v, hb, hv, he⟩ := skipValue_eq_ok hs
      exact ⟨b, v, r, hb, hv, hr, he⟩

instance (x : List Char) : Decidable (HoldsValue x) :=
  have (t : List Char) : Decidable (Delimited t) :=
    inferInstanceAs (Decidable (∀ c ∈ t.head?, isBlank c ∨ c = ',' ∨ c = ']' ∨ c = '}'))
  decidable_of_iff _ holdsValue_iff.symm

end PipelineCache.Json

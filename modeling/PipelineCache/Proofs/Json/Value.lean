import PipelineCache.Json.Skip
import PipelineCache.Proofs.Json.Spelling
import PipelineCache.Proofs.Json.Numeral

/-! The well-formed values, of any depth, with numbers of any size and strings with any surrogates.
Each of them is passed over to its end, wherever it stands. -/
namespace PipelineCache.Json

def Blanks (b : List Char) : Prop := ∀ c ∈ b, isBlank c

theorem blanks_nil : Blanks [] := by simp [Blanks]

theorem afterBlanks_cons_of_not {c : Char} {b : List Char} (hb : Blanks b) (hc : isBlank c = false)
    (t : List Char) : afterBlanks (b ++ c :: t) = c :: t := by
  rw [afterBlanks_append b _ hb, afterBlanks, List.dropWhile_cons, hc]
  rfl

theorem afterBlanks_blanks {b : List Char} (hb : Blanks b) : afterBlanks b = [] := by
  have h := afterBlanks_append b [] hb
  rwa [List.append_nil] at h

theorem delimited_nil : Delimited [] := by
  intro c hc
  cases hc

theorem delimited_cons {c : Char} {t : List Char}
    (h : isBlank c ∨ c = ',' ∨ c = ']' ∨ c = '}') : Delimited (c :: t) := by
  intro d hd
  rw [List.head?_cons, Option.mem_some_iff] at hd
  subst hd
  exact h

theorem delimited_append {b t : List Char} (hb : Blanks b) (ht : Delimited t) :
    Delimited (b ++ t) := by
  cases b with
  | nil => exact ht
  | cons c b => exact delimited_cons (.inl (hb c List.mem_cons_self))

namespace Bracket

def opening : Bracket → Char
  | square => '['
  | curly => '{'

def closing : Bracket → Char
  | square => ']'
  | curly => '}'

/-- What stands in front of a value inside a bracket: a name in an object, nothing in a list. -/
inductive Lead : Bracket → List Char → Prop
  | item : Lead square []
  | name {b n b' : List Char} (hb : Blanks b) (hn : Text.Passed n) (hb' : Blanks b') :
      Lead curly (b ++ '"' :: (n ++ '"' :: (b' ++ [':'])))

theorem delimited_closing (k : Bracket) (t : List Char) : Delimited (k.closing :: t) := by
  cases k
  · exact delimited_cons (.inr (.inr (.inl rfl)))
  · exact delimited_cons (.inr (.inr (.inr rfl)))

end Bracket

def words : List (List Char) :=
  [['n', 'u', 'l', 'l'], ['t', 'r', 'u', 'e'], ['f', 'a', 'l', 's', 'e']]

/-- The well-formed values (at `none`), and what a bracket may hold (at `some`): one value or more
with commas between them. -/
inductive WellFormed : Option Bracket → List Char → Prop
  | word {w : List Char} (h : w ∈ words) : WellFormed none w
  | number {t : List Char} {n : Numeral} (h : Numeral.Spelled t n) : WellFormed none t
  | string {t : List Char} (h : Text.Passed t) : WellFormed none ('"' :: (t ++ ['"']))
  | empty {k : Bracket} {b : List Char} (hb : Blanks b) :
      WellFormed none (k.opening :: (b ++ [k.closing]))
  | full {k : Bracket} {t : List Char} (h : WellFormed (some k) t) :
      WellFormed none (k.opening :: (t ++ [k.closing]))
  | last {k : Bracket} {l b v b' : List Char} (hl : k.Lead l) (hb : Blanks b)
      (hv : WellFormed none v) (hb' : Blanks b') : WellFormed (some k) (l ++ (b ++ (v ++ b')))
  | more {k : Bracket} {l b v b' t : List Char} (hl : k.Lead l) (hb : Blanks b)
      (hv : WellFormed none v) (hb' : Blanks b') (ht : WellFormed (some k) t) :
      WellFormed (some k) (l ++ (b ++ (v ++ (b' ++ ',' :: t))))

/-- The front of a value is no blank and closes no list. -/
def Opens (t : List Char) : Prop := ∃ c s, t = c :: s ∧ isBlank c = false ∧ c ≠ ']'

theorem startsNumber_ne {c : Char} (h : startsNumber c) (d : Char) (hd : startsNumber d = false) :
    c ≠ d := by
  intro he
  subst he
  rw [hd] at h
  cases h

theorem startsNumber_opens {c : Char} (h : startsNumber c) : isBlank c = false ∧ c ≠ ']' := by
  have hne := startsNumber_ne h
  refine ⟨?_, hne _ rfl⟩
  simp [isBlank, hne ' ' rfl, hne '\t' rfl, hne '\n' rfl, hne '\r' rfl]

theorem WellFormed.opens {v : List Char} (h : WellFormed none v) : Opens v := by
  cases h with
  | word hw =>
    simp only [words, List.mem_cons, List.not_mem_nil, or_false] at hw
    obtain rfl | rfl | rfl := hw <;> exact ⟨_, _, rfl, rfl, by decide⟩
  | number hn =>
    obtain ⟨c, s, rfl, hc⟩ := hn.startsNumber
    exact ⟨c, s, rfl, startsNumber_opens hc⟩
  | string => exact ⟨_, _, rfl, rfl, by decide⟩
  | @empty k | @full k => cases k <;> exact ⟨_, _, rfl, rfl, by decide⟩

namespace Place

/-- What becomes of the text behind a value, given the brackets around it. -/
def behind : List Bracket → List Char → Reading Unit
  | [], r => .ok ((), r)
  | k :: outer, r => repeated step (.next k outer) r

theorem repeated_after {p : Place} {outer : List Bracket} {t r : List Char}
    (h : stepRun p t = .ok (after outer, r)) : repeated step p t = behind outer r := by
  cases outer with
  | nil => exact repeated_inr h
  | cons k outer => exact repeated_inl h

theorem repeated_congr {p p' : Place} {t : List Char} (h : stepRun p t = stepRun p' t) :
    repeated step p t = repeated step p' t := by
  have hs : (step p).run t = (step p').run t := h
  rw [repeated_eq, repeated_eq, hs]

theorem colon_append {b : List Char} (hb : Blanks b) (t : List Char) :
    colon (b ++ ':' :: t) = .ok t := by
  rw [colon, afterBlanks_cons_of_not hb rfl]
  rfl

theorem name_append {n b : List Char} (hn : Text.Passed n) (hb : Blanks b) (outer : List Bracket)
    (t : List Char) : name outer ('"' :: (n ++ '"' :: (b ++ ':' :: t))) =
      .ok (.inl (.value (.curly :: outer)), t) := by
  simp only [name, Text.skip_passed hn, colon_append hb]

theorem repeated_value_start {outer : List Bracket} {b v r : List Char} (hb : Blanks b)
    (hv : Opens v) (h : start outer (v ++ r) = .ok (after outer, r)) :
    repeated step (.value outer) (b ++ (v ++ r)) = behind outer r := by
  apply repeated_after
  obtain ⟨c, s, rfl, hc, _⟩ := hv
  rw [List.cons_append] at h ⊢
  rw [stepRun, afterBlanks_cons_of_not hb hc, h]

theorem start_word {w : List Char} (h : w ∈ words) (outer : List Bracket) (r : List Char) :
    start outer (w ++ r) = .ok (after outer, r) := by
  have hs : ∀ w, skipWord w outer (w ++ r) = .ok (after outer, r) := by
    intro w
    rw [skipWord, afterWord_eq_ok.2 rfl]
  simp only [words, List.mem_cons, List.not_mem_nil, or_false] at h
  obtain rfl | rfl | rfl := h
  · exact hs ['u', 'l', 'l']
  · exact hs ['r', 'u', 'e']
  · exact hs ['a', 'l', 's', 'e']

theorem start_number {t : List Char} {n : Numeral} (h : Numeral.Spelled t n) (outer : List Bracket)
    {r : List Char} (hr : Delimited r) : start outer (t ++ r) = .ok (after outer, r) := by
  have hk := Numeral.skipNumber_spelled h (Numeral.ended_of_delimited hr)
  obtain ⟨c, s, rfl, hc⟩ := h.startsNumber
  have hne := startsNumber_ne hc
  rw [List.cons_append] at hk ⊢
  simp [start, hne '[' rfl, hne '{' rfl, hne '"' rfl, hne 'n' rfl, hne 't' rfl, hne 'f' rfl, hc, hk]

theorem start_string {t : List Char} (h : Text.Passed t) (outer : List Bracket) (r : List Char) :
    start outer ('"' :: (t ++ '"' :: r)) = .ok (after outer, r) := by
  simp only [start, Text.skip_passed h]

theorem repeated_opening (k : Bracket) {outer : List Bracket} {b : List Char} (hb : Blanks b)
    (t : List Char) :
    repeated step (.value outer) (b ++ k.opening :: t) = repeated step (.first k outer) t := by
  apply repeated_inl
  change stepRun (.value outer) _ = _
  cases k with
  | square => rw [stepRun, Bracket.opening, afterBlanks_cons_of_not hb rfl, start]
  | curly => rw [stepRun, Bracket.opening, afterBlanks_cons_of_not hb rfl, start]

theorem repeated_first_closing (k : Bracket) (outer : List Bracket) {b : List Char} (hb : Blanks b)
    (r : List Char) : repeated step (.first k outer) (b ++ k.closing :: r) = behind outer r := by
  apply repeated_after
  cases k with
  | square =>
    rw [stepRun, Bracket.closing, afterBlanks_cons_of_not hb rfl]
    rfl
  | curly =>
    rw [stepRun, Bracket.closing, afterBlanks_cons_of_not hb rfl]
    rfl

theorem repeated_next_closing (k : Bracket) (outer : List Bracket) {b : List Char} (hb : Blanks b)
    (r : List Char) : repeated step (.next k outer) (b ++ k.closing :: r) = behind outer r := by
  apply repeated_after
  cases k with
  | square =>
    rw [stepRun, Bracket.closing, afterBlanks_cons_of_not hb rfl]
    rfl
  | curly =>
    rw [stepRun, Bracket.closing, afterBlanks_cons_of_not hb rfl]
    rfl

theorem repeated_first_lead {k : Bracket} {l b v : List Char} (hl : k.Lead l) (hb : Blanks b)
    (hv : Opens v) (outer : List Bracket) (r : List Char) :
    repeated step (.first k outer) (l ++ (b ++ (v ++ r))) =
      repeated step (.value (k :: outer)) (b ++ (v ++ r)) := by
  cases hl with
  | item =>
    obtain ⟨c, s, rfl, hc, hn⟩ := hv
    apply repeated_congr
    rw [List.nil_append, List.cons_append, stepRun, stepRun, afterBlanks_cons_of_not hb hc]
    simp [hn]
  | @name b₁ n b₂ hb₁ hn hb₂ =>
    simp only [List.append_assoc, List.cons_append, List.nil_append]
    apply repeated_inl
    change stepRun (.first .curly outer) _ = _
    rw [stepRun, afterBlanks_cons_of_not hb₁ rfl]
    exact name_append hn hb₂ outer _

theorem repeated_next_lead {k : Bracket} {l : List Char} (hl : k.Lead l) (outer : List Bracket)
    {b : List Char} (hb : Blanks b) (t : List Char) :
    repeated step (.next k outer) (b ++ ',' :: (l ++ t)) =
      repeated step (.value (k :: outer)) t := by
  cases hl with
  | item =>
    apply repeated_inl
    change stepRun (.next .square outer) _ = _
    rw [stepRun, afterBlanks_cons_of_not hb rfl]
    rfl
  | @name b₁ n b₂ hb₁ hn hb₂ =>
    simp only [List.append_assoc, List.cons_append, List.nil_append]
    apply repeated_inl
    change stepRun (.next .curly outer) _ = _
    rw [stepRun, afterBlanks_cons_of_not hb rfl]
    simp only [afterBlanks_cons_of_not hb₁ (rfl : isBlank '"' = false)]
    exact name_append hn hb₂ outer t

/-- A value is passed over wherever one may stand, and what a bracket holds both behind the bracket
and behind a comma. -/
def Skips : Option Bracket → List Char → Prop
  | none, v => ∀ outer b r, Blanks b → Delimited r →
      repeated step (.value outer) (b ++ (v ++ r)) = behind outer r
  | some k, t => ∀ outer r,
      repeated step (.first k outer) (t ++ k.closing :: r) = behind outer r ∧
      ∀ b, Blanks b →
        repeated step (.next k outer) (b ++ ',' :: (t ++ k.closing :: r)) = behind outer r

theorem skips_wellFormed {p : Option Bracket} {t : List Char} (h : WellFormed p t) : Skips p t := by
  induction h with
  | word hw =>
    intro outer b r hb _
    exact repeated_value_start hb (WellFormed.word hw).opens (start_word hw outer r)
  | number hn =>
    intro outer b r hb hr
    exact repeated_value_start hb (WellFormed.number hn).opens (start_number hn outer hr)
  | @string t ht =>
    intro outer b r hb _
    refine repeated_value_start hb (WellFormed.string ht).opens ?_
    rw [List.cons_append, List.append_assoc]
    exact start_string ht outer r
  | @empty k b' hb' =>
    intro outer b r hb _
    rw [List.cons_append, List.append_assoc, repeated_opening k hb]
    exact repeated_first_closing k outer hb' r
  | @full k t _ ih =>
    intro outer b r hb _
    rw [List.cons_append, List.append_assoc, repeated_opening k hb]
    exact (ih outer r).1
  | @last k l b v b' hl hb hv hb' ih =>
    intro outer r
    have hd := delimited_append hb' (k.delimited_closing r)
    have hs := ih (k :: outer) b (b' ++ k.closing :: r) hb hd
    simp only [List.append_assoc]
    refine ⟨?_, fun b₁ hb₁ => ?_⟩
    · rw [repeated_first_lead hl hb hv.opens, hs]
      exact repeated_next_closing k outer hb' r
    · rw [repeated_next_lead hl outer hb₁, hs]
      exact repeated_next_closing k outer hb' r
  | @more k l b v b' t hl hb hv hb' _ ih iht =>
    intro outer r
    have hd : Delimited (b' ++ ',' :: (t ++ k.closing :: r)) :=
      delimited_append hb' (delimited_cons (.inr (.inl rfl)))
    have hs := ih (k :: outer) b _ hb hd
    simp only [List.append_assoc, List.cons_append]
    refine ⟨?_, fun b₁ hb₁ => ?_⟩
    · rw [repeated_first_lead hl hb hv.opens, hs]
      exact (iht outer r).2 b' hb'
    · rw [repeated_next_lead hl outer hb₁, hs]
      exact (iht outer r).2 b' hb'

end Place

/-- A value of any kind is passed over to its end. -/
theorem skipValue_wellFormed {b v r : List Char} (hb : Blanks b) (hv : WellFormed none v)
    (hr : Delimited r) : skipValue.run (b ++ (v ++ r)) = .ok ((), r) :=
  Place.skips_wellFormed hv [] b r hb hr

end PipelineCache.Json

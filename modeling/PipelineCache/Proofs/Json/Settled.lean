import PipelineCache.Proofs.Json.Lasting

/-! Well-formed values in front of any text. What a format answers on such a value is settled by the
value alone: a reader takes the whole of it, or finds the same wrong with it, whatever is set off
behind it. -/
namespace PipelineCache.Json
variable {α β σ : Type}

theorem Bracket.opening_inj {k l : Bracket} (h : k.opening = l.opening) : k = l := by
  cases k <;> cases l <;> simp_all [opening]

namespace WellFormed

theorem of_quote {u : List Char} (h : WellFormed none ('"' :: u)) :
    ∃ t, Text.Passed t ∧ u = t ++ ['"'] := by
  generalize hv : '"' :: u = v at h
  cases h with
  | word hw => simp [words, ← hv] at hw
  | number hn =>
    obtain ⟨c, s, rfl, hc⟩ := hn.startsNumber
    exact absurd (List.cons.inj hv).1.symm (startsNumber_ne hc _ rfl)
  | string ht => exact ⟨_, ht, (List.cons.inj hv).2⟩
  | @empty k | @full k => cases k <;> cases hv

theorem of_startsNumber {c : Char} {u : List Char} (h : WellFormed none (c :: u))
    (hc : startsNumber c) : ∃ n, Numeral.Spelled (c :: u) n := by
  have hne := startsNumber_ne hc
  generalize hv : c :: u = v at h
  cases h with
  | word hw =>
    subst hv
    simp [words, hne 'n' rfl, hne 't' rfl, hne 'f' rfl] at hw
  | number hn => exact ⟨_, hn⟩
  | string => exact absurd (List.cons.inj hv).1 (hne _ rfl)
  | @empty k | @full k => cases k <;> exact absurd (List.cons.inj hv).1 (hne _ rfl)

theorem of_letter {c : Char} {u : List Char} (h : WellFormed none (c :: u))
    (hc : c = 'n' ∨ c = 't' ∨ c = 'f') : c :: u ∈ words := by
  generalize hv : c :: u = v at h
  cases h with
  | word hw => exact hw
  | number hn =>
    obtain ⟨d, s, rfl, hd⟩ := hn.startsNumber
    obtain ⟨rfl, -⟩ := List.cons.inj hv
    obtain rfl | rfl | rfl := hc <;> cases hd
  | string =>
    obtain ⟨rfl, -⟩ := List.cons.inj hv
    obtain hc | hc | hc := hc <;> cases hc
  | @empty k | @full k =>
    obtain ⟨rfl, -⟩ := List.cons.inj hv
    obtain hc | hc | hc := hc <;> cases k <;> cases hc

theorem of_opening {k : Bracket} {u : List Char} (h : WellFormed none (k.opening :: u)) :
    (∃ b, Blanks b ∧ u = b ++ [k.closing]) ∨ ∃ t, WellFormed (some k) t ∧ u = t ++ [k.closing] := by
  generalize hv : k.opening :: u = v at h
  cases h with
  | word hw =>
    subst hv
    cases k <;> simp [words, Bracket.opening] at hw
  | number hn =>
    obtain ⟨c, s, rfl, hc⟩ := hn.startsNumber
    obtain ⟨rfl, -⟩ := List.cons.inj hv
    cases k <;> cases hc
  | string => cases k <;> cases hv
  | @empty l b hb =>
    obtain ⟨hk, rfl⟩ := List.cons.inj hv
    rw [Bracket.opening_inj hk]
    exact .inl ⟨b, hb, rfl⟩
  | @full l t ht =>
    obtain ⟨hk, rfl⟩ := List.cons.inj hv
    obtain rfl := Bracket.opening_inj hk
    exact .inr ⟨t, ht, rfl⟩

end WellFormed

namespace Text

theorem repeated_gather_eq (got t : List Char) : repeated gather got t =
    match character t with
    | .error e => .error e
    | .ok (none, r) => .ok (String.ofList got.reverse, r)
    | .ok (some c, r) => repeated gather (c :: got) r := by
  rw [repeated_eq]
  simp only [gather, Reader.map, Reader.check]
  rcases character t with _ | ⟨_ | c, r⟩ <;> rfl

/-- What is answered from a leading surrogate on. -/
def fromLeading (got : List Char) (lead : Nat) (t : List Char) : Reading String :=
  match trailing lead t with
  | .error e => .error e
  | .ok (c, r) => repeated gather (c :: got) r

theorem repeated_gather_number {u : List Char} {n : Nat} (h : Digits u n) (got t : List Char) :
    repeated gather got ('\\' :: 'u' :: (u ++ t)) =
      if isTrailing n then .error .malformed
      else if isLeading n then fromLeading got n t
      else repeated gather (Char.ofNat n :: got) t := by
  rw [repeated_gather_eq]
  by_cases ht : isTrailing n
  · simp only [character, numbered, codeUnit_digits h, ht, if_true]
  · by_cases hl : isLeading n
    · simp only [character, numbered, codeUnit_digits h, ht, hl, if_true, if_false, fromLeading,
        Bool.false_eq_true]
      cases trailing n t <;> rfl
    · simp only [character, numbered, codeUnit_digits h, ht, hl, if_false, Bool.false_eq_true]

theorem fromLeading_number {v : List Char} {n : Nat} (h : Digits v n) (got : List Char)
    (lead : Nat) (t : List Char) : fromLeading got lead ('\\' :: 'u' :: (v ++ t)) =
      if isTrailing n then repeated gather (paired lead n :: got) t else .error .malformed := by
  by_cases ht : isTrailing n
  · simp only [fromLeading, trailing, codeUnit_digits h, ht, if_true]
  · simp only [fromLeading, trailing, codeUnit_digits h, ht, if_false, Bool.false_eq_true]

theorem fromLeading_other {lead : Nat} {c : Char} {t : List Char} (h : c ≠ '\\') (got : List Char) :
    fromLeading got lead (c :: t) = .error .malformed := by
  simp [fromLeading, trailing, h]

/-- Characters that may hold surrogates that stand alone are answered in one way in front of any
text, and so they are behind a leading surrogate, to which the first of them may belong. -/
theorem repeated_gather_passed {t : List Char} (h : Passed t) :
    (∀ got, ∃ x : Except Fault String, ∀ r,
      repeated gather got (t ++ '"' :: r) = x.map fun s => (s, r)) ∧
    ∀ got lead, ∃ x : Except Fault String, ∀ r,
      fromLeading got lead (t ++ '"' :: r) = x.map fun s => (s, r) := by
  induction h with
  | nil =>
    exact ⟨fun got => ⟨.ok (String.ofList got.reverse), fun r => repeated_inr (gather_quote got r)⟩,
      fun got lead => ⟨.error .malformed, fun r => rfl⟩⟩
  | @cons u s hu hs ih =>
    obtain ⟨ihs, ihlead⟩ := ih
    have one {c : Char} (hc : SpelledChar u c) (got : List Char) : ∃ x : Except Fault String, ∀ r,
        repeated gather got (u ++ s ++ '"' :: r) = x.map fun s => (s, r) := by
      obtain ⟨x, hx⟩ := ihs (c :: got)
      refine ⟨x, fun r => ?_⟩
      rw [List.append_assoc, repeated_inl (gather_spelled hc got _), hx]
    cases hu with
    | @raw c hr hq hb =>
      exact ⟨one (.raw hr hq hb), fun got lead => ⟨.error .malformed, fun r =>
        fromLeading_other hb got⟩⟩
    | @short e c he =>
      refine ⟨one (.short he), fun got lead => ⟨.error .malformed, fun r => ?_⟩⟩
      have hu : e ≠ 'u' := by
        rintro rfl
        cases he
      simp [fromLeading, trailing, hu, Except.map]
    | @number u n hd =>
      simp only [List.append_assoc, List.cons_append, repeated_gather_number hd,
        fromLeading_number hd]
      constructor
      · intro got
        split
        · exact ⟨.error .malformed, fun r => rfl⟩
        · split
          · exact ihlead got n
          · exact ihs _
      · intro got lead
        split
        · exact ihs _
        · exact ⟨.error .malformed, fun r => rfl⟩

theorem body_passed {t : List Char} (h : Passed t) : ∃ x : Except Fault String, ∀ r,
    body.run (t ++ '"' :: r) = x.map fun s => (s, r) :=
  (repeated_gather_passed h).1 []

end Text

theorem mismatchWord_append (expected : String) (w : List Char) (x : Found) (r : List Char) :
    mismatchWord expected w (w ++ r) x = found expected x := by
  rw [mismatchWord, afterWord_eq_ok.2 rfl]

theorem mismatch_number {c : Char} (hc : startsNumber c) (expected : String) (t : List Char) :
    mismatch expected (c :: t) =
      match numberFound (c :: t) with
      | .error e => e
      | .ok (x, _) => found expected x := by
  have hne := startsNumber_ne hc
  cases hn : numberFound (c :: t) <;>
    simp [mismatch, hc, hn, hne '[' rfl, hne '\x7b' rfl, hne '"' rfl, hne 'n' rfl, hne 't' rfl,
      hne 'f' rfl]

theorem numberFound_spelled {v : List Char} {n : Numeral} (h : Numeral.Spelled v n) {r : List Char}
    (hr : Delimited r) : numberFound (v ++ r) = n.value.map fun x => (x, r) := by
  simp only [numberFound, Numeral.read_spelled h (Numeral.ended_of_delimited hr)]
  cases n.value <;> rfl

/-- What is wrong with a value of another type does not depend on what is set off behind it. -/
theorem mismatch_settled (expected : String) {v : List Char} (h : WellFormed none v) :
    ∃ e, ∀ r, Delimited r → mismatch expected (v ++ r) = e := by
  cases h with
  | word hw =>
    simp only [words, List.mem_cons, List.not_mem_nil, or_false] at hw
    obtain rfl | rfl | rfl := hw
    · exact ⟨_, fun r _ => mismatchWord_append expected ['u', 'l', 'l'] .null r⟩
    · exact ⟨_, fun r _ => mismatchWord_append expected ['r', 'u', 'e'] (.boolean true) r⟩
    · exact ⟨_, fun r _ => mismatchWord_append expected ['a', 'l', 's', 'e'] (.boolean false) r⟩
  | @number v n hn =>
    obtain ⟨c, s, rfl, hc⟩ := hn.startsNumber
    have hr {r : List Char} (hr : Delimited r) := numberFound_spelled hn hr
    cases hv : n.value with
    | error e =>
      refine ⟨e, fun r hd => ?_⟩
      rw [List.cons_append, mismatch_number hc, ← List.cons_append, hr hd, hv]
      rfl
    | ok x =>
      refine ⟨found expected x, fun r hd => ?_⟩
      rw [List.cons_append, mismatch_number hc, ← List.cons_append, hr hd, hv]
      rfl
  | @string t ht =>
    obtain ⟨x, hx⟩ := Text.body_passed ht
    have hr (r : List Char) : '"' :: (t ++ ['"']) ++ r = '"' :: (t ++ '"' :: r) := by simp
    cases x with
    | error e => exact ⟨e, fun r _ => by simp only [hr, mismatch, hx, Except.map]⟩
    | ok s =>
      exact ⟨found expected (.text s), fun r _ => by simp only [hr, mismatch, hx, Except.map]⟩
  | @empty k | @full k =>
    cases k
    · exact ⟨found expected .sequence, fun _ _ => rfl⟩
    · exact ⟨found expected .map, fun _ _ => rfl⟩

/-- The answer to a well-formed value is the value's own. -/
def Settles (run : List Char → Reading α) : Prop :=
  ∀ ⦃v : List Char⦄, WellFormed none v → ∃ x : Except Fault α, ∀ r, Delimited r →
    run (v ++ r) = x.map fun a => (a, r)

theorem settles_of_head {run : List Char → Reading α} (expected : String) (own : Char → Prop)
    (hother : ∀ t d u, afterBlanks t = d :: u → ¬ own d →
      run t = .error (mismatch expected (d :: u)))
    (hown : ∀ d u, WellFormed none (d :: u) → own d → ∃ x : Except Fault α, ∀ r, Delimited r →
      run (d :: u ++ r) = x.map fun a => (a, r)) : Settles run := by
  intro v hv
  obtain ⟨d, u, rfl, hd, -⟩ := hv.opens
  by_cases ho : own d
  · exact hown d u hv ho
  · obtain ⟨e, he⟩ := mismatch_settled expected hv
    refine ⟨.error e, fun r hr => ?_⟩
    have hb := afterBlanks_cons_of_not blanks_nil hd (u ++ r)
    rw [List.nil_append] at hb
    rw [List.cons_append, hother _ d (u ++ r) hb ho, ← List.cons_append, he r hr]
    rfl

theorem settles_textRun (expected : String) : Settles (textRun expected) := by
  refine settles_of_head expected (fun d => d = '"') (fun _ _ _ => textRun_other) ?_
  rintro d u hv rfl
  obtain ⟨t, ht, rfl⟩ := hv.of_quote
  obtain ⟨x, hx⟩ := Text.body_passed ht
  refine ⟨x, fun r _ => ?_⟩
  rw [← hx, List.cons_append, List.append_assoc]
  rfl

theorem settles_flagRun : Settles flagRun := by
  refine settles_of_head "a boolean" (fun d => d = 't' ∨ d = 'f') (fun _ _ _ => flagRun_other) ?_
  intro d u hv hd
  have hword {w : List Char} (b : Bool) (r : List Char) :
      (afterWord w (w ++ r)).map (fun r => (b, r)) = .ok (b, r) := by
    rw [afterWord_eq_ok.2 rfl]
    rfl
  have hw := hv.of_letter (.inr hd)
  obtain rfl | rfl := hd
  · simp only [words, List.mem_cons, List.cons.injEq, Char.reduceEq, false_and, true_and, false_or,
      List.not_mem_nil, or_false] at hw
    subst hw
    exact ⟨.ok true, fun r _ => hword (w := ['r', 'u', 'e']) true r⟩
  · simp only [words, List.mem_cons, List.cons.injEq, Char.reduceEq, false_and, true_and, false_or,
      List.not_mem_nil, or_false] at hw
    subst hw
    exact ⟨.ok false, fun r _ => hword (w := ['a', 'l', 's', 'e']) false r⟩

theorem settles_int32Run : Settles int32Run := by
  refine settles_of_head "i32" (fun d => startsNumber d) (fun _ _ _ => int32Run_other) ?_
  intro d u hv hd
  obtain ⟨n, hn⟩ := hv.of_startsNumber hd
  refine ⟨n.value.bind int32Of, fun r hr => ?_⟩
  have hb := afterBlanks_cons_of_not blanks_nil (startsNumber_opens hd).1 (u ++ r)
  have hf := numberFound_spelled hn hr
  rw [List.nil_append] at hb
  rw [List.cons_append] at hf ⊢
  simp only [int32Run, hb, hd, if_true, hf]
  cases n.value <;> rfl

theorem settles_check {p : Reader α} (hp : Settles p.run) (f : α → Except Fault β) :
    Settles (p.check f).run := by
  intro v hv
  obtain ⟨x, hx⟩ := hp hv
  refine ⟨x.bind f, fun r hr => ?_⟩
  simp only [Reader.check, hx r hr]
  cases x with
  | error e => rfl
  | ok a =>
    simp only [Except.map, Except.bind]
    cases f a <;> rfl

theorem settles_optionalRun {p : Reader α} (hp : Settles p.run) : Settles (optionalRun p) := by
  intro v hv
  obtain ⟨d, u, rfl, hblank, -⟩ := hv.opens
  have hb (r : List Char) : afterBlanks (d :: u ++ r) = d :: (u ++ r) := by
    have hb := afterBlanks_cons_of_not blanks_nil hblank (u ++ r)
    rwa [List.nil_append] at hb
  by_cases hd : d = 'n'
  · subst hd
    have hw := hv.of_letter (.inl rfl)
    simp only [words, List.mem_cons, List.cons.injEq, Char.reduceEq, false_and, true_and,
      List.not_mem_nil, or_false] at hw
    subst hw
    refine ⟨.ok none, fun r _ => ?_⟩
    change Except.map _ (afterWord ['u', 'l', 'l'] (['u', 'l', 'l'] ++ r)) = _
    rw [afterWord_eq_ok.2 rfl]
    rfl
  · obtain ⟨x, hx⟩ := settles_check hp (fun a => .ok (some a)) hv
    refine ⟨x, fun r hr => ?_⟩
    rw [optionalRun_other (hb r) hd]
    exact hx r hr

/-- A step that takes the state on, or is wrong. -/
theorem repeated_map {step : σ → Reader (σ ⊕ α)} {s : σ} {t r : List Char} {x : Except Fault β}
    {next : β → σ} (h : (step s).run t = x.map fun y => (.inl (next y), r)) :
    repeated step s t = x.bind fun y => repeated step (next y) r := by
  cases x with
  | error e => exact repeated_error h
  | ok y => exact repeated_inl h

theorem itemRun_settled {f : Format α} (hf : Settles f.reader.run) {b v : List Char} (hb : Blanks b)
    (hv : WellFormed none v) : ∃ x : Except Fault α, ∀ got first l r, Comma first l → Delimited r →
      itemRun f.reader (got, first) (l ++ (b ++ (v ++ r))) =
        x.map fun a => (.inl (a :: got, false), r) := by
  obtain ⟨x, hx⟩ := hf hv
  refine ⟨x, fun got first l r hl hr => ?_⟩
  simp only [itemRun, nextItem_opens hl hb hv.opens, hx r hr]
  cases x <;> rfl

/-- The items of a list are answered one by one, up to the first that is wrong. -/
theorem repeated_item_settled {f : Format α} (hf : Settles f.reader.run) {t : List Char}
    {p : Option Bracket} (ht : WellFormed p t) (hp : p = some .square) (got : List α)
    (first : Bool) : ∃ x : Except Fault (List α), ∀ l r, Comma first l →
      repeated (fun got => ⟨itemRun f.reader got, length_itemRun⟩) (got, first)
        (l ++ (t ++ ']' :: r)) = x.map fun as => (as, r) := by
  induction ht generalizing got first with
  | word | number | string | empty | full => cases hp
  | @last k l b v b' hl hb hv hb' _ =>
    cases hp
    cases hl
    obtain ⟨x, hx⟩ := itemRun_settled hf hb hv
    have hd (r : List Char) : Delimited (b' ++ ']' :: r) :=
      delimited_append hb' (Bracket.delimited_closing .square r)
    simp only [List.nil_append, List.append_assoc]
    cases x with
    | error e =>
      refine ⟨.error e, fun l r hl => ?_⟩
      exact repeated_error (hx got first l _ hl (hd r))
    | ok a =>
      refine ⟨.ok (a :: got).reverse, fun l r hl => ?_⟩
      rw [repeated_inl (hx got first l _ hl (hd r))]
      exact repeated_item_closing hb' _ r
  | @more k l b v b' t hl hb hv hb' _ _ ih =>
    cases hp
    cases hl
    obtain ⟨x, hx⟩ := itemRun_settled hf hb hv
    have hd (r : List Char) : Delimited (b' ++ ',' :: (t ++ ']' :: r)) :=
      delimited_append hb' (delimited_cons (.inr (.inl rfl)))
    simp only [List.nil_append, List.append_assoc, List.cons_append]
    cases x with
    | error e =>
      refine ⟨.error e, fun l r hl => ?_⟩
      exact repeated_error (hx got first l _ hl (hd r))
    | ok a =>
      obtain ⟨y, hy⟩ := ih rfl (a :: got) false
      refine ⟨y, fun l r hl => ?_⟩
      have hmore := hy _ r (.next hb')
      rw [List.append_assoc, List.cons_append, List.nil_append] at hmore
      rw [repeated_inl (hx got first l _ hl (hd r)), hmore]

theorem settles_listRun {f : Format α} (hf : Settles f.reader.run) :
    Settles (listRun f.reader) := by
  refine settles_of_head "a sequence" (fun d => d = '[') (fun _ _ _ => listRun_other) ?_
  rintro d u hv rfl
  obtain ⟨b, hb, rfl⟩ | ⟨t, ht, rfl⟩ := hv.of_opening (k := .square)
  · refine ⟨.ok [], fun r _ => ?_⟩
    rw [List.cons_append, List.append_assoc]
    exact repeated_item_closing hb [] r
  · obtain ⟨x, hx⟩ := repeated_item_settled hf ht rfl [] true
    refine ⟨x, fun r _ => ?_⟩
    rw [List.cons_append, List.append_assoc]
    exact hx [] r .first

end PipelineCache.Json

import PipelineCache.Proofs.Json.Lasting

/-! Written texts whose end is cut off. Wherever a string, a list or an object is cut, what is left
is found to be cut short; a number may lose digits and be another number to the end of the text. -/
namespace PipelineCache.Json
variable {α β σ : Type}

/-- A text that is cut is cut within its first part or behind it. -/
theorem cut_append {s t p q : List Char} (h : s ++ t = p ++ q) :
    (∃ q', s = p ++ q' ∧ q' ≠ []) ∨ ∃ p', p = s ++ p' ∧ t = p' ++ q := by
  obtain ⟨p', hp, ht⟩ | ⟨q', hs, hq⟩ := List.append_eq_append_iff.1 h
  · exact .inr ⟨p', hp, ht⟩
  · by_cases hn : q' = []
    · subst hn
      exact .inr ⟨[], by simpa using hs.symm, hq.symm⟩
    · exact .inl ⟨q', hs, hn⟩

theorem cut_singleton {c : Char} {p q : List Char} (h : [c] = p ++ q) (hq : q ≠ []) : p = [] := by
  cases p with
  | nil => rfl
  | cons d p => exact absurd (List.append_eq_nil_iff.1 (List.cons.inj h).2.symm).2 hq

theorem afterWord_cut {w p q : List Char} (h : w = p ++ q) (hq : q ≠ []) :
    afterWord w p = .error .truncated := by
  subst h
  induction p with
  | nil =>
    obtain ⟨c, w, rfl⟩ := List.exists_cons_of_ne_nil hq
    rfl
  | cons c p ih => simpa only [List.cons_append, afterWord, if_true] using ih

namespace Text

theorem utf8Size_of_hexValue {c : Char} {n : Nat} (h : hexValue? c = some n) : c.utf8Size = 1 := by
  have hle : c.toNat ≤ 127 := by
    unfold hexValue? at h
    split at h
    · next hd =>
      have hd := (Char.isDigit_iff_toNat.1 hd).2
      simp only [Char.reduceToNat] at hd
      omega
    · split at h
      · next hc =>
        have hc : c.toNat ≤ 'f'.toNat := hc.2
        simp only [Char.reduceToNat] at hc
        omega
      · split at h
        · next hc =>
          have hc : c.toNat ≤ 'F'.toNat := hc.2
          simp only [Char.reduceToNat] at hc
          omega
        · cases h
  exact Char.utf8Size_eq_one_iff.2 hle

/-- Hexadecimal digits have one byte each, so fewer than four of them are a text cut short. -/
theorem codeUnit_cut {u p q : List Char} {n : Nat} (h : Digits u n) (hu : u = p ++ q)
    (hq : q ≠ []) : codeUnit p = .error .truncated := by
  obtain ⟨ha, hb, hc, hd⟩ := h
  have ha := utf8Size_of_hexValue ha
  have hb := utf8Size_of_hexValue hb
  have hc := utf8Size_of_hexValue hc
  rcases p with _ | ⟨a, _ | ⟨b, _ | ⟨c, _ | ⟨d, p⟩⟩⟩⟩
  · rfl
  · simp_all [codeUnit, PipelineCache.Text.byteLength]
  · simp_all [codeUnit, PipelineCache.Text.byteLength]
  · simp_all [codeUnit, PipelineCache.Text.byteLength]
  · simp_all

theorem cut_escape {e : Char} {t p q : List Char} (h : '\\' :: e :: t = p ++ q) :
    p = [] ∨ p = ['\\'] ∨ ∃ p', p = '\\' :: e :: p' ∧ t = p' ++ q := by
  rcases p with _ | ⟨c, _ | ⟨d, p⟩⟩
  · exact .inl rfl
  · obtain ⟨rfl, -⟩ := List.cons_eq_cons.1 (h.trans List.cons_append)
    exact .inr (.inl rfl)
  · simp only [List.cons_append, List.cons.injEq] at h
    obtain ⟨rfl, rfl, ht⟩ := h
    exact .inr (.inr ⟨p, rfl, ht⟩)

theorem trailing_cut {v p q : List Char} {lead trail : Nat} (hv : Digits v trail)
    (h : '\\' :: 'u' :: v = p ++ q) (hq : q ≠ []) : trailing lead p = .error .truncated := by
  obtain rfl | rfl | ⟨p, rfl, hp⟩ := cut_escape h
  · rfl
  · rfl
  · simp only [trailing, codeUnit_cut hv hp hq]

theorem character_cut {u p q : List Char} {c : Char} (h : SpelledChar u c) (hu : u = p ++ q)
    (hq : q ≠ []) : character p = .error .truncated := by
  cases h with
  | raw =>
    rw [cut_singleton hu hq]
    rfl
  | short =>
    obtain rfl | rfl | ⟨p, rfl, hp⟩ := cut_escape hu
    · rfl
    · rfl
    · exact absurd (List.append_eq_nil_iff.1 hp.symm).2 hq
  | number hd =>
    obtain rfl | rfl | ⟨p, rfl, hp⟩ := cut_escape hu
    · rfl
    · rfl
    · simp only [character, numbered, codeUnit_cut hd hp hq]
  | @pair u v lead trail _ hd hv hl ht =>
    have hn : isTrailing lead = false := by
      simp only [isLeading, Bool.and_eq_true, decide_eq_true_eq] at hl
      simp [isTrailing]; omega
    obtain rfl | rfl | ⟨p, rfl, hp⟩ := cut_escape hu
    · rfl
    · rfl
    · obtain ⟨q', hu', hq'⟩ | ⟨p, rfl, hp'⟩ := cut_append hp
      · simp only [character, numbered, codeUnit_cut hd hu' hq']
      · simp only [character, numbered, codeUnit_digits hd, hn, hl, if_true, Bool.false_eq_true,
          if_false, trailing_cut hv hp' hq]

theorem repeated_gather_cut {t s p q : List Char} (h : Spelled t s) (ht : t ++ ['"'] = p ++ q)
    (hq : q ≠ []) (got : List Char) : repeated gather got p = .error .truncated := by
  have hchar {got u : List Char} (hu : character u = .error .truncated) :
      repeated gather got u = .error .truncated := by
    rw [repeated_eq]
    simp only [gather, Reader.map, Reader.check, hu]
  induction h generalizing got p with
  | nil =>
    rw [cut_singleton ht hq]
    exact hchar rfl
  | @cons u t s c hc hs ih =>
    rw [List.append_assoc] at ht
    obtain ⟨q', hu, hq'⟩ | ⟨p', rfl, ht'⟩ := cut_append ht
    · exact hchar (character_cut hc hu hq')
    · rw [repeated_inl (gather_spelled hc got p')]
      exact ih ht' _

end Text

/-- Cut anywhere, what is written for a value is cut short, or read to its end as another value. -/
def Format.Shortens (f : Format α) : Prop :=
  ∀ ⦃a : α⦄ ⦃p q : List Char⦄, f.write a = p ++ q → q ≠ [] →
    f.reader.run p = .error .truncated ∨ ∃ a', f.reader.run p = .ok (a', [])

def Format.Breaks (f : Format α) : Prop :=
  ∀ ⦃a : α⦄ ⦃p q : List Char⦄, f.write a = p ++ q → q ≠ [] → f.reader.run p = .error .truncated

theorem Format.Breaks.shortens {f : Format α} (h : f.Breaks) : f.Shortens :=
  fun _ _ _ hw hq => .inl (h hw hq)

theorem text_breaks (expected : String) : (Format.text expected).Breaks := by
  intro s p q h hq
  change '"' :: (s.toList.flatMap Text.escape ++ ['"']) = p ++ q at h
  cases p with
  | nil => rfl
  | cons c p =>
    obtain ⟨rfl, ht⟩ := List.cons_eq_cons.1 (h.trans List.cons_append)
    exact Text.repeated_gather_cut (Text.spelled_flatMap_escape s.toList) ht hq []

theorem flag_breaks : Format.flag.Breaks := by
  intro b p q h hq
  cases p with
  | nil => rfl
  | cons c p =>
    cases b with
    | true =>
      obtain ⟨rfl, hw⟩ := List.cons_eq_cons.1 (h.trans List.cons_append)
      change Except.map _ (afterWord ['r', 'u', 'e'] p) = _
      rw [afterWord_cut hw hq]
      rfl
    | false =>
      obtain ⟨rfl, hw⟩ := List.cons_eq_cons.1 (h.trans List.cons_append)
      change Except.map _ (afterWord ['a', 'l', 's', 'e'] p) = _
      rw [afterWord_cut hw hq]
      rfl

theorem Format.Breaks.refine {f : Format α} (h : f.Breaks) (check : α → Except Fault β)
    (value : β → α) : (f.refine check value).Breaks := by
  intro b p q hw hq
  change (f.reader.check check).run p = _
  simp only [Reader.check, h hw hq]

theorem Format.Shortens.map {f : Format α} (h : f.Shortens) (of : α → β) (value : β → α) :
    (f.map of value).Shortens := by
  intro b p q hw hq
  change (f.reader.map of).run p = _ ∨ ∃ a, (f.reader.map of).run p = _
  obtain he | ⟨a, ha⟩ := h hw hq
  · simp only [Reader.map, Reader.check, he, true_or]
  · exact .inr ⟨_, Reader.run_map ha⟩

/-- The front of what is written opens a value like the whole of it. -/
theorem Opens.of_append {p q : List Char} (h : Opens (p ++ q)) (hp : p ≠ []) : Opens p := by
  obtain ⟨c, p, rfl⟩ := List.exists_cons_of_ne_nil hp
  obtain ⟨d, s, he, hd⟩ := h
  obtain ⟨rfl, -⟩ := List.cons_eq_cons.1 (List.cons_append.symm.trans he)
  exact ⟨c, p, rfl, hd⟩

theorem optional_shortens {f : Format α} (hf : f.Follows f.written) (h : f.Shortens)
    (he : f.reader.run [] = .error .truncated) (hn : ∀ a, (f.write a).head? ≠ some 'n') :
    (Format.optional f).Shortens := by
  intro x p q hw hq
  cases p with
  | nil =>
    left
    change (f.reader.map some).run [] = _
    simp only [Reader.map, Reader.check, he]
  | cons c p =>
    cases x with
    | none =>
      obtain ⟨rfl, hp⟩ := List.cons_eq_cons.1 (hw.trans List.cons_append)
      left
      change Except.map _ (afterWord ['u', 'l', 'l'] p) = _
      rw [afterWord_cut hp hq]
      rfl
    | some a =>
      change f.write a = c :: p ++ q at hw
      have hc : c ≠ 'n' := by
        rintro rfl
        exact hn a (by rw [hw]; rfl)
      have ho : Opens (c :: p) := (hw ▸ hf.opens rfl).of_append (List.cons_ne_nil c p)
      obtain ⟨d, s, hd, hblank, -⟩ := ho
      cases hd
      have hb := afterBlanks_cons_of_not blanks_nil hblank p
      rw [List.nil_append] at hb
      change optionalRun f.reader (c :: p) = _ ∨ ∃ a, optionalRun f.reader (c :: p) = _
      rw [optionalRun_other hb hc]
      obtain he | ⟨a, ha⟩ := h hw hq
      · simp only [Reader.map, Reader.check, he, true_or]
      · exact .inr ⟨_, Reader.run_map ha⟩

/-- A sign and at least one of the digits are a number again. -/
theorem numberFound_cut {negative : Bool} {ds es : List Char} {i : Int}
    (hd : Numeral.WholeDigits (ds ++ es)) (hn : ds ≠ [])
    (hv : Numeral.value ⟨negative, ds ++ es, [], none⟩ = .ok (.integer i)) :
    ∃ c t j, Numeral.signText negative ++ ds = c :: t ∧ startsNumber c ∧
      numberFound (c :: t) = .ok (.integer j, []) ∧ (0 ≤ j ∧ j ≤ i ∨ i ≤ j ∧ j ≤ 0) := by
  have hds := hd.of_append hn
  obtain ⟨j, hj, hbetween⟩ := Numeral.value_of_append hds hd hv
  have hs : Numeral.Spelled (Numeral.signText negative ++ (ds ++ ([] ++ [])))
      ⟨negative, ds, [], none⟩ :=
    Numeral.Spelled.mk (n := ⟨negative, ds, [], none⟩) hds (by simp [Numeral.AllDigits]) .none
  have hr := Numeral.read_spelled hs (Numeral.ended_of_delimited delimited_nil)
  obtain ⟨c, t, he, hc⟩ := hs.startsNumber
  simp only [List.append_nil] at he hr
  rw [he] at hr
  exact ⟨c, t, j, he, hc, by simp only [numberFound, hr, hj], hbetween⟩

theorem int32_shortens : Format.int32.Shortens := by
  intro n p q hw hq
  have hd := Numeral.wholeDigits_toDigits n.toInt.natAbs
  have hl := n.le_toInt
  have hu := n.toInt_lt
  have hv := Numeral.value_ofInt hl hu
  have ht : Numeral.signText (n.toInt < 0) ++ Nat.toDigits 10 n.toInt.natAbs = p ++ q := by
    rw [← hw]
    change _ = Numeral.write n.toInt
    by_cases hneg : n.toInt < 0 <;> simp [Numeral.write, Numeral.signText, hneg]
  have hsign {p q : List Char} (h : Numeral.signText (n.toInt < 0) = p ++ q) (hp : p ≠ []) :
      p = ['-'] := by
    unfold Numeral.signText at h
    split at h
    · obtain ⟨c, p, rfl⟩ := List.exists_cons_of_ne_nil hp
      obtain ⟨rfl, ht⟩ := List.cons_eq_cons.1 (h.trans List.cons_append)
      rw [(List.append_eq_nil_iff.1 ht.symm).1]
    · exact absurd (List.append_eq_nil_iff.1 h.symm).1 hp
  by_cases hp : p = []
  · subst hp
    exact .inl rfl
  obtain ⟨q', hs, hq'⟩ | ⟨ds, rfl, hds⟩ := cut_append ht
  · rw [hsign hs hp]
    exact .inl rfl
  · by_cases hn : ds = []
    · subst hn
      rw [List.append_nil] at hp ⊢
      rw [hsign (List.append_nil _).symm hp]
      exact .inl rfl
    · rw [hds] at hd
      rw [Numeral.ofInt, hds] at hv
      obtain ⟨c, t, j, he, hc, hj, hbetween⟩ := numberFound_cut hd hn hv
      obtain ⟨m, hm⟩ := int32Of_between (int32Of_toInt n) hbetween
      have hb := afterBlanks_cons_of_not blanks_nil (startsNumber_opens hc).1 t
      rw [List.nil_append] at hb
      right
      refine ⟨m, ?_⟩
      change int32Run _ = _
      rw [he]
      simp only [int32Run, hb, hc, if_true, hj, hm]
      rfl

/-- What stands in front of an item: nothing before the first, a comma before each other. -/
def lead (first : Bool) : List Char := if first then [] else [',']

/-- What is written from an item on, up to the closing bracket. -/
def enclosed (close : Char) : Bool → List (List Char) → List Char
  | _, [] => [close]
  | first, w :: ws => lead first ++ (w ++ enclosed close false ws)

theorem commas_enclosed (close : Char) (ws : List (List Char)) :
    commas ws ++ [close] = enclosed close true ws := by
  cases ws with
  | nil => rfl
  | cons w ws =>
    change commas (w :: ws) ++ [close] = w ++ enclosed close false ws
    induction ws generalizing w with
    | nil => rfl
    | cons v ws ih =>
      rw [commas, List.append_assoc, List.cons_append, ih v]
      · rfl
      · simp

theorem comma_lead (first : Bool) : Comma first (lead first) := by
  cases first with
  | true => exact .first
  | false => exact .next blanks_nil

theorem delimited_of_append {p q : List Char} (h : Delimited (p ++ q)) : Delimited p := by
  cases p with
  | nil => exact delimited_nil
  | cons c p => exact h

theorem delimited_enclosed {close : Char} (hc : Delimited [close]) (ws : List (List Char)) :
    Delimited (enclosed close false ws) := by
  cases ws with
  | nil => exact hc
  | cons w ws => exact delimited_cons (.inr (.inl rfl))

section
variable {step : σ → Reader (σ ⊕ α)} {close : Char} {I : Bool → List (List Char) → σ → Prop}

/-- Whole items are read one by one, with `I` of what is still to come, up to the one that is cut.
-/
theorem repeated_cut (hc : Delimited [close]) (hnil : ∀ s, (step s).run [] = .error .truncated)
    (hstep : ∀ first w ws s r, I first (w :: ws) s → Delimited r →
      ∃ s', (step s).run (lead first ++ (w ++ r)) = .ok (.inl s', r) ∧ I false ws s')
    (hcut : ∀ first w ws s p q, I first (w :: ws) s → w = p ++ q → q ≠ [] →
      (step s).run (lead first ++ p) = .error .truncated ∨
        ∃ s', (step s).run (lead first ++ p) = .ok (.inl s', []))
    {first : Bool} {ws : List (List Char)} {s : σ} (h : I first ws s) {p q : List Char}
    (hp : enclosed close first ws = p ++ q) (hq : q ≠ []) :
    repeated step s p = .error .truncated := by
  induction ws generalizing first s p with
  | nil =>
    rw [cut_singleton hp hq]
    exact repeated_error (hnil s)
  | cons w ws ih =>
    obtain ⟨q', hl, hq'⟩ | ⟨p, rfl, ht⟩ := cut_append hp
    · have hp : p = [] := by
        cases first with
        | true => exact absurd (List.append_eq_nil_iff.1 hl.symm).2 hq'
        | false => exact cut_singleton hl hq'
      rw [hp]
      exact repeated_error (hnil s)
    · obtain ⟨q', hw, hq'⟩ | ⟨r, rfl, hr⟩ := cut_append ht
      · obtain he | ⟨s', hs'⟩ := hcut first w ws s p q' h hw hq'
        · exact repeated_error he
        · rw [repeated_inl hs']
          exact repeated_error (hnil s')
      · have hd : Delimited r := delimited_of_append (hr ▸ delimited_enclosed hc ws)
        obtain ⟨s', hs', hi⟩ := hstep first w ws s r h hd
        rw [repeated_inl hs']
        exact ih hi hr

end

/-- The texts still to come are those of a list's items. -/
def ItemsToCome (f : Format α) (first : Bool) (ws : List (List Char)) (got : List α × Bool) : Prop :=
  got.2 = first ∧ ∃ as : List α, ws = as.map f.write

theorem itemRun_written {f : Format α} (hf : f.Follows f.written) (got : List α) (first : Bool)
    (a : α) {r : List Char} (hr : Delimited r) :
    itemRun f.reader (got, first) (lead first ++ (f.write a ++ r)) =
      .ok (.inl (a :: got, false), r) := by
  have hw : f.written (f.write a) a := rfl
  have hn := nextItem_opens (comma_lead first) blanks_nil (hf.opens hw) r
  have hi := hf.reads blanks_nil hw hr
  rw [List.nil_append] at hn hi
  simp only [itemRun, hn, hi]

theorem itemRun_cut {f : Format α} (hf : f.Follows f.written) (h : f.Shortens) (got : List α)
    (first : Bool) {a : α} {p q : List Char} (hw : f.write a = p ++ q) (hq : q ≠ []) :
    itemRun f.reader (got, first) (lead first ++ p) = .error .truncated ∨
      ∃ a', itemRun f.reader (got, first) (lead first ++ p) = .ok (.inl (a' :: got, false), []) := by
  by_cases hp : p = []
  · subst hp
    left
    cases first <;> rfl
  · have ho : Opens p := (hw ▸ hf.opens rfl).of_append hp
    have hn := nextItem_opens (comma_lead first) blanks_nil ho []
    rw [List.nil_append, List.append_nil] at hn
    obtain he | ⟨a', ha⟩ := h hw hq
    · left
      simp only [itemRun, hn, he]
    · right
      exact ⟨a', by simp only [itemRun, hn, ha]⟩

theorem list_breaks {f : Format α} (hf : f.Follows f.written) (h : f.Shortens) :
    (Format.list f).Breaks := by
  intro as p q hw hq
  change '[' :: (commas (as.map f.write) ++ [']']) = p ++ q at hw
  cases p with
  | nil => rfl
  | cons c p =>
    obtain ⟨rfl, hp⟩ := List.cons_eq_cons.1 (hw.trans List.cons_append)
    rw [commas_enclosed] at hp
    change repeated (fun got => ⟨itemRun f.reader got, length_itemRun⟩) ([], true) p = _
    refine repeated_cut (I := ItemsToCome f) (Bracket.delimited_closing .square [])
      (fun ⟨got, first⟩ => by cases first <;> rfl) ?_ ?_ ⟨rfl, as, rfl⟩ hp hq
    · rintro first w ws ⟨got, _⟩ r ⟨rfl, as, ha⟩ hr
      obtain ⟨a, as, rfl, rfl, rfl⟩ := List.map_eq_cons_iff.1 ha.symm
      exact ⟨_, itemRun_written hf got _ a hr, rfl, as, rfl⟩
    · rintro first w ws ⟨got, _⟩ p q ⟨rfl, as, ha⟩ hw hq
      obtain ⟨a, as, rfl, rfl, rfl⟩ := List.map_eq_cons_iff.1 ha.symm
      exact (itemRun_cut hf h got _ hw hq).imp_right fun ⟨a', ha'⟩ => ⟨_, ha'⟩

/-- The texts still to come are those of members that make up the row with the draft. -/
def MembersToCome (fs : List Field) (row : Row fs) (first : Bool) (ws : List (List Char))
    (s : Draft fs × Bool) : Prop :=
  s.2 = first ∧ ∃ ms : List Member, ws = ms.map (fun m => Text.write m.1 ++ ':' :: m.2) ∧
    Draft.Settled fs (Grammars.written fs) s.1 ms row ∧
    ∀ m ∈ ms, m.1 ∈ names fs ∧ ∀ f ∈ fs, f.name = m.1 → ∃ v, m.2 = f.format.write v

theorem Row.written_formats {fs : List Field} (hn : (names fs).Nodup) (row : Row fs) :
    ∀ m ∈ Row.written fs row, ∀ f ∈ fs, f.name = m.1 → ∃ v, m.2 = f.format.write v := by
  induction fs with
  | nil =>
    intro m hm
    cases hm
  | cons f fs ih =>
    obtain ⟨v, row⟩ := row
    simp only [names, List.map_cons, List.nodup_cons] at hn
    have hrest : ∀ m ∈ Row.written fs row, ∀ g ∈ f :: fs, g.name = m.1 →
        ∃ v, m.2 = g.format.write v := by
      intro m hm g hg hgn
      obtain rfl | hg := List.mem_cons.1 hg
      · exact absurd (hgn ▸ Row.names_written hm) hn.1
      · exact ih hn.2 row m hm g hg hgn
    rw [Row.written]
    split
    · exact hrest
    · refine List.forall_mem_cons.2 ⟨fun g hg hgn => ?_, hrest⟩
      obtain rfl | hg := List.mem_cons.1 hg
      · exact ⟨v, rfl⟩
      · have hgn : g.name = f.name := hgn
        exact absurd (hgn ▸ List.mem_map_of_mem hg) hn.1

theorem membersRun_entered {fs : List Field} {d : Draft fs} {name : String} {r : List Char}
    {x : Reading (Draft fs)} (h : d.enter fs name r = some x) (first : Bool) :
    membersRun fs (d, first) (lead first ++ (Text.write name ++ r)) =
      x.map fun y => (.inl (y.1, false), y.2) := by
  have hq := nextMember_quote (comma_lead first) blanks_nil
    (name.toList.flatMap Text.escape ++ '"' :: r)
  have hb := Text.body_spelled (Text.spelled_flatMap_escape name.toList) r
  rw [List.nil_append] at hq
  simp only [Text.write, List.append_assoc, List.cons_append, List.nil_append, membersRun, hq,
    memberRun, hb, h]
  cases x <;> rfl

section
variable {fs : List Field} (hf : Grammars.Follow fs (Grammars.written fs)) (hn : (names fs).Nodup)
  {row : Row fs} {first : Bool} {m : Member} {ms : List Member} {d : Draft fs}
  (h : Draft.Settled fs (Grammars.written fs) d (m :: ms) row) (hm : m.1 ∈ names fs)
include hf hn h hm

theorem membersRun_written {r : List Char} (hr : Delimited r) : ∃ d',
    membersRun fs (d, first) (lead first ++ (Text.write m.1 ++ ':' :: (m.2 ++ r))) =
      .ok (.inl (d', false), r) ∧ Draft.Settled fs (Grammars.written fs) d' ms row := by
  obtain ⟨d', he, hs⟩ := Draft.enter_settled hf hn h hm blanks_nil blanks_nil hr
  exact ⟨d', membersRun_entered he first, hs⟩

theorem membersRun_cut (hc : ∀ f ∈ fs, f.format.Shortens)
    (hw : ∀ f ∈ fs, f.name = m.1 → ∃ v, m.2 = f.format.write v) {p q : List Char}
    (hp : Text.write m.1 ++ ':' :: m.2 = p ++ q) (hq : q ≠ []) :
    membersRun fs (d, first) (lead first ++ p) = .error .truncated ∨
      ∃ d', membersRun fs (d, first) (lead first ++ p) = .ok (.inl (d', false), []) := by
  obtain ⟨q', hname, hq'⟩ | ⟨r, rfl, hr⟩ := cut_append hp
  · left
    cases p with
    | nil => cases first <;> rfl
    | cons c p =>
      obtain ⟨rfl, ht⟩ := List.cons_eq_cons.1 (hname.trans List.cons_append)
      have hquote := nextMember_quote (comma_lead first) blanks_nil p
      have hbody : Text.body.run p = .error .truncated :=
        Text.repeated_gather_cut (Text.spelled_flatMap_escape m.1.toList) ht hq' []
      rw [List.nil_append] at hquote
      simp only [membersRun, hquote, memberRun, hbody]
  · -- The name is whole, so its field is known and not read yet: only its value can be cut.
    obtain ⟨d', he, -⟩ := Draft.enter_settled hf hn h hm blanks_nil blanks_nil delimited_nil
    obtain ⟨hnot, -⟩ | ⟨-, hdup⟩ | ⟨f, hmem, hfn, put, hfree⟩ := d.enter_cases m.1
    · exact absurd hm hnot
    · rw [hdup] at he
      cases he
    · rw [membersRun_entered (hfree r) first]
      cases r with
      | nil => exact .inl rfl
      | cons c t =>
        obtain ⟨rfl, ht⟩ := List.cons_eq_cons.1 (hr.trans List.cons_append)
        obtain ⟨v, hv⟩ := hw f hmem hfn
        change Except.map _ (Except.map _ (f.format.reader.run t)) = _ ∨
          ∃ d', Except.map _ (Except.map _ (f.format.reader.run t)) = _
        obtain he | ⟨a, ha⟩ := hc f hmem (hv ▸ ht) hq
        · rw [he]
          exact .inl rfl
        · rw [ha]
          exact .inr ⟨put a, rfl⟩

end

theorem row_breaks (title : String) {fs : List Field}
    (hf : Grammars.Follow fs (Grammars.written fs)) (hn : (names fs).Nodup)
    (hc : ∀ f ∈ fs, f.format.Shortens) : (Format.row title fs).Breaks := by
  intro row p q hw hq
  change '{' :: (commas (row.members fs) ++ ['}']) = p ++ q at hw
  cases p with
  | nil => rfl
  | cons c p =>
    obtain ⟨rfl, hp⟩ := List.cons_eq_cons.1 (hw.trans List.cons_append)
    rw [commas_enclosed, Row.members_written] at hp
    have hi : MembersToCome fs row true _ (Draft.empty fs, true) :=
      ⟨rfl, Row.written fs row, rfl, Draft.settled_empty (Row.given_written hf hn row),
        fun m hm => ⟨Row.names_written hm, Row.written_formats hn row m hm⟩⟩
    have hm : (members fs).run p = .error .truncated := by
      refine repeated_cut (I := MembersToCome fs row) (Bracket.delimited_closing .curly [])
        (fun ⟨d, first⟩ => by cases first <;> rfl) ?_ ?_ hi hp hq
      · rintro first w ws ⟨d, _⟩ r ⟨rfl, ms, ha, hs, hall⟩ hr
        obtain ⟨m, ms, rfl, rfl, rfl⟩ := List.map_eq_cons_iff.1 ha.symm
        obtain ⟨hm, hms⟩ := List.forall_mem_cons.1 hall
        obtain ⟨d', he, hs'⟩ := membersRun_written hf hn hs hm.1 hr
        rw [List.append_assoc, List.cons_append]
        exact ⟨(d', false), he, rfl, ms, rfl, hs', hms⟩
      · rintro first w ws ⟨d, _⟩ p q ⟨rfl, ms, ha, hs, hall⟩ hw hq
        obtain ⟨m, ms, rfl, rfl, rfl⟩ := List.map_eq_cons_iff.1 ha.symm
        obtain ⟨hm, hms⟩ := List.forall_mem_cons.1 hall
        exact (membersRun_cut hf hn hs hm.1 hc hm.2 hw hq).imp_right fun ⟨d', hd⟩ => ⟨_, hd⟩
    change rowRun title fs ('{' :: p) = _
    have hb : afterBlanks ('\x7b' :: p) = '\x7b' :: p := rfl
    simp only [rowRun, hb, hm]

theorem Composed.shortens {f : Format α} (h : Composed f) : f.Shortens := by
  induction h with
  | text expected => exact (text_breaks expected).shortens
  | checked expected check value _ => exact ((text_breaks expected).refine check value).shortens
  | flag => exact flag_breaks.shortens
  | int32 => exact int32_shortens
  | list hf ih => exact (list_breaks hf.follows ih).shortens
  | optional hf hn ih => exact optional_shortens hf.follows ih hf.firm.empty hn
  | map _ of value _ ih => exact ih.map of value
  | row title hf ho hn ih =>
    have hw := Grammars.follow_written (fun f hm => (hf f hm).follows) ho
    exact (row_breaks title hw hn ih).shortens

end PipelineCache.Json

import PipelineCache.Json.Format
import PipelineCache.Proofs.Json.Value

/-! Grammars say which texts spell which values. A format follows a grammar when it reads every
spelling of a value as that value and writes one of them. Here are the grammars of single values
and of lists. -/
namespace PipelineCache.Json
variable {α β : Type}

/-- Which texts spell which values, without blanks around them. -/
abbrev Grammar (α : Type) := List Char → α → Prop

def Grammar.padded (g : Grammar α) : Grammar α := fun t a =>
  ∃ b v b', Blanks b ∧ Blanks b' ∧ g v a ∧ t = b ++ (v ++ b')

/-- One spelling or more, with commas between them. -/
inductive Separated (g : Grammar α) : Grammar (List α)
  | last {t : List Char} {a : α} (h : g t a) : Separated g t [a]
  | more {t s : List Char} {a : α} {as : List α} (h : g t a) (hs : Separated g s as) :
      Separated g (t ++ ',' :: s) (a :: as)

namespace Grammar

def text : Grammar String := fun t s =>
  ∃ u, Text.Spelled u s.toList ∧ t = '"' :: (u ++ ['"'])

def flag : Grammar Bool := fun t b =>
  t = if b then ['t', 'r', 'u', 'e'] else ['f', 'a', 'l', 's', 'e']

/-- Without fraction and exponent a whole number has one spelling. -/
def int32 : Grammar Int32 := fun t n => t = Numeral.write n.toInt

inductive list (g : Grammar α) : Grammar (List α)
  | empty {b : List Char} (hb : Blanks b) : list g ('[' :: (b ++ [']'])) []
  | full {t : List Char} {as : List α} (h : Separated g.padded t as) :
      list g ('[' :: (t ++ [']'])) as

def optional (g : Grammar α) : Grammar (Option α) := fun t x =>
  match x with
  | none => t = ['n', 'u', 'l', 'l']
  | some a => g t a

end Grammar

structure Format.Follows (f : Format α) (g : Grammar α) : Prop where
  opens : ∀ {v : List Char} {a : α}, g v a → Opens v
  reads : ∀ {b v r : List Char} {a : α}, Blanks b → g v a → Delimited r →
    f.reader.run (b ++ (v ++ r)) = .ok (a, r)
  writes : ∀ a, g (f.write a) a

namespace Format.Follows

/-- A whole text that spells a value, with blanks around it, is read as that value. -/
theorem decode {f : Format α} {g : Grammar α} (h : f.Follows g) {t : String} {a : α}
    (ht : g.padded t.toList a) : f.decode t = .ok a := by
  obtain ⟨b, v, b', hb, hb', hv, he⟩ := ht
  have hd : Delimited b' := by
    have hd := delimited_append hb' delimited_nil
    rwa [List.append_nil] at hd
  have hr := h.reads hb hv hd
  rw [Format.decode, he, hr]
  simp [afterBlanks_blanks hb']

theorem decode_written {f : Format α} {g : Grammar α} (h : f.Follows g) (a : α) :
    f.decode (f.encode a) = .ok a := by
  apply h.decode
  refine ⟨[], f.write a, [], blanks_nil, blanks_nil, h.writes a, ?_⟩
  rw [Format.encode, String.toList_ofList, List.append_nil, List.nil_append]

theorem refine {f : Format α} {g : Grammar α} {g' : Grammar β} {check : α → Except Fault β}
    {value : β → α} (h : f.Follows g)
    (hr : ∀ {t : List Char} {b : β}, g' t b → ∃ a, g t a ∧ check a = .ok b)
    (hw : ∀ {t : List Char} {b : β}, g t (value b) → g' t b) :
    (f.refine check value).Follows g' where
  opens hv := by
    obtain ⟨a, ha, _⟩ := hr hv
    exact h.opens ha
  reads hb hv hd := by
    obtain ⟨a, ha, hc⟩ := hr hv
    exact Reader.run_check (h.reads hb ha hd) hc
  writes b := hw (h.writes (value b))

theorem map {f : Format α} {g : Grammar α} {g' : Grammar β} {of : α → β} {value : β → α}
    (h : f.Follows g) (hr : ∀ {t : List Char} {b : β}, g' t b → ∃ a, g t a ∧ of a = b)
    (hw : ∀ {t : List Char} {b : β}, g t (value b) → g' t b) :
    (f.map of value).Follows g' := by
  refine h.refine (fun hv => ?_) hw
  obtain ⟨a, ha, rfl⟩ := hr hv
  exact ⟨a, ha, rfl⟩

end Format.Follows

theorem text_follows (expected : String) : (Format.text expected).Follows Grammar.text where
  opens := by
    rintro v s ⟨u, _, rfl⟩
    exact ⟨_, _, rfl, rfl, by decide⟩
  reads := by
    rintro b v r s hb ⟨u, hu, rfl⟩ _
    change textRun expected _ = _
    rw [List.cons_append, List.append_assoc, textRun, afterBlanks_cons_of_not hb rfl]
    exact Text.body_spelled hu r
  writes s := ⟨_, Text.spelled_flatMap_escape s.toList, rfl⟩

theorem flag_follows : Format.flag.Follows Grammar.flag where
  opens := by
    rintro v (_ | _) rfl <;> exact ⟨_, _, rfl, rfl, by decide⟩
  reads := by
    rintro b v r (_ | _) hb rfl _
    · change flagRun (b ++ 'f' :: (['a', 'l', 's', 'e'] ++ r)) = _
      rw [flagRun, afterBlanks_cons_of_not hb rfl]
      change Except.map _ (afterWord _ _) = _
      rw [afterWord_eq_ok.2 rfl]
      rfl
    · change flagRun (b ++ 't' :: (['r', 'u', 'e'] ++ r)) = _
      rw [flagRun, afterBlanks_cons_of_not hb rfl]
      change Except.map _ (afterWord _ _) = _
      rw [afterWord_eq_ok.2 rfl]
      rfl
  writes _ := rfl

theorem int32Of_toInt (n : Int32) : int32Of (.integer n.toInt) = .ok n := by
  have hl := n.le_toInt
  have hu := n.toInt_lt
  have hr : Int32.minValue.toInt ≤ n.toInt ∧ n.toInt ≤ Int32.maxValue.toInt := by
    rw [Int32.toInt_minValue, Int32.toInt_maxValue]
    omega
  rw [int32Of, if_pos hr, Int32.ofInt_toInt]

theorem int32_follows : Format.int32.Follows Grammar.int32 where
  opens := by
    rintro v n rfl
    obtain ⟨c, s, hs, hc⟩ := (Numeral.spelled_write n.toInt).startsNumber
    exact ⟨c, s, hs, startsNumber_opens hc⟩
  reads := by
    rintro b v r n hb rfl hd
    have hl := n.le_toInt
    have hu := n.toInt_lt
    have hn := Numeral.spelled_write n.toInt
    have hf : numberFound (Numeral.write n.toInt ++ r) = .ok (.integer n.toInt, r) := by
      simp only [numberFound, Numeral.read_spelled hn (Numeral.ended_of_delimited hd),
        Numeral.value_ofInt hl hu]
    obtain ⟨c, s, hs, hc⟩ := hn.startsNumber
    change int32Run _ = _
    rw [hs, List.cons_append] at hf ⊢
    rw [int32Run, afterBlanks_cons_of_not hb (startsNumber_opens hc).1]
    simp only [hc, if_true, hf, int32Of_toInt]
    rfl
  writes _ := rfl

/-- What separates an item from the one before it: nothing in front of the first one. -/
inductive Comma : Bool → List Char → Prop
  | first : Comma true []
  | next {b : List Char} (hb : Blanks b) : Comma false (b ++ [','])

theorem nextItem_closing {first : Bool} {b : List Char} (hb : Blanks b) (r : List Char) :
    nextItem first (b ++ ']' :: r) = .ok (.inl r) := by
  rw [nextItem, afterBlanks_cons_of_not hb rfl]
  rfl

theorem nextItem_opens {first : Bool} {l b v : List Char} (hl : Comma first l) (hb : Blanks b)
    (hv : Opens v) (r : List Char) : nextItem first (l ++ (b ++ (v ++ r))) = .ok (.inr (v ++ r)) := by
  obtain ⟨c, s, rfl, hc, hn⟩ := hv
  cases hl with
  | first =>
    rw [List.nil_append, List.cons_append, nextItem, afterBlanks_cons_of_not hb hc]
    simp
  | next hb' =>
    rw [List.append_assoc, List.cons_append, List.cons_append, nextItem,
      afterBlanks_cons_of_not hb' rfl]
    simp [afterBlanks_cons_of_not hb hc, hn]

theorem itemRun_padded {f : Format α} {g : Grammar α} (h : f.Follows g) {t : List Char} {a : α}
    (ht : g.padded t a) {first : Bool} {l r : List Char} (hl : Comma first l) (hr : Delimited r)
    (got : List α) : ∃ b, Blanks b ∧
      itemRun f.reader (got, first) (l ++ (t ++ r)) = .ok (.inl (a :: got, false), b ++ r) := by
  obtain ⟨b, v, b', hb, hb', hv, rfl⟩ := ht
  refine ⟨b', hb', ?_⟩
  have hi := h.reads blanks_nil hv (delimited_append hb' hr)
  rw [List.nil_append] at hi
  simp only [List.append_assoc, itemRun, nextItem_opens hl hb (h.opens hv), hi]

theorem repeated_item_closing {f : Format α} {first : Bool} {b : List Char} (hb : Blanks b)
    (got : List α) (r : List Char) :
    repeated (fun got => ⟨itemRun f.reader got, length_itemRun⟩) (got, first) (b ++ ']' :: r) =
      .ok (got.reverse, r) := by
  apply repeated_inr
  change itemRun f.reader (got, first) _ = _
  simp only [itemRun, nextItem_closing hb]

/-- The items of a list, behind its bracket or behind the comma that follows another item. -/
theorem repeated_item_separated {f : Format α} {g : Grammar α} (h : f.Follows g) {t : List Char}
    {as : List α} (ht : Separated g.padded t as) (got : List α) {first : Bool} {l : List Char}
    (hl : Comma first l) (r : List Char) :
    repeated (fun got => ⟨itemRun f.reader got, length_itemRun⟩) (got, first)
      (l ++ (t ++ ']' :: r)) = .ok (got.reverse ++ as, r) := by
  induction ht generalizing got first l with
  | last hp =>
    obtain ⟨b, hb, hi⟩ := itemRun_padded h hp hl (Bracket.delimited_closing .square r) got
    rw [repeated_inl hi]
    refine (repeated_item_closing hb _ r).trans ?_
    rw [List.reverse_cons]
  | @more t s a as hp hs ih =>
    have hd : Delimited (',' :: (s ++ ']' :: r)) := delimited_cons (.inr (.inl rfl))
    obtain ⟨b, hb, hi⟩ := itemRun_padded h hp hl hd got
    have hc := ih (a :: got) (Comma.next hb)
    rw [List.append_assoc, List.cons_append, repeated_inl hi]
    rw [List.append_assoc, List.cons_append, List.nil_append] at hc
    rw [hc, List.reverse_cons, List.append_assoc, List.singleton_append]

/-- What a list is written as between its brackets. -/
theorem separated_commas {g : Grammar α} (w : β → List Char) (of : β → α)
    (hw : ∀ x, g (w x) (of x)) {xs : List β} (hx : xs ≠ []) :
    Separated g (commas (xs.map w)) (xs.map of) := by
  induction xs with
  | nil => exact absurd rfl hx
  | cons x xs ih =>
    cases xs with
    | nil => exact .last (hw x)
    | cons y ys => exact .more (hw x) (ih (by simp))

theorem padded_of_spelled {g : Grammar α} {t : List Char} {a : α} (h : g t a) : g.padded t a :=
  ⟨[], t, [], blanks_nil, blanks_nil, h, by simp⟩

theorem list_follows {f : Format α} {g : Grammar α} (h : f.Follows g) :
    (Format.list f).Follows g.list where
  opens := by
    rintro v as (_ | _) <;> exact ⟨_, _, rfl, rfl, by decide⟩
  reads := by
    rintro b v r as hb hv _
    change listRun f.reader _ = _
    cases hv with
    | empty hb' =>
      rw [List.cons_append, List.append_assoc, listRun, afterBlanks_cons_of_not hb rfl]
      exact repeated_item_closing hb' [] r
    | full hs =>
      rw [List.cons_append, List.append_assoc, listRun, afterBlanks_cons_of_not hb rfl]
      exact repeated_item_separated h hs [] .first r
  writes as := by
    change g.list ('[' :: (commas (as.map f.write) ++ [']'])) as
    cases as with
    | nil => exact .empty blanks_nil
    | cons a as =>
      refine .full ?_
      have hs := separated_commas f.write id (fun x => padded_of_spelled (h.writes x))
        (List.cons_ne_nil a as)
      rwa [List.map_id] at hs

theorem optional_follows {f : Format α} {g : Grammar α} (h : f.Follows g)
    (hn : ∀ {v : List Char} {a : α}, g v a → v.head? ≠ some 'n') :
    (Format.optional f).Follows g.optional where
  opens := by
    rintro v (_ | a) hv
    · cases hv
      exact ⟨_, _, rfl, rfl, by decide⟩
    · exact h.opens hv
  reads := by
    rintro b v r (_ | a) hb hv hd
    · cases hv
      change optionalRun f.reader (b ++ 'n' :: (['u', 'l', 'l'] ++ r)) = _
      rw [optionalRun, afterBlanks_cons_of_not hb rfl]
      change Except.map _ (afterWord _ _) = _
      rw [afterWord_eq_ok.2 rfl]
      rfl
    · have hr := Reader.run_map (f := some) (h.reads hb hv hd)
      have hn := hn hv
      obtain ⟨c, s, rfl, hc, _⟩ := h.opens hv
      have hne : c ≠ 'n' := by
        intro he
        subst he
        exact hn rfl
      change optionalRun f.reader _ = _
      rw [List.cons_append] at hr ⊢
      simp only [optionalRun, afterBlanks_cons_of_not hb hc]
      split
      · simp_all
      · exact hr
  writes
    | none => rfl
    | some a => h.writes a

end PipelineCache.Json

import PipelineCache.Proofs.Json.Composed
import PipelineCache.Proofs.Json.Proper
import PipelineCache.Proofs.Json.Digits

/-! Texts that go on. A value that ends with a closing mark of its own is read in the same way
whatever comes behind it. A value that does not fit still does not when the text goes on, and is
told in the same words where what comes behind is set off from it. -/
namespace PipelineCache.Json
variable {α β σ : Type}

/-- Something still does not fit with `s` behind it. Where `s` may lengthen a number other words
are said of it. -/
def Persists (s : List Char) (c : Misfit) (x : Except Fault α) : Prop :=
  (∃ e, x = .error e) ∧ (Delimited s → x = .error (.misfit c))

def Lasts (run : List Char → Reading α) : Prop :=
  ∀ ⦃t : List Char⦄ ⦃c : Misfit⦄, run t = .error (.misfit c) → ∀ s, Persists s c (run (t ++ s))

theorem Persists.of_eq {s : List Char} {c : Misfit} {x : Except Fault α}
    (h : x = .error (.misfit c)) : Persists s c x :=
  ⟨⟨_, h⟩, fun _ => h⟩

theorem Persists.through {s : List Char} {c : Misfit} {x : Except Fault α} {y : Except Fault β}
    (h : Persists s c x) (hy : ∀ e, x = .error e → y = .error e) : Persists s c y := by
  obtain ⟨⟨e, he⟩, hd⟩ := h
  exact ⟨⟨e, hy e he⟩, fun hs => hy _ (hd hs)⟩

theorem lasts_check {p : Reader α} (hp : Lasts p.run) (hb : Bounded p.run)
    (f : α → Except Fault β) : Lasts (p.check f).run := by
  intro t c h s
  simp only [Reader.check] at h ⊢
  split at h
  · next hr =>
    cases h
    exact (hp hr s).through fun e he => by rw [he]
  · next a r hr =>
    rw [hb hr s]
    split at h
    · next hf =>
      cases h
      exact .of_eq (by simp only [hf])
    · cases h

theorem lasts_map {p : Reader α} (hp : Lasts p.run) (f : α → β) : Lasts (p.map f).run := by
  intro t c h s
  simp only [Reader.map, Reader.check] at h ⊢
  split at h
  · next hr =>
    cases h
    exact (hp hr s).through fun e he => by rw [he]
  · cases h

theorem lasts_loop {step : σ → Reader (σ ⊕ α)} (hs : ∀ x, Extends (step x).run)
    (hl : ∀ x, Lasts (step x).run) (hn : ∀ x, Proper ((step x).run [])) (x : σ) :
    Lasts (Reader.loop step x).run := by
  intro t c h s
  change repeated step x t = _ at h
  change Persists s c (repeated step x (t ++ s))
  fun_induction repeated step x t with
  | case1 x t e hr =>
    cases h
    exact (hl x hr s).through fun e he => repeated_error he
  | case2 => cases h
  | case3 x t x' r' hr ih =>
    have hf : Fits r' s := by
      rintro rfl
      rw [repeated_eq] at h
      split at h
      · next he =>
        cases h
        exact absurd he (hn x' c)
      · cases h
      · next hc => cases (step x').shrinks hc
    rw [repeated_inl (hs x hr hf)]
    exact ih h

theorem mismatch_append {expected : String} {t s : List Char} {c : Misfit}
    (h : mismatch expected t = .misfit c) (hs : Delimited s) :
    mismatch expected (t ++ s) = .misfit c := by
  have word {w u : List Char} {x : Found} (h : mismatchWord expected w u x = .misfit c) :
      mismatchWord expected w (u ++ s) x = .misfit c := by
    unfold mismatchWord at h ⊢
    split at h
    · next he =>
      subst h
      exact absurd he (proper_afterWord _ _ _)
    · next hw =>
      rw [afterWord_append hw]
      exact h
  unfold mismatch at h
  split at h
  case h_1 => cases h
  case h_2 | h_3 => exact h
  case h_4 =>
    split at h
    · next he =>
      subst h
      exact absurd he (Text.proper_body _ _)
    · next hb =>
      simp only [List.cons_append, mismatch, Text.bounded_body hb s]
      exact h
  case h_5 | h_6 | h_7 => exact word h
  case h_8 =>
    split at h
    · next hc =>
      split at h
      · next he =>
        subst h
        exact absurd he (proper_numberFound _ _)
      · next hn =>
        have hn := extends_numberFound hn fun _ => hs
        rw [List.cons_append] at hn ⊢
        simp [mismatch, hc, hn, h]
    · cases h

theorem textRun_other {expected : String} {t u : List Char} {d : Char} (hb : afterBlanks t = d :: u)
    (hd : ¬ d = '"') : textRun expected t = .error (mismatch expected (d :: u)) := by
  rw [textRun, hb]
  split
  · next he => exact absurd (List.cons.inj he).1 hd
  · rfl

theorem flagRun_other {t u : List Char} {d : Char} (hb : afterBlanks t = d :: u)
    (hd : ¬ (d = 't' ∨ d = 'f')) : flagRun t = .error (mismatch "a boolean" (d :: u)) := by
  rw [flagRun, hb]
  split
  · next he => exact absurd (.inl (List.cons.inj he).1) hd
  · next he => exact absurd (.inr (List.cons.inj he).1) hd
  · rfl

theorem int32Run_other {t u : List Char} {d : Char} (hb : afterBlanks t = d :: u)
    (hd : ¬ startsNumber d) : int32Run t = .error (mismatch "i32" (d :: u)) := by
  simp only [int32Run, hb, hd, Bool.false_eq_true, if_false]

theorem listRun_other {item : Reader α} {t u : List Char} {d : Char} (hb : afterBlanks t = d :: u)
    (hd : ¬ d = '[') : listRun item t = .error (mismatch "a sequence" (d :: u)) := by
  rw [listRun, hb]
  split
  · next he => exact absurd (List.cons.inj he).1 hd
  · rfl

theorem optionalRun_other {p : Reader α} {t u : List Char} {d : Char} (hb : afterBlanks t = d :: u)
    (hd : ¬ d = 'n') : optionalRun p t = (p.map some).run t := by
  rw [optionalRun, hb]
  split
  · next he => exact absurd (List.cons.inj he).1 hd
  · rfl

theorem rowRun_other {title : String} {fs : List Field} {t u : List Char} {d : Char}
    (hb : afterBlanks t = d :: u) (hd : ¬ (d = '\x7b' ∨ d = '[')) :
    rowRun title fs t = .error (mismatch title (d :: u)) := by
  rw [rowRun, hb]
  split
  · next he => exact absurd (.inl (List.cons.inj he).1) hd
  · next he => exact absurd (.inr (List.cons.inj he).1) hd
  · rfl

/-- A reader that looks at the first character behind the blanks, and finds that it begins no value
of its type. -/
theorem lasts_of_head {run : List Char → Reading α} (expected : String) (own : Char → Prop)
    (hnil : ∀ t, afterBlanks t = [] → run t = .error .truncated)
    (hother : ∀ t d u, afterBlanks t = d :: u → ¬ own d →
      run t = .error (mismatch expected (d :: u)))
    (hown : ∀ t d u, afterBlanks t = d :: u → own d → ∀ c, run t = .error (.misfit c) →
      ∀ s, Persists s c (run (t ++ s))) :
    Lasts run := by
  intro t c h s
  cases hb : afterBlanks t with
  | nil =>
    rw [hnil t hb] at h
    cases h
  | cons d u =>
    by_cases hd : own d
    · exact hown t d u hb hd c h s
    · have hs := hother _ _ _ (afterBlanks_append_of_cons hb s) hd
      refine ⟨⟨_, hs⟩, fun hdel => ?_⟩
      rw [hother t d u hb hd] at h
      rw [hs, ← List.cons_append, mismatch_append (Except.error.inj h) hdel]

/-- What does not fit a format stays so, and an empty text is cut short. -/
structure Format.Firm (f : Format α) : Prop where
  empty : f.reader.run [] = .error .truncated
  lasts : Lasts f.reader.run

theorem Format.Firm.decode_append {f : Format α} (hf : f.Firm) {t s : String} {c : Misfit}
    (h : f.decode t = .error (.misfit c)) (hs : Delimited s.toList) :
    f.decode (t ++ s) = .error (.misfit c) := by
  have hr := (hf.lasts (Format.run_of_misfit h) s.toList).2 hs
  rw [Format.decode, String.toList_append, hr]

theorem text_firm (expected : String) : (Format.text expected).Firm where
  empty := rfl
  lasts := by
    refine lasts_of_head expected (fun d => d = '"') ?_ (fun _ _ _ => textRun_other) ?_
    · intro t hb
      change textRun expected t = _
      rw [textRun, hb]
      rfl
    · intro t d u hb hd c h
      subst hd
      change textRun expected t = _ at h
      rw [textRun, hb] at h
      exact absurd h (Text.proper_body u c)

theorem flag_firm : Format.flag.Firm where
  empty := rfl
  lasts := by
    refine lasts_of_head "a boolean" (fun d => d = 't' ∨ d = 'f') ?_ (fun _ _ _ => flagRun_other) ?_
    · intro t hb
      change flagRun t = _
      rw [flagRun, hb]
      rfl
    · intro t d u hb hd c h
      change flagRun t = _ at h
      obtain rfl | rfl := hd
      · rw [flagRun, hb] at h
        exact absurd h (proper_map (proper_afterWord _ _) _ c)
      · rw [flagRun, hb] at h
        exact absurd h (proper_map (proper_afterWord _ _) _ c)

theorem int32_firm : Format.int32.Firm where
  empty := rfl
  lasts := by
    refine lasts_of_head "i32" (fun d => startsNumber d) ?_ (fun _ _ _ => int32Run_other) ?_
    · intro t hb
      change int32Run t = _
      rw [int32Run, hb]
    · intro t d u hb hd c h s
      change int32Run t = _ at h
      change Persists s c (int32Run (t ++ s))
      simp only [int32Run, hb, afterBlanks_append_of_cons hb, hd, if_true] at h ⊢
      split at h
      · next he =>
        cases h
        exact absurd he (proper_numberFound _ c)
      · next y r hn =>
        constructor
        · split
          · exact ⟨_, rfl⟩
          · next x r' hx =>
            cases hf : int32Of x with
            | error e => exact ⟨e, rfl⟩
            | ok n =>
              obtain ⟨m, hm⟩ := int32Of_of_append hn hx hf
              rw [hm] at h
              cases h
        · intro hs
          have hx := extends_numberFound hn fun _ => hs
          rw [List.cons_append] at hx
          rw [hx]
          cases hf : int32Of y with
          | error e =>
            rw [hf] at h
            cases h
            simp only [hf, Except.map]
          | ok n =>
            rw [hf] at h
            cases h

theorem lasts_itemRun {item : Reader α} (hi : Lasts item.run) (got : List α × Bool) :
    Lasts (itemRun item got) := by
  intro t c h s
  unfold itemRun at h
  split at h
  · next he =>
    cases h
    exact absurd he (proper_nextItem _ _ c)
  · cases h
  · next t' hn =>
    have hn := nextItem_append hn s
    simp only [Sum.map_inr] at hn
    simp only [itemRun, hn]
    split at h
    · next he =>
      cases h
      exact (hi he s).through fun e he => by rw [he]
    · cases h

theorem list_firm {f : Format α} (hs : f.Steady) (h : f.Firm) : (Format.list f).Firm where
  empty := rfl
  lasts := by
    refine lasts_of_head "a sequence" (fun d => d = '[') ?_ (fun _ _ _ => listRun_other) ?_
    · intro t hb
      change listRun f.reader t = _
      rw [listRun, hb]
      rfl
    · intro t d u hb hd c ht s
      subst hd
      change listRun f.reader t = _ at ht
      change Persists s c (listRun f.reader (t ++ s))
      rw [listRun, hb] at ht
      rw [listRun, afterBlanks_append_of_cons hb]
      exact lasts_loop (extends_itemRun hs.stops) (lasts_itemRun h.lasts)
        (fun got c hc => by cases hc) _ ht s

theorem optional_firm {f : Format α} (hs : f.Steady) (h : f.Firm) : (Format.optional f).Firm where
  empty := by
    change (f.reader.map some).run [] = _
    simp only [Reader.map, Reader.check, h.empty]
  lasts := by
    intro t c ht s
    change optionalRun f.reader t = _ at ht
    change Persists s c (optionalRun f.reader (t ++ s))
    have hm := lasts_map h.lasts some
    cases hb : afterBlanks t with
    | nil =>
      have he : f.reader.run t = .error .truncated := by rw [← hs.blanks, hb, h.empty]
      rw [optionalRun, hb] at ht
      simp only [Reader.map, Reader.check, he] at ht
      cases ht
    | cons d u =>
      by_cases hd : d = 'n'
      · subst hd
        rw [optionalRun, hb] at ht
        exact absurd ht (proper_map (proper_afterWord _ _) _ c)
      · rw [optionalRun_other hb hd] at ht
        rw [optionalRun_other (afterBlanks_append_of_cons hb s) hd]
        exact hm ht s

theorem Format.Firm.refine {f : Format α} (h : f.Firm) (hb : Bounded f.reader.run)
    (check : α → Except Fault β) (value : β → α) : (f.refine check value).Firm where
  empty := by
    change (f.reader.check check).run [] = _
    simp only [Reader.check, h.empty]
  lasts := lasts_check h.lasts hb check

theorem Format.Firm.map {f : Format α} (h : f.Firm) (of : α → β) (value : β → α) :
    (f.map of value).Firm where
  empty := by
    change (f.reader.map of).run [] = _
    simp only [Reader.map, Reader.check, h.empty]
  lasts := lasts_map h.lasts of

theorem lasts_memberValue {p : Reader α} (hp : Lasts p.run) : Lasts (memberValue p) := by
  intro t c h s
  unfold memberValue at h
  split at h
  · next he =>
    cases h
    exact absurd he (Place.proper_colon _ c)
  · next hc =>
    simp only [memberValue, Place.colon_extends hc]
    exact hp h s

/-- What a member does to a draft: no field has its name, or its field has been read, or its value
goes to the field of its name. -/
theorem Draft.enter_cases {fs : List Field} (d : Draft fs) (name : String) :
    (name ∉ names fs ∧ ∀ t, d.enter fs name t = none) ∨
    (name ∈ names fs ∧ ∀ t, d.enter fs name t = some (.error (.misfit (.duplicate name)))) ∨
    ∃ f ∈ fs, f.name = name ∧ ∃ put : f.Value → Draft fs, ∀ t, d.enter fs name t =
      some ((memberValue f.format.reader t).map fun x => (put x.1, x.2)) := by
  induction fs with
  | nil => exact .inl ⟨List.not_mem_nil, fun _ => rfl⟩
  | cons f fs ih =>
    obtain ⟨v, d⟩ := d
    simp only [names, List.map_cons, List.mem_cons] at ih ⊢
    by_cases hn : name = f.name
    · subst hn
      cases v with
      | some v => exact .inr (.inl ⟨.inl rfl, fun t => by simp [Draft.enter]⟩)
      | none =>
        refine .inr (.inr ⟨f, .inl rfl, rfl, fun a => (some a, d), fun t => ?_⟩)
        simp only [Draft.enter, if_true, Option.isSome_none, Bool.false_eq_true, if_false]
        cases memberValue f.format.reader t <;> rfl
    · obtain ⟨hm, he⟩ | ⟨hm, he⟩ | ⟨g, hg, hgn, put, he⟩ := ih d
      · exact .inl ⟨by simp [hn, hm], fun t => by simp only [Draft.enter, if_neg hn, he]⟩
      · exact .inr (.inl ⟨.inr hm, fun t => by simp only [Draft.enter, if_neg hn, he]⟩)
      · refine .inr (.inr ⟨g, .inr hg, hgn, fun a => (v, put a), fun t => ?_⟩)
        simp only [Draft.enter, if_neg hn, he]
        cases memberValue g.format.reader t <;> rfl

theorem lasts_memberRun {fs : List Field} (hf : ∀ f ∈ fs, Lasts f.format.reader.run)
    (d : Draft fs) : Lasts (memberRun fs d) := by
  intro t c h s
  unfold memberRun at h
  split at h
  · next he =>
    cases h
    exact absurd he (Text.proper_body _ c)
  · next name r hb =>
    simp only [memberRun, Text.bounded_body hb s]
    obtain ⟨-, he⟩ | ⟨-, he⟩ | ⟨f, hm, -, put, he⟩ := d.enter_cases name
    · rw [he] at h
      simp only at h
      split at h
      · next hv =>
        cases h
        exact absurd hv (proper_memberValue proper_skipValue _ c)
      · cases h
    · rw [he] at h ⊢
      cases h
      exact .of_eq rfl
    · rw [he] at h ⊢
      simp only at h ⊢
      cases hv : memberValue f.format.reader r with
      | error e =>
        rw [hv] at h
        cases h
        exact (lasts_memberValue (hf f hm) hv s).through fun e he => by rw [he]; rfl
      | ok x =>
        rw [hv] at h
        cases h

theorem lasts_membersRun {fs : List Field} (hf : ∀ f ∈ fs, Lasts f.format.reader.run)
    (x : Draft fs × Bool) : Lasts (membersRun fs x) := by
  intro t c h s
  unfold membersRun at h
  split at h
  · next he =>
    cases h
    exact absurd he (proper_nextMember _ _ c)
  · cases h
  · next t' hn =>
    have hn := nextMember_append hn s
    simp only [Sum.map_inr] at hn
    simp only [membersRun, hn]
    split at h
    · next he =>
      cases h
      exact (lasts_memberRun hf _ he s).through fun e he => by rw [he]
    · cases h

theorem lasts_arrayRun (title : String) (arity : Nat) {fs : List Field}
    (hs : ∀ f ∈ fs, Extends f.format.reader.run) (hf : ∀ f ∈ fs, Lasts f.format.reader.run)
    (i : Nat) : Lasts (arrayRun title arity fs i) := by
  intro t c h s
  induction fs generalizing i t with
  | nil =>
    simp only [arrayRun] at h
    exact absurd h (proper_map (proper_closing t) _ c)
  | cons f fs ih =>
    obtain ⟨hs, hss⟩ := List.forall_mem_cons.1 hs
    obtain ⟨hf, hfs⟩ := List.forall_mem_cons.1 hf
    simp only [arrayRun] at h ⊢
    split at h
    · next he =>
      cases h
      exact absurd he (proper_nextItem _ _ c)
    · next hn =>
      rw [nextItem_append hn]
      cases hd : defaults title arity (f :: fs) i with
      | error e =>
        rw [hd] at h
        cases h
        exact .of_eq (by simp only [Sum.map_inl]; rfl)
      | ok row =>
        rw [hd] at h
        cases h
    · next t' hn =>
      rw [nextItem_append hn]
      simp only [Sum.map_inr]
      split at h
      · next he =>
        cases h
        exact (hf he s).through fun e he => by rw [he]
      · next v r hv =>
        split at h
        · next he =>
          cases h
          have hfit : Fits r s := by
            rintro rfl
            cases fs <;> cases he
          simp only [hs hv hfit]
          exact (ih hss hfs _ he).through fun e he => by rw [he]
        · cases h

theorem row_firm (title : String) {fs : List Field} (hs : ∀ f ∈ fs, f.format.Steady)
    (hf : ∀ f ∈ fs, f.format.Firm) : (Format.row title fs).Firm where
  empty := rfl
  lasts := by
    refine lasts_of_head title (fun d => d = '{' ∨ d = '[') ?_ ?_ ?_
    · intro t hb
      change rowRun title fs t = _
      rw [rowRun, hb]
      rfl
    · intro t d u hb hd
      change rowRun title fs t = _
      rw [rowRun, hb]
      split
      · next he => exact absurd (.inl (List.cons.inj he).1) hd
      · next he => exact absurd (.inr (List.cons.inj he).1) hd
      · rfl
    · intro t d u hb hd c h s
      change rowRun title fs t = _ at h
      change Persists s c (rowRun title fs (t ++ s))
      have hx : ∀ f ∈ fs, Extends f.format.reader.run := fun f hm => (hs f hm).stops
      have hl : ∀ f ∈ fs, Lasts f.format.reader.run := fun f hm => (hf f hm).lasts
      obtain rfl | rfl := hd
      · rw [rowRun, hb] at h
        rw [rowRun, afterBlanks_append_of_cons hb]
        simp only at h ⊢
        split at h
        · next he =>
          cases h
          have hm : Lasts (members fs).run :=
            lasts_loop (extends_membersRun hx) (lasts_membersRun hl) (fun x c hc => by cases hc) _
          exact (hm he s).through fun e he => by rw [he]
        · next d r hm =>
          rw [bounded_members hx hm s]
          cases hc : d.complete fs with
          | error e =>
            rw [hc] at h
            cases h
            exact .of_eq (by simp only [hc]; rfl)
          | ok row =>
            rw [hc] at h
            cases h
      · rw [rowRun, hb] at h
        rw [rowRun, afterBlanks_append_of_cons hb]
        exact lasts_arrayRun title fs.length hx hl 0 h s

theorem Composed.firm {f : Format α} (h : Composed f) : f.Firm := by
  induction h with
  | text expected => exact text_firm expected
  | checked expected check value _ =>
    exact (text_firm expected).refine (bounded_textRun expected) check value
  | flag => exact flag_firm
  | int32 => exact int32_firm
  | list hf ih => exact list_firm hf.steady ih
  | optional hf _ ih => exact optional_firm hf.steady ih
  | map _ of value _ ih => exact ih.map of value
  | row title hf _ _ ih => exact row_firm title (fun f hm => (hf f hm).steady) ih

end PipelineCache.Json

import PipelineCache.Proofs.Json.Record
import PipelineCache.Proofs.Json.Extension

/-! Formats whose reader takes a value out of any text that it stands in: blanks in front are passed
over, no closing bracket is taken for a value, and reading stops where the value ends. All formats of
fields and records are such. -/
namespace PipelineCache.Json
variable {α β : Type}

structure Format.Steady (f : Format α) : Prop where
  blanks : ∀ t, f.reader.run (afterBlanks t) = f.reader.run t
  bracket : ∀ t x, f.reader.run (']' :: t) ≠ .ok x
  stops : Extends f.reader.run

theorem afterBlanks_afterBlanks (t : List Char) : afterBlanks (afterBlanks t) = afterBlanks t := by
  induction t with
  | nil => rfl
  | cons c t ih =>
    by_cases hc : isBlank c <;> simp_all [afterBlanks]

theorem text_steady (expected : String) : (Format.text expected).Steady where
  blanks t := by
    change textRun expected _ = textRun expected t
    simp only [textRun, afterBlanks_afterBlanks]
  bracket t x h := by cases h
  stops := (bounded_textRun expected).extends

theorem flag_steady : Format.flag.Steady where
  blanks t := by
    change flagRun _ = flagRun t
    simp only [flagRun, afterBlanks_afterBlanks]
  bracket t x h := by cases h
  stops := extends_flagRun

theorem int32_steady : Format.int32.Steady where
  blanks t := by
    change int32Run _ = int32Run t
    simp only [int32Run, afterBlanks_afterBlanks]
  bracket t x h := by cases h
  stops := extends_int32Run

theorem list_steady {f : Format α} (h : f.Steady) : (Format.list f).Steady where
  blanks t := by
    change listRun f.reader _ = listRun f.reader t
    simp only [listRun, afterBlanks_afterBlanks]
  bracket t x h := by cases h
  stops := (bounded_listRun h.stops).extends

theorem Reader.run_check_ne {p : Reader α} {t : List Char} (h : ∀ x, p.run t ≠ .ok x)
    (f : α → Except Fault β) (x : β × List Char) : (p.check f).run t ≠ .ok x := by
  intro hc
  simp only [check] at hc
  split at hc
  · cases hc
  · next hp => exact h _ hp

theorem Format.Steady.refine {f : Format α} (h : f.Steady) (check : α → Except Fault β)
    (value : β → α) : (f.refine check value).Steady where
  blanks t := by
    change (f.reader.check check).run _ = (f.reader.check check).run t
    simp only [Reader.check, h.blanks]
  bracket t := Reader.run_check_ne (h.bracket t) check
  stops := extends_check h.stops check

theorem Format.Steady.map {f : Format α} (h : f.Steady) (of : α → β) (value : β → α) :
    (f.map of value).Steady := h.refine _ value

theorem optional_steady {f : Format α} (h : f.Steady) : (Format.optional f).Steady where
  blanks t := by
    change optionalRun f.reader _ = optionalRun f.reader t
    simp only [optionalRun, afterBlanks_afterBlanks, Reader.map, Reader.check, h.blanks]
  bracket t x := by
    change (f.reader.map some).run (']' :: t) ≠ .ok x
    exact Reader.run_check_ne (h.bracket t) _ x
  stops := extends_optionalRun h.stops h.blanks

theorem extends_memberValue {p : Reader α} (hp : Extends p.run) : Extends (memberValue p) := by
  intro t r s a h hs
  unfold memberValue at h
  split at h
  · cases h
  · next hc =>
    simp only [memberValue, Place.colon_extends hc, hp h hs]

theorem Draft.not_mem_of_enter {fs : List Field} {d : Draft fs} {name : String} {t : List Char}
    (h : d.enter fs name t = none) : name ∉ names fs := by
  induction fs with
  | nil => simp [names]
  | cons f fs ih =>
    obtain ⟨v, d⟩ := d
    simp only [Draft.enter] at h
    split at h
    · split at h
      · cases h
      · split at h <;> cases h
    · next hn =>
      split at h
      · next he =>
        rw [names, List.map_cons, List.mem_cons, not_or]
        exact ⟨hn, ih he⟩
      · cases h
      · cases h

theorem Draft.enter_append {fs : List Field} (hf : ∀ f ∈ fs, Extends f.format.reader.run)
    {d d' : Draft fs} {name : String} {t r s : List Char}
    (h : d.enter fs name t = some (.ok (d', r))) (hs : Fits r s) :
    d.enter fs name (t ++ s) = some (.ok (d', r ++ s)) := by
  induction fs with
  | nil => cases h
  | cons f fs ih =>
    obtain ⟨v, d⟩ := d
    obtain ⟨hf, hfs⟩ := List.forall_mem_cons.1 hf
    simp only [Draft.enter] at h ⊢
    split at h
    · next hn =>
      rw [if_pos hn]
      split at h
      · cases h
      · next hv =>
        rw [if_neg hv]
        split at h
        · cases h
        · next hm =>
          cases h
          simp only [extends_memberValue hf hm hs]
    · next hn =>
      rw [if_neg hn]
      split at h
      · cases h
      · cases h
      · next he =>
        cases h
        simp only [ih hfs he]

theorem extends_memberRun {fs : List Field} (hf : ∀ f ∈ fs, Extends f.format.reader.run)
    (d : Draft fs) : Extends (memberRun fs d) := by
  intro t r s d' h hs
  unfold memberRun at h
  split at h
  · cases h
  · next name r' hb =>
    split at h
    · next he =>
      subst h
      simp only [memberRun, Text.bounded_body hb s, Draft.enter_append hf he hs]
    · next he =>
      split at h
      · cases h
      · next hm =>
        cases h
        simp only [memberRun, Text.bounded_body hb s,
          Draft.enter_of_not_mem (Draft.not_mem_of_enter he),
          extends_memberValue extends_skipValue hm hs]

theorem nextMember_append {first : Bool} {t : List Char} {x : List Char ⊕ List Char}
    (h : nextMember first t = .ok x) (s : List Char) :
    nextMember first (t ++ s) = .ok (x.map (· ++ s) (· ++ s)) := by
  unfold nextMember at h
  split at h
  · cases h
  · next hb =>
    cases h
    rw [nextMember, afterBlanks_append_of_cons hb]
    rfl
  · next hb =>
    rw [nextMember, afterBlanks_append_of_cons hb]
    cases first <;> cases h
    rfl
  · next hb =>
    rw [nextMember, afterBlanks_append_of_cons hb]
    cases first
    · simp only [Bool.false_eq_true, if_false] at h ⊢
      split at h
      · cases h
      · next hq =>
        cases h
        rw [afterBlanks_append_of_cons hq]
        rfl
      · cases h
    · cases h
  · cases h

theorem extends_membersRun {fs : List Field} (hf : ∀ f ∈ fs, Extends f.format.reader.run)
    (x : Draft fs × Bool) : Extends (membersRun fs x) := by
  intro t r s y h hs
  unfold membersRun at h
  split at h
  · cases h
  · next hn =>
    cases h
    simp only [membersRun, nextMember_append hn]
    rfl
  · next hn =>
    split at h
    · cases h
    · next hm =>
      cases h
      have hn := nextMember_append hn s
      simp only [Sum.map_inr] at hn
      simp only [membersRun, hn, extends_memberRun hf _ hm hs]

theorem bounded_members {fs : List Field} (hf : ∀ f ∈ fs, Extends f.format.reader.run) :
    Bounded (members fs).run := by
  refine bounded_loop (extends_membersRun hf) (fun x t r d h s => ?_) _
  change membersRun fs x t = _ at h
  change membersRun fs x (t ++ s) = _
  unfold membersRun at h
  split at h
  · cases h
  · next hn =>
    cases h
    simp only [membersRun, nextMember_append hn]
    rfl
  · split at h <;> cases h

theorem closing_append {t r : List Char} (h : closing t = .ok r) (s : List Char) :
    closing (t ++ s) = .ok (r ++ s) := by
  unfold closing at h
  split at h
  · cases h
  · next hb =>
    cases h
    rw [closing, afterBlanks_append_of_cons hb]
    rfl
  · cases h

theorem bounded_arrayRun (title : String) (arity : Nat) {fs : List Field}
    (hf : ∀ f ∈ fs, Extends f.format.reader.run) (i : Nat) :
    Bounded (arrayRun title arity fs i) := by
  intro t r row h s
  induction fs generalizing i t with
  | nil =>
    simp only [arrayRun] at h ⊢
    obtain ⟨r', hc, he⟩ := exists_of_map_eq_ok h
    cases he
    rw [closing_append hc]
    rfl
  | cons f fs ih =>
    obtain ⟨hf, hfs⟩ := List.forall_mem_cons.1 hf
    simp only [arrayRun] at h ⊢
    split at h
    · cases h
    · next hn =>
      rw [nextItem_append hn]
      obtain ⟨row', hd, he⟩ := exists_of_map_eq_ok h
      cases he
      simp only [Sum.map_inl, hd]
      rfl
    · next t' hn =>
      rw [nextItem_append hn]
      simp only [Sum.map_inr]
      split at h
      · cases h
      · next r' hv =>
        split at h
        · cases h
        · next hr =>
          cases h
          have hfit : Fits r' s := by
            rintro rfl
            cases length_arrayRun hr
          simp only [hf hv hfit, ih hfs _ hr]

theorem bounded_rowRun (title : String) {fs : List Field}
    (hf : ∀ f ∈ fs, Extends f.format.reader.run) : Bounded (rowRun title fs) := by
  intro t r row h s
  unfold rowRun at h
  split at h
  · next hb =>
    rw [rowRun, afterBlanks_append_of_cons hb]
    split at h
    · cases h
    · next hm =>
      obtain ⟨row', hc, he⟩ := exists_of_map_eq_ok h
      cases he
      simp only [bounded_members hf hm s, hc]
      rfl
  · next hb =>
    rw [rowRun, afterBlanks_append_of_cons hb]
    exact bounded_arrayRun title _ hf 0 h s
  · cases h

theorem row_steady (title : String) {fs : List Field} (hf : ∀ f ∈ fs, f.format.Steady) :
    (Format.row title fs).Steady where
  blanks t := by
    change rowRun title fs _ = rowRun title fs t
    simp only [rowRun, afterBlanks_afterBlanks]
  bracket t x h := by cases h
  stops := (bounded_rowRun title fun f hm => (hf f hm).stops).extends

theorem blanks_of_afterBlanks {t : List Char} (h : (afterBlanks t).isEmpty) : Blanks t := by
  rw [List.isEmpty_iff, afterBlanks] at h
  have ht := List.takeWhile_append_dropWhile (p := isBlank) (l := t)
  rw [h, List.append_nil] at ht
  intro c hc
  rw [← ht] at hc
  exact List.all_eq_true.1 List.all_takeWhile c hc

theorem Format.run_of_decode {f : Format α} {t : String} {a : α} (h : f.decode t = .ok a) :
    ∃ r, f.reader.run t.toList = .ok (a, r) ∧ Blanks r := by
  rw [Format.decode] at h
  split at h
  · cases h
  · next r hr =>
    split at h
    · next hb =>
      cases h
      exact ⟨r, hr, blanks_of_afterBlanks hb⟩
    · cases h

theorem Format.run_of_misfit {f : Format α} {t : String} {c : Misfit}
    (h : f.decode t = .error (.misfit c)) : f.reader.run t.toList = .error (.misfit c) := by
  rw [Format.decode] at h
  split at h
  · next he =>
    cases h
    exact he
  · split at h <;> cases h

namespace Format.Steady
variable {f : Format α} (h : f.Steady)
include h

theorem run_blanks {b : List Char} (hb : Blanks b) (t : List Char) :
    f.reader.run (b ++ t) = f.reader.run t := by
  rw [← h.blanks, afterBlanks_append b t hb, h.blanks]

theorem opens {t r : List Char} {a : α} (ht : f.reader.run t = .ok (a, r)) :
    Opens (afterBlanks t) := by
  rw [← h.blanks] at ht
  cases hb : afterBlanks t with
  | nil =>
    rw [hb] at ht
    exact absurd ht (Reader.run_nil_ne _ _)
  | cons c u =>
    have hc := List.head?_dropWhile_not isBlank t
    rw [afterBlanks] at hb
    rw [hb] at hc
    refine ⟨c, u, rfl, hc, ?_⟩
    rintro rfl
    rw [afterBlanks, hb] at ht
    exact h.bracket u _ ht

/-- A text that decodes holds a value between blanks, which is read wherever it stands. -/
theorem exists_value {t : String} {a : α} (ht : f.decode t = .ok a) :
    ∃ b v b', t.toList = b ++ v ∧ Blanks b ∧ Opens v ∧ Blanks b' ∧
      ∀ s, Delimited s → f.reader.run (v ++ s) = .ok (a, b' ++ s) := by
  obtain ⟨b', hr, hb'⟩ := run_of_decode ht
  have hb : Blanks (t.toList.takeWhile isBlank) := List.all_eq_true.1 List.all_takeWhile
  refine ⟨_, afterBlanks t.toList, b', List.takeWhile_append_dropWhile.symm, hb, h.opens hr, hb',
    fun s hs => ?_⟩
  rw [← h.blanks] at hr
  exact h.stops hr fun _ => hs

end Format.Steady

end PipelineCache.Json

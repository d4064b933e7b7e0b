import PipelineCache.Proofs.Json.Walk
import PipelineCache.Proofs.Json.Passing

/-! The first problem of an object in the order of its text. A member offends when its field has been
read before or its value does not fit by itself; a field that has to be given and is not is missed
only where no member offends. -/
namespace PipelineCache.Json
variable {α β : Type}

def fault? : Except Fault α → Option Fault
  | .error e => some e
  | .ok _ => none

theorem fault?_map (x : Except Fault α) (f : α → β) : fault? (x.map f) = fault? x := by
  cases x <;> rfl

theorem fault?_eq_some {x : Except Fault α} {e : Fault} : fault? x = some e ↔ x = .error e := by
  cases x <;> simp [fault?]

theorem fault?_eq_none {x : Except Fault α} : fault? x = none ↔ ∃ a, x = .ok a := by
  cases x <;> simp [fault?]

/-- What is wrong with a member, given the names before it. Nothing is where no field has its name.
-/
def offence? (fs : List Field) (before : List String) (m : Member) : Option Fault :=
  match fs.find? (·.name = m.1) with
  | none => none
  | some f =>
    if m.1 ∈ before then some (.misfit (.duplicate m.1))
    else fault? (f.format.decode (String.ofList m.2))

def firstOffence? (fs : List Field) : List String → List Member → Option Fault
  | _, [] => none
  | before, m :: ms => (offence? fs before m).or (firstOffence? fs (before ++ [m.1]) ms)

/-- The first field, in their order, that has no default and is not among the names given. -/
def firstAbsent? (fs : List Field) (given : List String) : Option Field :=
  fs.find? fun f => f.absent.isNone ∧ f.name ∉ given

def firstProblem? (fs : List Field) (ms : List Member) : Option Fault :=
  (firstOffence? fs [] ms).or
    ((firstAbsent? fs (ms.map Prod.fst)).map fun f => .misfit (.missing f.name))

theorem offence?_cons_self {f : Field} {m : Member} (hm : m.1 = f.name) (fs : List Field)
    (before : List String) : offence? (f :: fs) before m =
      if m.1 ∈ before then some (.misfit (.duplicate m.1))
      else fault? (f.format.decode (String.ofList m.2)) := by
  simp [offence?, hm]

theorem offence?_cons_of_ne {f : Field} {m : Member} (hm : m.1 ≠ f.name) (fs : List Field)
    (before : List String) : offence? (f :: fs) before m = offence? fs before m := by
  simp [offence?, hm.symm]

/-- The fields that a draft holds are those of the names given. -/
def Draft.Holds : (fs : List Field) → Draft fs → List String → Prop
  | [], _, _ => True
  | f :: fs, (v, d), given => (v.isSome ↔ f.name ∈ given) ∧ Holds fs d given

theorem Draft.holds_empty (fs : List Field) : Draft.Holds fs (Draft.empty fs) [] := by
  induction fs with
  | nil => trivial
  | cons f fs ih => exact ⟨by simp, ih⟩

theorem Draft.holds_append {fs : List Field} {d : Draft fs} {given : List String} {name : String}
    (h : Draft.Holds fs d given) (hm : name ∉ names fs) : Draft.Holds fs d (given ++ [name]) := by
  induction fs with
  | nil => trivial
  | cons f fs ih =>
    obtain ⟨v, d⟩ := d
    simp only [names, List.map_cons, List.mem_cons, not_or] at hm
    refine ⟨h.1.trans ?_, ih h.2 hm.2⟩
    simp [Ne.symm hm.1]

theorem Draft.offer_holds {fs : List Field} (hn : (names fs).Nodup) {d : Draft fs}
    {before : List String} (h : Draft.Holds fs d before) (m : Member) :
    fault? (Draft.offer fs d m) = offence? fs before m ∧
      ∀ d', Draft.offer fs d m = .ok d' → Draft.Holds fs d' (before ++ [m.1]) := by
  induction fs with
  | nil => exact ⟨rfl, fun _ _ => trivial⟩
  | cons f fs ih =>
    obtain ⟨v, d⟩ := d
    obtain ⟨hv, hd⟩ := h
    simp only [names, List.map_cons, List.nodup_cons] at hn
    by_cases hm : m.1 = f.name
    · rw [offence?_cons_self hm, Draft.offer, if_pos hm]
      cases v with
      | some a =>
        have hb : m.1 ∈ before := hm ▸ hv.1 rfl
        rw [if_pos hb]
        exact ⟨by simp [fault?, hm], fun d' h => by simp at h⟩
      | none =>
        have hb : m.1 ∉ before := fun hb => by simpa using hv.2 (hm ▸ hb)
        rw [if_neg hb]
        refine ⟨fault?_map _ _, fun d' h => ?_⟩
        obtain ⟨a, -, rfl⟩ := exists_of_map_eq_ok h
        exact ⟨by simp [hm], Draft.holds_append hd (hm ▸ hn.1)⟩
    · rw [offence?_cons_of_ne hm, Draft.offer, if_neg hm]
      obtain ⟨he, hi⟩ := ih hn.2 hd
      refine ⟨(fault?_map _ _).trans he, fun d' h => ?_⟩
      obtain ⟨d', hd', rfl⟩ := exists_of_map_eq_ok h
      refine ⟨hv.trans ?_, hi d' hd'⟩
      simp [Ne.symm hm]

/-- The members are taken up to the first that offends. -/
theorem Draft.offerAll_holds {fs : List Field} (hn : (names fs).Nodup) {d : Draft fs}
    {before : List String} (h : Draft.Holds fs d before) (ms : List Member) :
    fault? (Draft.offerAll fs d ms) = firstOffence? fs before ms ∧
      ∀ d', Draft.offerAll fs d ms = .ok d' → Draft.Holds fs d' (before ++ ms.map Prod.fst) := by
  induction ms generalizing d before with
  | nil =>
    refine ⟨rfl, ?_⟩
    rintro d' ⟨⟩
    rwa [List.map_nil, List.append_nil]
  | cons m ms ih =>
    obtain ⟨he, hm⟩ := Draft.offer_holds hn h m
    rw [Draft.offerAll, firstOffence?, ← he]
    cases ho : Draft.offer fs d m with
    | error e => exact ⟨rfl, fun d' h => by cases h⟩
    | ok d' =>
      obtain ⟨he, hi⟩ := ih (hm d' ho)
      rw [List.append_assoc] at hi
      exact ⟨he, hi⟩

theorem Draft.offerAll_of_offence {fs : List Field} (hn : (names fs).Nodup) {ms : List Member}
    {e : Fault} (h : firstOffence? fs [] ms = some e) :
    Draft.offerAll fs (Draft.empty fs) ms = .error e :=
  fault?_eq_some.1 ((Draft.offerAll_holds hn (Draft.holds_empty fs) ms).1.trans h)

theorem Draft.exists_offerAll {fs : List Field} (hn : (names fs).Nodup) {ms : List Member}
    (h : firstOffence? fs [] ms = none) : ∃ d, Draft.offerAll fs (Draft.empty fs) ms = .ok d ∧
      Draft.Holds fs d (ms.map Prod.fst) := by
  obtain ⟨he, hm⟩ := Draft.offerAll_holds hn (Draft.holds_empty fs) ms
  obtain ⟨d, hd⟩ := fault?_eq_none.1 (he.trans h)
  exact ⟨d, hd, hm d hd⟩

theorem Draft.complete_holds {fs : List Field} {d : Draft fs} {given : List String}
    (h : Draft.Holds fs d given) : fault? (Draft.complete fs d) =
      (firstAbsent? fs given).map fun f => .misfit (.missing f.name) := by
  induction fs with
  | nil => rfl
  | cons f fs ih =>
    obtain ⟨v, d⟩ := d
    obtain ⟨hv, hd⟩ := h
    have ih := ih hd
    simp only [firstAbsent?, Draft.complete] at ih ⊢
    cases hx : v.or f.absent with
    | none =>
      obtain ⟨rfl, ha⟩ := Option.or_eq_none_iff.1 hx
      have hg : f.name ∉ given := fun hg => by simpa using hv.2 hg
      rw [List.find?_cons_of_pos (by simp [ha, hg])]
      rfl
    | some a =>
      have hp : ¬ (f.absent.isNone ∧ f.name ∉ given) := by
        rintro ⟨ha, hg⟩
        rw [Option.isNone_iff_eq_none] at ha
        cases v with
        | none => simp [ha] at hx
        | some a => exact hg (hv.1 rfl)
      rw [List.find?_cons_of_neg (by simpa using hp), ← ih]
      cases Draft.complete fs d <;> rfl

theorem Draft.fault?_offerAll_complete {fs : List Field} (hn : (names fs).Nodup)
    (ms : List Member) :
    fault? ((Draft.offerAll fs (Draft.empty fs) ms).bind (Draft.complete fs)) =
      firstProblem? fs ms := by
  obtain ⟨he, hm⟩ := Draft.offerAll_holds hn (Draft.holds_empty fs) ms
  rw [firstProblem?, ← he]
  cases ho : Draft.offerAll fs (Draft.empty fs) ms with
  | error e => rfl
  | ok d => exact Draft.complete_holds (hm d ho)

/-- An object up to the comma behind the members that are given. -/
inductive Object.Front (ms : List Member) : List Char → Prop
  | mk {b t : List Char} (hb : Blanks b) (ht : Leading t ms) : Front ms (b ++ '{' :: t)

/-- A member up to its colon. -/
inductive Member.Named (name : String) : List Char → Prop
  | mk {b n b' : List Char} (hb : Blanks b) (hn : Text.Spelled n name.toList) (hb' : Blanks b') :
      Named name (b ++ '"' :: (n ++ '"' :: (b' ++ [':'])))

theorem nextMember_undelimited {r : List Char} (h : ¬ Delimited r) :
    nextMember false r = .error .malformed := by
  cases r with
  | nil => exact absurd delimited_nil h
  | cons c u =>
    have hc : ¬ (isBlank c ∨ c = ',' ∨ c = ']' ∨ c = '}') := fun hc => h (delimited_cons hc)
    simp only [not_or, Bool.not_eq_true] at hc
    have hb := afterBlanks_cons_of_not blanks_nil hc.1 u
    rw [List.nil_append] at hb
    rw [nextMember, hb]
    split
    · next he => cases he
    · next he => exact absurd (List.cons.inj he).1 hc.2.2.2
    · rfl
    · next he => exact absurd (List.cons.inj he).1 hc.2.1
    · rfl

theorem memberRun_unknown {fs : List Field} {n : List Char} {name : String}
    (hn : Text.Spelled n name.toList) (hk : name ∉ names fs) {b : List Char} (hb : Blanks b)
    (d : Draft fs) (x : List Char) : memberRun fs d (n ++ '"' :: (b ++ ':' :: x)) =
      (skipValue.run x).map fun y => (d, y.2) := by
  simp only [memberRun, Text.body_spelled hn, Draft.enter_of_not_mem hk, memberValue_colon hb]
  cases skipValue.run x <;> rfl

theorem Proper.cases {x : Except Fault α} (h : Proper x) {e : Fault} (he : x = .error e) :
    e = .malformed ∨ e = .truncated := by
  cases e with
  | malformed => exact .inl rfl
  | truncated => exact .inr rfl
  | misfit c => exact absurd he (h c)

/-- A member of an unknown name that no value follows ends the reading. -/
theorem repeated_member_unknown {fs : List Field} {t : List Char} {name : String}
    (ht : Member.Named name t) (hk : name ∉ names fs) {x : List Char} (hx : ¬ HoldsValue x) :
    ∃ e, (e = .malformed ∨ e = .truncated) ∧ ∀ (d : Draft fs) first l, Comma first l →
      repeated (fun s => ⟨membersRun fs s, length_membersRun⟩) (d, first) (l ++ (t ++ x)) =
        .error e := by
  cases ht with
  | @mk b n b' hb hn hb' =>
    have hstep (d : Draft fs) {first : Bool} {l : List Char} (hl : Comma first l) :
        membersRun fs (d, first) (l ++ (b ++ '"' :: (n ++ '"' :: (b' ++ [':'])) ++ x)) =
          (skipValue.run x).map fun y => (.inl (d, false), y.2) := by
      simp only [List.append_assoc, List.cons_append, List.nil_append, membersRun,
        nextMember_quote hl hb, memberRun_unknown hn hk hb']
      cases skipValue.run x <;> rfl
    cases hs : skipValue.run x with
    | error e =>
      rw [hs] at hstep
      exact ⟨e, (proper_skipValue x).cases hs, fun d first l hl => repeated_error (hstep d hl)⟩
    | ok y =>
      obtain ⟨_, r⟩ := y
      have hr : ¬ Delimited r := fun hr => hx (holdsValue_iff.2 ⟨_, by rw [hs]; rfl, hr⟩)
      rw [hs] at hstep
      refine ⟨.malformed, .inl rfl, fun d first l hl => ?_⟩
      refine (repeated_inl (hstep d hl)).trans (repeated_error ?_)
      change membersRun fs (d, false) r = _
      rw [membersRun, nextMember_undelimited hr]

theorem Draft.enter_free {fs : List Field} (hn : (names fs).Nodup) {d : Draft fs}
    {given : List String} (h : Draft.Holds fs d given) {f : Field} (hf : f ∈ fs)
    (hg : f.name ∉ given) : ∃ put : f.Value → Draft fs, ∀ t, d.enter fs f.name t =
      some ((memberValue f.format.reader t).map fun x => (put x.1, x.2)) := by
  induction fs with
  | nil => cases hf
  | cons g fs ih =>
    obtain ⟨v, d⟩ := d
    obtain ⟨hv, hd⟩ := h
    simp only [names, List.map_cons, List.nodup_cons] at hn
    obtain rfl | hf := List.mem_cons.1 hf
    · obtain rfl : v = none := by simpa [hg] using hv
      refine ⟨fun a => (some a, d), fun t => ?_⟩
      simp only [Draft.enter, if_true, Option.isSome_none, Bool.false_eq_true, if_false]
      cases memberValue f.format.reader t <;> rfl
    · have hne : f.name ≠ g.name := fun he => hn.1 (he ▸ List.mem_map_of_mem hf)
      obtain ⟨put, he⟩ := ih hn.2 hd hf
      refine ⟨fun a => (v, put a), fun t => ?_⟩
      simp only [Draft.enter, if_neg hne, he]
      cases memberValue f.format.reader t <;> rfl

/-- What is wrong with the text of a field that has not been read ends the reading. -/
theorem repeated_member_field {fs : List Field} (hn : (names fs).Nodup) {d : Draft fs}
    {given : List String} (h : Draft.Holds fs d given) {f : Field} (hf : f ∈ fs)
    (hg : f.name ∉ given) {t x : List Char} (ht : Member.Named f.name t) {e : Fault}
    (hx : f.format.reader.run x = .error e) {first : Bool} {l : List Char} (hl : Comma first l) :
    repeated (fun s => ⟨membersRun fs s, length_membersRun⟩) (d, first) (l ++ (t ++ x)) =
      .error e := by
  cases ht with
  | mk hb hs hb' =>
    obtain ⟨put, he⟩ := Draft.enter_free hn h hf hg
    apply repeated_error
    simp only [List.append_assoc, List.cons_append, List.nil_append]
    simp only [membersRun, nextMember_quote hl hb, memberRun, Text.body_spelled hs, he,
      memberValue_colon hb', hx, Except.map]

theorem rowRun_curly {title : String} {fs : List Field} {b : List Char} (hb : Blanks b)
    (u : List Char) : rowRun title fs (b ++ '{' :: u) =
      ((members fs).run u).bind fun y => (y.1.complete fs).map fun row => (row, y.2) := by
  simp only [rowRun, afterBlanks_cons_of_not hb (rfl : isBlank '\x7b' = false)]
  cases (members fs).run u <;> rfl

section
variable {title : String} {fs : List Field} (hf : ∀ f ∈ fs, f.format.Judges)
include hf

theorem rowRun_object {b v : List Char} {ms : List Member} (hb : Blanks b) (hv : Object v ms)
    (hw : ∀ m ∈ ms, WellFormed none m.2) (r : List Char) :
    rowRun title fs (b ++ (v ++ r)) =
      ((Draft.offerAll fs (Draft.empty fs) ms).bind (Draft.complete fs)).map
        fun row => (row, r) := by
  cases hv with
  | @empty b' hb' =>
    have hm : (members fs).run (b' ++ '}' :: r) = .ok (Draft.empty fs, r) :=
      repeated_member_closing hb' _ r
    rw [List.cons_append, List.append_assoc, rowRun_curly hb]
    exact congrArg (Except.bind · _) hm
  | @full t ms hs =>
    have hm : (members fs).run (t ++ '}' :: r) = _ :=
      repeated_member_all hf hs hw (Draft.empty fs) .first r
    rw [List.cons_append, List.append_assoc, rowRun_curly hb]
    refine (congrArg (Except.bind · _) hm).trans ?_
    cases Draft.offerAll fs (Draft.empty fs) ms <;> rfl

variable {t : List Char} {ms : List Member} (ht : Object.Front ms t)
  (hw : ∀ m ∈ ms, WellFormed none m.2)
include ht hw

theorem rowRun_front : ∃ first l, Comma first l ∧ ∀ more,
    rowRun title fs (t ++ more) = (Draft.offerAll fs (Draft.empty fs) ms).bind fun d =>
      (repeated (fun s => ⟨membersRun fs s, length_membersRun⟩) (d, first) (l ++ more)).bind
        fun y => (y.1.complete fs).map fun row => (row, y.2) := by
  cases ht with
  | @mk b t hb ht =>
    obtain ⟨first, l, hl, hm⟩ := repeated_member_leading hf ht hw .first
    refine ⟨first, l, hl, fun more => ?_⟩
    rw [List.append_assoc, List.cons_append, rowRun_curly hb]
    refine (congrArg (Except.bind · _) (hm (Draft.empty fs) more)).trans ?_
    cases Draft.offerAll fs (Draft.empty fs) ms <;> rfl

variable (hn : (names fs).Nodup)
include hn

/-- A member that offends decides, whatever is behind its comma. -/
theorem rowRun_offence {e : Fault} (h : firstOffence? fs [] ms = some e) (more : List Char) :
    rowRun title fs (t ++ more) = .error e := by
  obtain ⟨first, l, hl, hm⟩ := rowRun_front hf ht hw
  rw [hm, Draft.offerAll_of_offence hn h]
  rfl

/-- Where no member offends, what is wrong with the next one decides. -/
theorem rowRun_next (h : firstOffence? fs [] ms = none) {more : List Char} {e : Fault}
    (hm : ∀ (d : Draft fs) first l, Draft.Holds fs d (ms.map Prod.fst) → Comma first l →
      repeated (fun s => ⟨membersRun fs s, length_membersRun⟩) (d, first) (l ++ more) = .error e) :
    rowRun title fs (t ++ more) = .error e := by
  obtain ⟨first, l, hl, hrun⟩ := rowRun_front hf ht hw
  obtain ⟨d, hd, hholds⟩ := Draft.exists_offerAll hn h
  rw [hrun, hd]
  change Except.bind (repeated _ (d, first) _) _ = _
  rw [hm d first l hholds hl]
  rfl

end

theorem Object.opens {t : List Char} {ms : List Member} (ht : Object.padded t ms) :
    ∃ u, afterBlanks t = '{' :: u := by
  obtain ⟨b, v, b', hb, -, hv, rfl⟩ := ht
  cases hv with
  | empty => exact ⟨_, afterBlanks_cons_of_not hb rfl _⟩
  | full => exact ⟨_, afterBlanks_cons_of_not hb rfl _⟩

theorem Object.Front.opens {t : List Char} {ms : List Member} (ht : Object.Front ms t)
    (more : List Char) : ∃ u, afterBlanks (t ++ more) = '{' :: u := by
  cases ht with
  | mk hb =>
    rw [List.append_assoc]
    exact ⟨_, afterBlanks_cons_of_not hb rfl _⟩

end PipelineCache.Json

import PipelineCache.Proofs.Json.Settled
import PipelineCache.Proofs.Json.Forms

/-! Objects walked from member to member. Each member is taken by the draft of the fields read so
far, or is wrong by itself, whatever stands behind it; so a row, too, is settled by its own text. -/
namespace PipelineCache.Json
variable {α : Type}

/-- A well-formed value is read, in any place, as it is by itself. -/
def Format.Judges (f : Format α) : Prop :=
  ∀ ⦃b v r : List Char⦄, Blanks b → WellFormed none v → Delimited r →
    f.reader.run (b ++ (v ++ r)) = (f.decode (String.ofList v)).map fun a => (a, r)

theorem Format.Steady.judges {f : Format α} (hf : f.Steady) (hs : Settles f.reader.run) :
    f.Judges := by
  intro b v r hb hv hr
  obtain ⟨x, hx⟩ := hs hv
  have hd : f.decode (String.ofList v) = x := by
    have h := hx [] delimited_nil
    rw [List.append_nil] at h
    rw [Format.decode, String.toList_ofList, h]
    cases x <;> rfl
  rw [hf.run_blanks hb, hx r hr, hd]

/-- What becomes of a draft by a member, whose value is judged by itself. -/
def Draft.offer : (fs : List Field) → Draft fs → Member → Except Fault (Draft fs)
  | [], d, _ => .ok d
  | f :: fs, (v, d), m =>
    if m.1 = f.name then
      if v.isSome then .error (.misfit (.duplicate f.name))
      else (f.format.decode (String.ofList m.2)).map fun a => (some a, d)
    else (offer fs d m).map fun d => (v, d)

/-- What becomes of a draft by members one after the other, up to the first that is wrong. -/
def Draft.offerAll (fs : List Field) : Draft fs → List Member → Except Fault (Draft fs)
  | d, [] => .ok d
  | d, m :: ms => (offer fs d m).bind fun d => offerAll fs d ms

theorem Draft.offer_of_not_mem {fs : List Field} {name : String} (h : name ∉ names fs)
    (d : Draft fs) (v : List Char) : Draft.offer fs d (name, v) = .ok d := by
  induction fs with
  | nil => rfl
  | cons f fs ih =>
    obtain ⟨v, d⟩ := d
    simp only [names, List.map_cons, List.mem_cons, not_or] at h
    simp only [Draft.offer, if_neg h.1, ih h.2]
    rfl

theorem memberValue_colon {p : Reader α} {b : List Char} (hb : Blanks b) (t : List Char) :
    memberValue p (b ++ ':' :: t) = p.run t := by
  simp only [memberValue, Place.colon_append hb]

/-- Whole members at the front of an object, each with the comma behind it. -/
inductive Leading : Grammar (List Member)
  | nil : Leading [] []
  | cons {t s : List Char} {m : Member} {ms : List Member} (h : Member.Spelled t m)
      (hs : Leading s ms) : Leading (t ++ ',' :: s) (m :: ms)

/-- Members as they are written. -/
theorem leading_write (ms : List Member) :
    Leading (ms.flatMap fun m => Text.write m.1 ++ ':' :: m.2 ++ [',']) ms := by
  induction ms with
  | nil => exact .nil
  | cons m ms ih =>
    have h := Leading.cons (Member.spelled_write m) ih
    rwa [List.flatMap_cons, List.append_assoc, List.singleton_append]

section
variable {fs : List Field} (hf : ∀ f ∈ fs, f.format.Judges)
include hf

theorem Draft.enter_offer {name : String} (hm : name ∈ names fs) (d : Draft fs)
    {b c v r : List Char} (hb : Blanks b) (hc : Blanks c) (hv : WellFormed none v) (hr : Delimited r) :
    d.enter fs name (b ++ ':' :: (c ++ (v ++ r))) =
      some ((Draft.offer fs d (name, v)).map fun d => (d, r)) := by
  induction fs with
  | nil => cases hm
  | cons f fs ih =>
    obtain ⟨x, d⟩ := d
    obtain ⟨hff, hfs⟩ := List.forall_mem_cons.1 hf
    by_cases he : name = f.name
    · subst he
      cases x with
      | some a => simp [Draft.enter, Draft.offer, Except.map]
      | none =>
        simp only [Draft.enter, Draft.offer, memberValue_colon hb, hff hc hv hr, if_true,
          Option.isSome_none, Bool.false_eq_true, if_false]
        cases f.format.decode (String.ofList v) <;> rfl
    · have hm : name ∈ names fs := by
        simpa [names, he] using hm
      simp only [Draft.enter, Draft.offer, if_neg he, ih hfs hm d]
      cases Draft.offer fs d (name, v) <;> rfl

/-- A member is offered to the draft under the name that its spelling is read as. -/
theorem membersRun_offer {n : List Char} {name : String}
    (hn : ∀ r, Text.body.run (n ++ '"' :: r) = .ok (name, r)) (d : Draft fs) {first : Bool}
    {l b b' c v r : List Char} (hl : Comma first l) (hb : Blanks b) (hb' : Blanks b')
    (hc : Blanks c) (hv : WellFormed none v) (hr : Delimited r) :
    membersRun fs (d, first) (l ++ (b ++ '"' :: (n ++ '"' :: (b' ++ ':' :: (c ++ (v ++ r)))))) =
      (Draft.offer fs d (name, v)).map fun d => (.inl (d, false), r) := by
  simp only [membersRun, nextMember_quote hl hb, memberRun, hn]
  by_cases hk : name ∈ names fs
  · simp only [Draft.enter_offer hf hk d hb' hc hv hr]
    cases Draft.offer fs d (name, v) <;> rfl
  · have hs := memberValue_append hb' (skipValue_wellFormed hc hv hr)
    simp only [Draft.enter_of_not_mem hk, Draft.offer_of_not_mem hk, hs]
    rfl

theorem membersRun_member {t : List Char} {m : Member} (ht : Member.Spelled t m)
    (hv : WellFormed none m.2) : ∃ b, Blanks b ∧ ∀ d first l r, Comma first l → Delimited r →
      membersRun fs (d, first) (l ++ (t ++ r)) =
        (Draft.offer fs d m).map fun d => (.inl (d, false), b ++ r) := by
  cases ht with
  | @mk b n b' c v c' name hb hn hb' hc hc' =>
    refine ⟨c', hc', fun d first l r hl hr => ?_⟩
    simp only [List.append_assoc, List.cons_append]
    exact membersRun_offer hf (Text.body_spelled hn) d hl hb hb' hc hv (delimited_append hc' hr)

/-- All members of an object up to its closing brace. -/
theorem repeated_member_all {t : List Char} {ms : List Member} (ht : Separated Member.Spelled t ms)
    (hv : ∀ m ∈ ms, WellFormed none m.2) (d : Draft fs) {first : Bool} {l : List Char}
    (hl : Comma first l) (r : List Char) :
    repeated (fun s => ⟨membersRun fs s, length_membersRun⟩) (d, first) (l ++ (t ++ '}' :: r)) =
      (Draft.offerAll fs d ms).map fun d => (d, r) := by
  induction ht generalizing d first l with
  | @last t m hm =>
    obtain ⟨b, hb, hrun⟩ := membersRun_member hf hm (hv m List.mem_cons_self)
    have hx := hrun d first l _ hl (Bracket.delimited_closing .curly r)
    rw [repeated_map hx]
    change (Draft.offer fs d m).bind (fun d => repeated _ (d, false) (b ++ '}' :: r)) = _
    simp only [repeated_member_closing hb, Draft.offerAll]
    cases Draft.offer fs d m <;> rfl
  | @more t s m ms hm hs ih =>
    obtain ⟨b, hb, hrun⟩ := membersRun_member hf hm (hv m List.mem_cons_self)
    have hx := hrun d first l (',' :: (s ++ '}' :: r)) hl (delimited_cons (.inr (.inl rfl)))
    have ih (d : Draft fs) := ih (fun m hm => hv m (List.mem_cons_of_mem _ hm)) d (.next hb)
    simp only [List.append_assoc, List.cons_append, List.nil_append] at ih ⊢
    rw [repeated_map hx]
    simp only [ih, Draft.offerAll]
    cases Draft.offer fs d m <;> rfl

/-- The members at the front of an object, whatever is behind the last comma. -/
theorem repeated_member_leading {t : List Char} {ms : List Member} (ht : Leading t ms)
    (hv : ∀ m ∈ ms, WellFormed none m.2) {first : Bool} {l : List Char} (hl : Comma first l) :
    ∃ first' l', Comma first' l' ∧ ∀ d more,
      repeated (fun s => ⟨membersRun fs s, length_membersRun⟩) (d, first) (l ++ (t ++ more)) =
        (Draft.offerAll fs d ms).bind fun d =>
          repeated (fun s => ⟨membersRun fs s, length_membersRun⟩) (d, first') (l' ++ more) := by
  induction ht generalizing first l with
  | nil => exact ⟨first, l, hl, fun d more => rfl⟩
  | @cons t s m ms hm hs ih =>
    obtain ⟨b, hb, hrun⟩ := membersRun_member hf hm (hv m List.mem_cons_self)
    obtain ⟨first', l', hl', hmore⟩ := ih (fun m hm => hv m (List.mem_cons_of_mem _ hm)) (.next hb)
    refine ⟨first', l', hl', fun d more => ?_⟩
    have hx := hrun d first l (',' :: (s ++ more)) hl (delimited_cons (.inr (.inl rfl)))
    simp only [List.append_assoc, List.cons_append, List.nil_append] at hmore ⊢
    rw [repeated_map hx]
    simp only [hmore, Draft.offerAll]
    cases Draft.offer fs d m <;> rfl

theorem membersRun_settled {lead c v : List Char} (hlead : Bracket.curly.Lead lead) (hc : Blanks c)
    (hv : WellFormed none v) (d : Draft fs) : ∃ x : Except Fault (Draft fs), ∀ first l r,
      Comma first l → Delimited r → membersRun fs (d, first) (l ++ (lead ++ (c ++ (v ++ r)))) =
        x.map fun d => (.inl (d, false), r) := by
  cases hlead with
  | @name b n b' hb hn hb' =>
    simp only [List.append_assoc, List.cons_append, List.nil_append]
    obtain ⟨y, hy⟩ := Text.body_passed hn
    cases y with
    | error e =>
      refine ⟨.error e, fun first l r hl _ => ?_⟩
      simp only [membersRun, nextMember_quote hl hb, memberRun, hy]
      rfl
    | ok name =>
      exact ⟨Draft.offer fs d (name, v), fun first l r hl hr =>
        membersRun_offer hf hy d hl hb hb' hc hv hr⟩

theorem repeated_member_settled {t : List Char} {p : Option Bracket} (ht : WellFormed p t)
    (hp : p = some .curly) (d : Draft fs) (first : Bool) :
    ∃ x : Except Fault (Draft fs), ∀ l r, Comma first l →
      repeated (fun s => ⟨membersRun fs s, length_membersRun⟩) (d, first) (l ++ (t ++ '}' :: r)) =
        x.map fun d => (d, r) := by
  induction ht generalizing d first with
  | word | number | string | empty | full => cases hp
  | @last k lead b v b' hlead hb hv hb' _ =>
    cases hp
    obtain ⟨x, hx⟩ := membersRun_settled hf hlead hb hv d
    have hd (r : List Char) : Delimited (b' ++ '}' :: r) :=
      delimited_append hb' (Bracket.delimited_closing .curly r)
    simp only [List.append_assoc]
    cases x with
    | error e => exact ⟨.error e, fun l r hl => repeated_error (hx first l _ hl (hd r))⟩
    | ok d' =>
      refine ⟨.ok d', fun l r hl => ?_⟩
      rw [repeated_inl (hx first l _ hl (hd r))]
      exact repeated_member_closing hb' d' r
  | @more k lead b v b' t hlead hb hv hb' _ _ ih =>
    cases hp
    obtain ⟨x, hx⟩ := membersRun_settled hf hlead hb hv d
    have hd (r : List Char) : Delimited (b' ++ ',' :: (t ++ '}' :: r)) :=
      delimited_append hb' (delimited_cons (.inr (.inl rfl)))
    simp only [List.append_assoc, List.cons_append]
    cases x with
    | error e => exact ⟨.error e, fun l r hl => repeated_error (hx first l _ hl (hd r))⟩
    | ok d' =>
      obtain ⟨y, hy⟩ := ih rfl d' false
      refine ⟨y, fun l r hl => ?_⟩
      have hmore := hy _ r (.next hb')
      rw [List.append_assoc, List.cons_append, List.nil_append] at hmore
      rw [repeated_inl (hx first l _ hl (hd r)), hmore]

end

theorem closing_item {first : Bool} {l b v : List Char} (hl : Comma first l) (hb : Blanks b)
    (hv : Opens v) (r : List Char) : closing (l ++ (b ++ (v ++ r))) = .error .malformed := by
  obtain ⟨c, s, rfl, hc, hne⟩ := hv
  cases hl with
  | first =>
    rw [List.nil_append, List.cons_append, closing, afterBlanks_cons_of_not hb hc]
    split
    · next he => cases he
    · next he => exact absurd (List.cons.inj he).1 hne
    · rfl
  | next hb' =>
    rw [List.append_assoc, List.cons_append, List.cons_append, closing,
      afterBlanks_cons_of_not hb' rfl]
    rfl

theorem arrayRun_judged {title : String} {arity i : Nat} {f : Field} (hf : f.format.Judges)
    (fs : List Field) {l b v r : List Char} (hl : Comma (i == 0) l) (hb : Blanks b)
    (hv : WellFormed none v) (hr : Delimited r) :
    arrayRun title arity (f :: fs) i (l ++ (b ++ (v ++ r))) =
      (f.format.decode (String.ofList v)).bind fun a =>
        (arrayRun title arity fs (i + 1) r).map fun x => ((a, x.1), x.2) := by
  have hx := hf blanks_nil hv hr
  rw [List.nil_append] at hx
  simp only [arrayRun, nextItem_opens hl hb hv.opens, hx]
  cases f.format.decode (String.ofList v) with
  | error e => rfl
  | ok a =>
    simp only [Except.map, Except.bind]
    cases arrayRun title arity fs (i + 1) r <;> rfl

/-- The items of a list as fields in their places, up to the first that is wrong. -/
theorem arrayRun_settled (title : String) (arity : Nat) {fs : List Field}
    (hf : ∀ f ∈ fs, f.format.Judges) {t : List Char} (ht : WellFormed (some .square) t) (i : Nat) :
    ∃ x : Except Fault (Row fs), ∀ l r, Comma (i == 0) l →
      arrayRun title arity fs i (l ++ (t ++ ']' :: r)) = x.map fun row => (row, r) := by
  induction fs generalizing t i with
  | nil =>
    refine ⟨.error .malformed, fun l r hl => ?_⟩
    cases ht with
    | last hlead hb hv hb' =>
      cases hlead
      simp only [arrayRun, List.nil_append, List.append_assoc, closing_item hl hb hv.opens]
      rfl
    | more hlead hb hv hb' ht =>
      cases hlead
      simp only [arrayRun, List.nil_append, List.append_assoc, closing_item hl hb hv.opens]
      rfl
  | cons f fs ih =>
    obtain ⟨hff, hfs⟩ := List.forall_mem_cons.1 hf
    cases ht with
    | @last _ _ b v b' hlead hb hv hb' =>
      cases hlead
      have hd (r : List Char) : Delimited (b' ++ ']' :: r) :=
        delimited_append hb' (Bracket.delimited_closing .square r)
      simp only [List.nil_append, List.append_assoc]
      refine ⟨(f.format.decode (String.ofList v)).bind fun a =>
        (defaults title arity fs (i + 1)).map fun row => (a, row), fun l r hl => ?_⟩
      rw [arrayRun_judged hff fs hl hb hv (hd r), arrayRun_closing title arity hb' r]
      cases f.format.decode (String.ofList v) with
      | error e => rfl
      | ok a => cases defaults title arity fs (i + 1) <;> rfl
    | @more _ _ b v b' t hlead hb hv hb' ht =>
      cases hlead
      obtain ⟨y, hy⟩ := ih hfs ht (i + 1)
      have hd (r : List Char) : Delimited (b' ++ ',' :: (t ++ ']' :: r)) :=
        delimited_append hb' (delimited_cons (.inr (.inl rfl)))
      simp only [List.nil_append, List.append_assoc, List.cons_append]
      refine ⟨(f.format.decode (String.ofList v)).bind fun a => y.map fun row => (a, row),
        fun l r hl => ?_⟩
      have hmore := hy _ r (.next hb')
      rw [List.append_assoc, List.cons_append, List.nil_append] at hmore
      rw [arrayRun_judged hff fs hl hb hv (hd r), hmore]
      cases f.format.decode (String.ofList v) with
      | error e => rfl
      | ok a => cases y <;> rfl

theorem settles_rowRun (title : String) {fs : List Field} (hf : ∀ f ∈ fs, f.format.Judges) :
    Settles (rowRun title fs) := by
  refine settles_of_head title (fun d => d = '\x7b' ∨ d = '[') (fun _ _ _ => rowRun_other) ?_
  have object {u : List Char} {x : Except Fault (Draft fs)} {r : List Char}
      (h : (members fs).run u = x.map fun d => (d, r)) :
      rowRun title fs ('\x7b' :: u) = (x.bind (Draft.complete fs)).map fun row => (row, r) := by
    have hb : afterBlanks ('\x7b' :: u) = '\x7b' :: u := rfl
    simp only [rowRun, hb, h]
    cases x <;> rfl
  rintro d u hv (rfl | rfl)
  · obtain ⟨b, hb, rfl⟩ | ⟨t, ht, rfl⟩ := hv.of_opening (k := .curly)
    · refine ⟨Draft.complete fs (Draft.empty fs), fun r _ => ?_⟩
      rw [List.cons_append, List.append_assoc]
      exact object (x := .ok (Draft.empty fs)) (repeated_member_closing hb _ r)
    · obtain ⟨x, hx⟩ := repeated_member_settled hf ht rfl (Draft.empty fs) true
      refine ⟨x.bind (Draft.complete fs), fun r _ => ?_⟩
      rw [List.cons_append, List.append_assoc]
      exact object (hx [] r .first)
  · obtain ⟨b, hb, rfl⟩ | ⟨t, ht, rfl⟩ := hv.of_opening (k := .square)
    · refine ⟨defaults title fs.length fs 0, fun r _ => ?_⟩
      rw [List.cons_append, List.append_assoc]
      exact arrayRun_closing title fs.length hb r
    · obtain ⟨x, hx⟩ := arrayRun_settled title fs.length hf ht 0
      refine ⟨x, fun r _ => ?_⟩
      rw [List.cons_append, List.append_assoc]
      exact hx [] r .first

theorem Composed.settles {f : Format α} (h : Composed f) : Settles f.reader.run := by
  induction h with
  | text expected => exact settles_textRun expected
  | checked expected check value _ =>
    exact settles_check (p := textReader expected) (settles_textRun expected) check
  | flag => exact settles_flagRun
  | int32 => exact settles_int32Run
  | list _ ih => exact settles_listRun ih
  | optional _ _ ih => exact settles_optionalRun ih
  | map _ of value _ ih => exact settles_check ih _
  | row title hf _ _ ih => exact settles_rowRun title fun f hm => (hf f hm).steady.judges (ih f hm)

theorem Composed.judges {f : Format α} (h : Composed f) : f.Judges := h.steady.judges h.settles

end PipelineCache.Json

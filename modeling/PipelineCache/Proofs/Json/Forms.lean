import PipelineCache.Proofs.Json.Steady

/-! The array form and the object form of a record. The values of the first fields, as an array or as
an object, come to the same row where the other fields have defaults; otherwise the field that the
object form misses is the one that the array form counts. -/
namespace PipelineCache.Json
variable {α : Type}

/-- The array texts whose items are some texts, each with blanks around it. -/
def Listing : Grammar (List (List Char)) := Grammar.list Eq

/-- The object texts that give some texts to the first fields. -/
def Naming (fs : List Field) : Grammar (List (List Char)) := fun t ts =>
  Object t ((names fs).zip ts)

/-- Each text decodes as a value of the field in its place. -/
def TakesEach : List Field → List (List Char) → Prop
  | _, [] => True
  | [], _ :: _ => False
  | f :: fs, t :: ts => (∃ a, f.format.decode (String.ofList t) = .ok a) ∧ TakesEach fs ts

/-- The texts spell the values of a row, one for each field. -/
def Row.Texts : (fs : List Field) → Grammars fs → List (List Char) → Row fs → Prop
  | [], _, ts, _ => ts = []
  | _ :: _, _, [], _ => False
  | _ :: fs, (g, gs), t :: ts, (v, row) => g t v ∧ Row.Texts fs gs ts row

/-- The draft that the texts of the first fields make. -/
def Draft.ofTexts : (fs : List Field) → List (List Char) → Draft fs
  | [], _ => ()
  | _ :: fs, [] => (none, ofTexts fs [])
  | f :: fs, t :: ts => ((f.format.decode (String.ofList t)).toOption, ofTexts fs ts)

/-- The row of a draft, or the place of the first field that has neither value nor default. -/
def Draft.fill : (fs : List Field) → Draft fs → Except Nat (Row fs)
  | [], _ => .ok ()
  | f :: fs, (v, d) =>
    match v.or f.absent with
    | none => .error 0
    | some v =>
      match fill fs d with
      | .error n => .error (n + 1)
      | .ok row => .ok (v, row)

theorem Misfit.message_missing (name : String) :
    (missing name).message = "missing field `" ++ name ++ "`" := rfl

theorem Misfit.message_badLength {arity : Nat} (h : arity ≠ 1) (n : Nat) (record : String) :
    (badLength n record arity).message =
      "invalid length " ++ toString n ++ ", expected " ++ record ++ " with " ++ toString arity ++
        " elements" := by
  have he : (badLength n record arity).message =
      "invalid length " ++ toString n ++ ", expected " ++ record ++ " with " ++ toString arity ++
        if arity = 1 then " element" else " elements" := rfl
  rw [he, if_neg h]

theorem Draft.ofTexts_nil (fs : List Field) : Draft.ofTexts fs [] = Draft.empty fs := by
  induction fs with
  | nil => rfl
  | cons f fs ih => exact congrArg (none, ·) ih

theorem Draft.complete_of_fill {fs : List Field} {d : Draft fs} {row : Row fs}
    (h : d.fill fs = .ok row) : d.complete fs = .ok row := by
  induction fs with
  | nil => rfl
  | cons f fs ih =>
    obtain ⟨v, d⟩ := d
    rw [fill] at h
    rw [complete]
    cases hv : v.or f.absent with
    | none =>
      rw [hv] at h
      cases h
    | some w =>
      cases hr : fill fs d with
      | error n =>
        rw [hv, hr] at h
        cases h
      | ok row =>
        rw [hv, hr] at h
        cases h
        rw [ih hr]

theorem Draft.complete_of_fill_error {fs : List Field} {d : Draft fs} {n : Nat}
    (h : d.fill fs = .error n) : ∃ f, fs[n]? = some f ∧ f.absent = none ∧
      d.complete fs = .error (.misfit (.missing f.name)) := by
  induction fs generalizing n with
  | nil => cases h
  | cons f fs ih =>
    obtain ⟨v, d⟩ := d
    rw [fill] at h
    rw [complete]
    cases hv : v.or f.absent with
    | none =>
      rw [hv] at h
      cases h
      exact ⟨f, rfl, (Option.or_eq_none_iff.1 hv).2, rfl⟩
    | some w =>
      cases hr : fill fs d with
      | ok row =>
        rw [hv, hr] at h
        cases h
      | error m =>
        rw [hv, hr] at h
        cases h
        obtain ⟨g, hg, ha, hc⟩ := ih hr
        refine ⟨g, by simpa using hg, ha, ?_⟩
        rw [hc]

/-- The place of a field, counted from the next one. -/
theorem badLength_add_one (title : String) (arity i n : Nat) :
    Fault.misfit (.badLength (i + 1 + n) title arity) =
      .misfit (.badLength (i + (n + 1)) title arity) := by
  rw [Nat.add_assoc, Nat.add_comm 1 n]

theorem defaults_eq (title : String) (arity : Nat) (fs : List Field) (i : Nat) :
    defaults title arity fs i =
      ((Draft.empty fs).fill fs).mapError fun n => .misfit (.badLength (i + n) title arity) := by
  induction fs generalizing i with
  | nil => rfl
  | cons f fs ih =>
    simp only [defaults, Draft.empty, Draft.fill, Option.none_or]
    cases f.absent with
    | none => rfl
    | some v =>
      simp only [ih]
      cases (Draft.empty fs).fill fs with
      | error n => exact congrArg Except.error (badLength_add_one title arity i n)
      | ok row => rfl

theorem Draft.ofTexts_cons {f : Field} {fs : List Field} {t : List Char} {a : f.Value}
    (h : f.format.decode (String.ofList t) = .ok a) (ts : List (List Char)) :
    ofTexts (f :: fs) (t :: ts) = (some a, ofTexts fs ts) := by
  rw [ofTexts, h]
  rfl

theorem takesEach_nil (fs : List Field) : TakesEach fs [] := by
  cases fs <;> trivial

/-- The field that misses is behind those that are given. -/
theorem Draft.le_of_fill_error {fs : List Field} {ts : List (List Char)} (h : TakesEach fs ts)
    {n : Nat} (hn : (ofTexts fs ts).fill fs = .error n) : ts.length ≤ n := by
  induction fs generalizing ts n with
  | nil => cases hn
  | cons f fs ih =>
    cases ts with
    | nil => exact Nat.zero_le n
    | cons t ts =>
      obtain ⟨⟨a, ha⟩, hts⟩ := h
      simp only [ofTexts_cons ha, fill, Option.some_or] at hn
      split at hn
      · next hm =>
        cases hn
        exact Nat.succ_le_succ (ih hts hm)
      · cases hn

/-- No field misses if and only if all behind the given ones have defaults. -/
theorem Draft.fill_ofTexts_iff {fs : List Field} {ts : List (List Char)} (h : TakesEach fs ts) :
    (∃ row, (ofTexts fs ts).fill fs = .ok row) ↔ ∀ f ∈ fs.drop ts.length, f.absent.isSome := by
  have step (f : Field) (fs : List Field) (v : f.Value) (d : Draft fs) :
      (∃ row, fill (f :: fs) (some v, d) = .ok row) ↔ ∃ row, fill fs d = .ok row := by
    simp only [fill, Option.some_or]
    cases fill fs d with
    | error n => simp
    | ok row => exact ⟨fun _ => ⟨_, rfl⟩, fun _ => ⟨_, rfl⟩⟩
  induction fs generalizing ts with
  | nil => exact ⟨fun _ _ hf => by simp at hf, fun _ => ⟨(), rfl⟩⟩
  | cons f fs ih =>
    cases ts with
    | nil =>
      have ih := ih (takesEach_nil fs)
      rw [List.length_nil, List.drop_zero] at ih ⊢
      rw [List.forall_mem_cons, ofTexts]
      refine Iff.trans ?_ (and_congr_right' ih)
      cases ha : f.absent with
      | none => simp [fill, ha]
      | some v =>
        have he : fill (f :: fs) (none, ofTexts fs []) = fill (f :: fs) (some v, ofTexts fs []) := by
          simp only [fill, ha, Option.none_or, Option.some_or]
        rw [he, step]
        simp
    | cons t ts =>
      obtain ⟨⟨a, ha⟩, hts⟩ := h
      rw [List.length_cons, List.drop_succ_cons, ofTexts_cons ha]
      exact (step f fs a _).trans (ih hts)

theorem Row.Texts.fill {fs : List Field} {gs : Grammars fs} (hf : Grammars.Follow fs gs)
    {ts : List (List Char)} {row : Row fs} (h : Row.Texts fs gs ts row) :
    TakesEach fs ts ∧ (Draft.ofTexts fs ts).fill fs = .ok row := by
  induction fs generalizing ts with
  | nil =>
    cases h
    exact ⟨trivial, rfl⟩
  | cons f fs ih =>
    cases ts with
    | nil => cases h
    | cons t ts =>
      obtain ⟨v, row⟩ := row
      obtain ⟨hv, hr⟩ := h
      obtain ⟨htakes, hfill⟩ := ih hf.2 hr
      have hd := hf.1.format.decode (t := String.ofList t)
        ((String.toList_ofList (l := t)).symm ▸ padded_of_spelled hv)
      rw [Draft.ofTexts_cons hd]
      exact ⟨⟨⟨_, hd⟩, htakes⟩, by simp only [Draft.fill, Option.some_or, hfill]⟩

section
variable (title : String) (arity : Nat) {i : Nat} {f : Field} {fs : List Field}

variable (fs) in
/-- An item is read into the field in its place. -/
theorem arrayRun_item (hf : f.format.Steady) {t v : List Char} {a : f.Value}
    (hv : f.format.decode (String.ofList v) = .ok a) (ht : Grammar.padded Eq t v) {l s : List Char}
    (hl : Comma (i == 0) l) (hs : Delimited s) : ∃ b, Blanks b ∧
      arrayRun title arity (f :: fs) i (l ++ (t ++ s)) =
        (arrayRun title arity fs (i + 1) (b ++ s)).map fun (row, r) => ((a, row), r) := by
  obtain ⟨b, v, b', hb, hb', rfl, rfl⟩ := ht
  obtain ⟨b₁, u, b₂, he, hb₁, hu, hb₂, hr⟩ := hf.exists_value hv
  rw [String.toList_ofList] at he
  refine ⟨b₂ ++ b', List.forall_mem_append.2 ⟨hb₂, hb'⟩, ?_⟩
  have hn := nextItem_opens hl (List.forall_mem_append.2 ⟨hb, hb₁⟩ : Blanks (b ++ b₁)) hu (b' ++ s)
  have hr := hr (b' ++ s) (delimited_append hb' hs)
  simp only [he, List.append_assoc] at hn ⊢
  simp only [arrayRun, hn, hr]
  cases arrayRun title arity fs (i + 1) (b₂ ++ (b' ++ s)) <;> rfl

theorem arrayRun_closing {b : List Char} (hb : Blanks b) (r : List Char) :
    arrayRun title arity fs i (b ++ ']' :: r) =
      (defaults title arity fs i).map fun row => (row, r) := by
  cases fs with
  | nil =>
    rw [arrayRun, closing, afterBlanks_cons_of_not hb rfl]
    rfl
  | cons f fs => simp only [arrayRun, nextItem_closing hb]

/-- The items that are given make up the draft of their texts. -/
theorem arrayRun_texts (hf : ∀ f ∈ fs, f.format.Steady) {t : List Char} {ts : List (List Char)}
    (ht : Separated (Grammar.padded Eq) t ts) (h : TakesEach fs ts) {l : List Char}
    (hl : Comma (i == 0) l) (r : List Char) :
    arrayRun title arity fs i (l ++ (t ++ ']' :: r)) =
      (((Draft.ofTexts fs ts).fill fs).mapError
        fun n => .misfit (.badLength (i + n) title arity)).map fun row => (row, r) := by
  -- A field that is given moves the place of the one that misses by one.
  have shift (f : Field) (fs : List Field) (i : Nat) (v : f.Value) (d : Draft fs) :
      ((((d.fill fs).mapError fun n => Fault.misfit (.badLength (i + 1 + n) title arity)).map
        fun row => (row, r)).map fun (row, r) => (((v, row) : Row (f :: fs)), r)) =
        ((Draft.fill (f :: fs) (some v, d)).mapError
          fun n => .misfit (.badLength (i + n) title arity)).map fun row => (row, r) := by
    simp only [Draft.fill, Option.some_or]
    cases d.fill fs with
    | error n => exact congrArg Except.error (badLength_add_one title arity i n)
    | ok row => rfl
  induction ht generalizing fs i l with
  | @last t v hp =>
    cases fs with
    | nil => cases h
    | cons f fs =>
      obtain ⟨⟨a, ha⟩, -⟩ := h
      obtain ⟨b, hb, he⟩ := arrayRun_item title arity fs
        (hf f List.mem_cons_self) ha hp hl (Bracket.delimited_closing .square r)
      change arrayRun title arity (f :: fs) i (l ++ (t ++ ']' :: r)) = _ at he
      rw [he]
      change (arrayRun title arity fs (i + 1) (b ++ ']' :: r)).map _ = _
      rw [arrayRun_closing _ _ hb, defaults_eq, ← Draft.ofTexts_nil, shift, Draft.ofTexts_cons ha]
  | @more t s v vs hp hs ih =>
    cases fs with
    | nil => cases h
    | cons f fs =>
      obtain ⟨⟨a, ha⟩, hvs⟩ := h
      have hd : Delimited (',' :: (s ++ ']' :: r)) := delimited_cons (.inr (.inl rfl))
      obtain ⟨b, hb, he⟩ := arrayRun_item title arity fs
        (hf f List.mem_cons_self) ha hp hl hd
      have ih := ih (fun g hg => hf g (List.mem_cons_of_mem f hg)) hvs (i := i + 1) (.next hb)
      rw [List.append_assoc, List.cons_append, List.nil_append] at ih
      rw [List.append_assoc, List.cons_append, he, ih, shift, Draft.ofTexts_cons ha]

/-- Behind the last field no further item is read. -/
theorem arrayRun_further (hf : ∀ f ∈ fs, f.format.Steady) {t : List Char} {ts : List (List Char)}
    (ht : Separated (Grammar.padded Eq) t ts) (h : TakesEach fs ts) (hn : ts.length = fs.length)
    {l : List Char} (hl : Comma (i == 0) l) (s : List Char) :
    arrayRun title arity fs i (l ++ (t ++ ',' :: s)) = .error .malformed := by
  induction ht generalizing fs i l with
  | @last t v hp =>
    cases fs with
    | nil => cases h
    | cons f fs =>
      obtain ⟨⟨a, ha⟩, -⟩ := h
      obtain ⟨b, hb, he⟩ := arrayRun_item title arity fs
        (hf f List.mem_cons_self) ha hp hl (delimited_cons (.inr (.inl rfl)) : Delimited (',' :: s))
      obtain rfl : fs = [] := List.eq_nil_of_length_eq_zero (by simpa using hn.symm)
      rw [he, arrayRun, closing, afterBlanks_cons_of_not hb rfl]
      rfl
  | @more t s' v vs hp hs ih =>
    cases fs with
    | nil => cases h
    | cons f fs =>
      obtain ⟨⟨a, ha⟩, hvs⟩ := h
      have hd : Delimited (',' :: (s' ++ ',' :: s)) := delimited_cons (.inr (.inl rfl))
      obtain ⟨b, hb, he⟩ := arrayRun_item title arity fs
        (hf f List.mem_cons_self) ha hp hl hd
      have ih := ih (fun g hg => hf g (List.mem_cons_of_mem f hg)) hvs (by simpa using hn)
        (i := i + 1) (.next hb)
      rw [List.append_assoc, List.cons_append, List.nil_append] at ih
      rw [List.append_assoc, List.cons_append, he, ih]
      rfl

end

theorem mem_names_of_getElem? {fs : List Field} {n : Nat} {f : Field} (h : fs[n]? = some f) :
    f.name ∈ names fs := List.mem_map_of_mem (List.mem_of_getElem? h)

/-- The member of the next field is read into the draft of the texts before it. -/
theorem Draft.enter_text {fs : List Field} (hf : ∀ f ∈ fs, f.format.Steady)
    (hn : (names fs).Nodup) {done : List (List Char)} {f : Field} (hd : fs[done.length]? = some f)
    {v : List Char} {a : f.Value} (hv : f.format.decode (String.ofList v) = .ok a)
    {b c c' s : List Char} (hb : Blanks b) (hc : Blanks c) (hc' : Blanks c') (hs : Delimited s) :
    ∃ e, Blanks e ∧ Draft.enter fs (ofTexts fs done) f.name (b ++ ':' :: (c ++ (v ++ (c' ++ s)))) =
      some (.ok (ofTexts fs (done ++ [v]), e ++ s)) := by
  induction fs generalizing done with
  | nil => cases hd
  | cons g fs ih =>
    rw [names, List.map_cons, List.nodup_cons] at hn
    cases done with
    | nil =>
      obtain rfl : g = f := by simpa using hd
      have hg := hf g List.mem_cons_self
      obtain ⟨b₁, u, b₂, he, hb₁, -, hb₂, hr⟩ := hg.exists_value hv
      rw [String.toList_ofList] at he
      refine ⟨b₂ ++ c', List.forall_mem_append.2 ⟨hb₂, hc'⟩, ?_⟩
      have hm : memberValue g.format.reader (b ++ ':' :: (c ++ (v ++ (c' ++ s)))) =
          .ok (a, b₂ ++ (c' ++ s)) := by
        rw [memberValue, Place.colon_append hb, he, List.append_assoc]
        simp only [hg.run_blanks hc, hg.run_blanks hb₁, hr _ (delimited_append hc' hs)]
      rw [List.nil_append, ofTexts_cons hv, List.append_assoc]
      simp [ofTexts, Draft.enter, hm]
    | cons t done =>
      have hd : fs[done.length]? = some f := by simpa using hd
      have hne : f.name ≠ g.name := by
        intro he
        exact hn.1 (he ▸ mem_names_of_getElem? hd)
      obtain ⟨e, he, hx⟩ := ih (fun f h => hf f (List.mem_cons_of_mem g h)) hn.2 hd
      refine ⟨e, he, ?_⟩
      simp only [List.cons_append, ofTexts, Draft.enter, if_neg hne, hx]

theorem zip_cons_inv {m : Member} {ms : List Member} {fs : List Field} {ts : List (List Char)}
    (h : m :: ms = (names fs).zip ts) : ∃ f fs' t ts', fs = f :: fs' ∧ ts = t :: ts' ∧
      m = (f.name, t) ∧ ms = (names fs').zip ts' := by
  cases fs with
  | nil => cases h
  | cons f fs =>
    cases ts with
    | nil => cases h
    | cons t ts =>
      rw [names, List.map_cons, List.zip_cons_cons, List.cons.injEq] at h
      exact ⟨f, fs, t, ts, rfl, rfl, h.1, h.2⟩

theorem TakesEach.eq_nil {fs : List Field} {ts : List (List Char)} (h : TakesEach fs ts)
    (hz : [] = (names fs).zip ts) : ts = [] := by
  cases ts with
  | nil => rfl
  | cons t ts =>
    cases fs with
    | nil => cases h
    | cons f fs => cases hz

/-- The member of the next field, as a step of reading an object. -/
theorem membersRun_text {fs : List Field} (hf : ∀ f ∈ fs, f.format.Steady)
    (hn : (names fs).Nodup) {done : List (List Char)} {f : Field} (hd : fs[done.length]? = some f)
    {t v : List Char} {a : f.Value} (hv : f.format.decode (String.ofList v) = .ok a)
    (ht : Member.Spelled t (f.name, v)) {first : Bool} {l s : List Char} (hl : Comma first l)
    (hs : Delimited s) : ∃ e, Blanks e ∧
      membersRun fs (Draft.ofTexts fs done, first) (l ++ (t ++ s)) =
        .ok (.inl (Draft.ofTexts fs (done ++ [v]), false), e ++ s) := by
  cases ht with
  | @mk b n b' c v c' name hb hq hb' hc hc' =>
    obtain ⟨e, he, hx⟩ := Draft.enter_text hf hn hd hv hb' hc hc' hs
    refine ⟨e, he, ?_⟩
    simp only [List.append_assoc, List.cons_append, membersRun, nextMember_quote hl hb, memberRun,
      Text.body_spelled hq, hx]

theorem repeated_member_texts {fs : List Field} (hf : ∀ f ∈ fs, f.format.Steady)
    (hn : (names fs).Nodup) {t : List Char} {ms : List Member}
    (ht : Separated Member.Spelled t ms) (done : List (List Char)) {ts : List (List Char)}
    (hms : ms = (names (fs.drop done.length)).zip ts) (h : TakesEach (fs.drop done.length) ts)
    {first : Bool} {l : List Char} (hl : Comma first l) (r : List Char) :
    repeated (fun s => ⟨membersRun fs s, length_membersRun⟩) (Draft.ofTexts fs done, first)
      (l ++ (t ++ '}' :: r)) = .ok (Draft.ofTexts fs (done ++ ts), r) := by
  induction ht generalizing done ts first l with
  | @last t m hp =>
    obtain ⟨f, fs', v, ts, hdrop, rfl, rfl, hz⟩ := zip_cons_inv hms
    rw [hdrop] at h
    obtain ⟨⟨a, ha⟩, hts⟩ := h
    obtain rfl := hts.eq_nil hz
    have hd : fs[done.length]? = some f := by
      rw [← List.head?_drop, hdrop]
      rfl
    obtain ⟨e, he, hx⟩ := membersRun_text hf hn hd ha hp hl (Bracket.delimited_closing .curly r)
    exact (repeated_inl hx).trans (repeated_member_closing he _ r)
  | @more t s m ms hp hs ih =>
    obtain ⟨f, fs', v, ts, hdrop, rfl, rfl, hz⟩ := zip_cons_inv hms
    rw [hdrop] at h
    obtain ⟨⟨a, ha⟩, hts⟩ := h
    have hd : fs[done.length]? = some f := by
      rw [← List.head?_drop, hdrop]
      rfl
    have hdrop' : fs.drop (done ++ [v]).length = fs' := by
      rw [List.length_append, List.length_singleton, ← List.tail_drop, hdrop]
      rfl
    have hc : Delimited (',' :: (s ++ '}' :: r)) := delimited_cons (.inr (.inl rfl))
    obtain ⟨e, he, hx⟩ := membersRun_text hf hn hd ha hp hl hc
    have ih := ih (done ++ [v]) (by rw [hdrop', hz]) (by rwa [hdrop']) (.next he)
    rw [List.append_assoc, List.cons_append, List.nil_append] at ih
    rw [List.append_assoc, List.cons_append]
    refine (repeated_inl hx).trans (ih.trans ?_)
    rw [List.append_assoc, List.singleton_append]

section
variable {title : String} {fs : List Field} {ofRow : Row fs → α} {toRow : α → Row fs}

theorem rowRun_listing (hf : ∀ f ∈ fs, f.format.Steady) {b t : List Char} {ts : List (List Char)}
    (hb : Blanks b) (ht : Listing t ts) (h : TakesEach fs ts) (r : List Char) :
    rowRun title fs (b ++ (t ++ r)) =
      (((Draft.ofTexts fs ts).fill fs).mapError
        fun n => .misfit (.badLength n title fs.length)).map fun row => (row, r) := by
  cases ht with
  | empty hb' =>
    rw [List.cons_append, List.append_assoc, rowRun, afterBlanks_cons_of_not hb rfl]
    change arrayRun title fs.length fs 0 (_ ++ ']' :: r) = _
    simp only [arrayRun_closing _ _ hb', defaults_eq, Draft.ofTexts_nil, Nat.zero_add]
  | full hs =>
    rw [List.cons_append, List.append_assoc, rowRun, afterBlanks_cons_of_not hb rfl]
    have ha := arrayRun_texts title fs.length (i := 0) hf hs h .first r
    simp only [Nat.zero_add] at ha
    exact ha

theorem rowRun_naming (hf : ∀ f ∈ fs, f.format.Steady) (hn : (names fs).Nodup) {b t : List Char}
    {ts : List (List Char)} (hb : Blanks b) (ht : Naming fs t ts) (h : TakesEach fs ts)
    (r : List Char) : rowRun title fs (b ++ (t ++ r)) =
      ((Draft.ofTexts fs ts).complete fs).map fun row => (row, r) := by
  have hm : ∃ s, t ++ r = '{' :: s ∧ (members fs).run s = .ok (Draft.ofTexts fs ts, r) := by
    rw [Naming] at ht
    generalize hz : (names fs).zip ts = ms at ht
    cases ht with
    | @empty b' hb' =>
      obtain rfl := h.eq_nil hz.symm
      rw [Draft.ofTexts_nil]
      exact ⟨b' ++ '}' :: r, by simp, repeated_member_closing hb' _ r⟩
    | @full t _ hs =>
      have hx := repeated_member_texts hf hn hs [] hz.symm h .first r
      rw [Draft.ofTexts_nil] at hx
      exact ⟨t ++ '}' :: r, by simp, hx⟩
  obtain ⟨s, he, hx⟩ := hm
  rw [he, rowRun, afterBlanks_cons_of_not hb rfl]
  simp only [hx]

theorem decode_record {t : String} {x : Except Fault (Row fs)} {r : List Char} (hr : Blanks r)
    (h : rowRun title fs t.toList = x.map fun row => (row, r)) :
    (Format.record title fs ofRow toRow).decode t = x.map ofRow := by
  have he : (Format.record title fs ofRow toRow).reader.run t.toList =
      (x.map ofRow).map fun a => (a, r) := by
    change (Reader.check ⟨rowRun title fs, length_rowRun⟩ fun row => .ok (ofRow row)).run _ = _
    simp only [Reader.check, h]
    cases x <;> rfl
  rw [Format.decode, he]
  cases x with
  | error e => rfl
  | ok row => simp [Except.map, afterBlanks_blanks hr]

/-- The array form of a record comes to the draft of its items' texts. -/
theorem decode_listing (hf : ∀ f ∈ fs, f.format.Steady) {t : String} {ts : List (List Char)}
    (ht : Listing.padded t.toList ts) (h : TakesEach fs ts) :
    (Format.record title fs ofRow toRow).decode t =
      (((Draft.ofTexts fs ts).fill fs).mapError
        fun n => .misfit (.badLength n title fs.length)).map ofRow := by
  obtain ⟨b, v, b', hb, hb', hv, he⟩ := ht
  exact decode_record hb' (he ▸ rowRun_listing hf hb hv h b')

/-- An object that spells a row is read as its record. -/
theorem decode_row {gs : Grammars fs} (hg : Grammars.Follow fs gs) (hn : (names fs).Nodup)
    {t : String} {row : Row fs} (h : (Grammar.row fs gs).padded t.toList row) :
    (Format.record title fs ofRow toRow).decode t = .ok (ofRow row) := by
  obtain ⟨b, v, b', hb, hb', hv, he⟩ := h
  have hd : Delimited (b' ++ []) := delimited_append hb' delimited_nil
  rw [List.append_nil] at hd
  exact decode_record (x := .ok row) hb' (he ▸ (row_follows title hg hn).reads hb hv hd)

/-- An array of spellings of all fields' values is read as their record. -/
theorem decode_listing_texts (hf : ∀ f ∈ fs, f.format.Steady) {gs : Grammars fs}
    (hg : Grammars.Follow fs gs) {t : String} {ts : List (List Char)}
    (ht : Listing.padded t.toList ts) (row : Row fs) (h : Row.Texts fs gs ts row) :
    (Format.record title fs ofRow toRow).decode t = .ok (ofRow row) := by
  obtain ⟨htakes, hfill⟩ := h.fill hg
  rw [decode_listing hf ht htakes, hfill]
  rfl

/-- The object form of a record comes to the draft of its members' texts. -/
theorem decode_naming (hf : ∀ f ∈ fs, f.format.Steady) (hn : (names fs).Nodup) {t : String}
    {ts : List (List Char)} (ht : (Naming fs).padded t.toList ts) (h : TakesEach fs ts) :
    (Format.record title fs ofRow toRow).decode t =
      ((Draft.ofTexts fs ts).complete fs).map ofRow := by
  obtain ⟨b, v, b', hb, hb', hv, he⟩ := ht
  exact decode_record hb' (he ▸ rowRun_naming hf hn hb hv h b')

variable (title ofRow toRow) in
/-- Both forms give the same value, or miss the same field. -/
theorem decode_forms (hf : ∀ f ∈ fs, f.format.Steady) (hn : (names fs).Nodup)
    {array object : String} {ts : List (List Char)} (ha : Listing.padded array.toList ts)
    (ho : (Naming fs).padded object.toList ts) (h : TakesEach fs ts) :
    ((∀ f ∈ fs.drop ts.length, f.absent.isSome) ∧
      ∃ a, (Format.record title fs ofRow toRow).decode array = .ok a ∧
        (Format.record title fs ofRow toRow).decode object = .ok a) ∨
    ∃ n f, fs[n]? = some f ∧ ts.length ≤ n ∧ f.absent = none ∧
      (Format.record title fs ofRow toRow).decode object = .error (.misfit (.missing f.name)) ∧
      (Format.record title fs ofRow toRow).decode array =
        .error (.misfit (.badLength n title fs.length)) := by
  rw [decode_listing hf ha h, decode_naming hf hn ho h]
  cases hx : (Draft.ofTexts fs ts).fill fs with
  | ok row =>
    rw [Draft.complete_of_fill hx]
    exact .inl ⟨(Draft.fill_ofTexts_iff h).1 ⟨row, hx⟩, ofRow row, rfl, rfl⟩
  | error n =>
    obtain ⟨f, hnf, hd, hc⟩ := Draft.complete_of_fill_error hx
    rw [hc]
    exact .inr ⟨n, f, hnf, Draft.le_of_fill_error h hx, hd, rfl, rfl⟩

/-- An array with more items than a record has fields is malformed. -/
theorem decode_listing_further (hf : ∀ f ∈ fs, f.format.Steady) {t : String} {b u s : List Char}
    {ts : List (List Char)} (hb : Blanks b) (hu : Separated (Grammar.padded Eq) u ts)
    (h : TakesEach fs ts) (hn : ts.length = fs.length)
    (ht : t.toList = b ++ '[' :: (u ++ ',' :: s)) :
    (Format.record title fs ofRow toRow).decode t = .error .malformed := by
  refine decode_record (x := .error .malformed) blanks_nil ?_
  rw [ht, rowRun, afterBlanks_cons_of_not hb rfl]
  exact arrayRun_further title fs.length (i := 0) hf hu h hn .first s

end

end PipelineCache.Json

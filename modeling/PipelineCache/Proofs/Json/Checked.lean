import PipelineCache.Proofs.Json.Steady

/-! A row whose first field is read through a check. It takes the texts that it takes without the
check, but for those whose first field the check refuses, and there it says what the check says. -/
namespace PipelineCache.Json
variable {α β σ τ σ' τ' γ : Type}

/-- A reading, and the same one with a check behind it. What is refused without the check is refused
with it, for any reason. -/
inductive Through (check : σ → Except Fault τ) : Reading σ → Reading τ → Prop
  | refused (e e' : Fault) : Through check (.error e) (.error e')
  | passed {s : σ} {t : τ} (r : List Char) (h : check s = .ok t) :
      Through check (.ok (s, r)) (.ok (t, r))
  | stopped {s : σ} {e : Fault} (r : List Char) (h : check s = .error e) :
      Through check (.ok (s, r)) (.error e)

theorem Through.congr {check : σ → Except Fault τ} {x x' : Reading σ} {y y' : Reading τ}
    (hx : x = x') (hy : y = y') (h : Through check x' y') : Through check x y := by
  subst hx hy
  exact h

theorem Through.map {check : σ → Except Fault τ} {x : Reading σ} {y : Reading τ}
    (h : Through check x y) {check' : σ' → Except Fault τ'} (f : σ → σ') (f' : τ → τ')
    (hf : ∀ s, check' (f s) = (check s).map f') :
    Through check' (x.map fun s => (f s.1, s.2)) (y.map fun s => (f' s.1, s.2)) := by
  cases h with
  | refused e e' => exact .refused e e'
  | passed r h => exact .passed r (by rw [hf, h]; rfl)
  | stopped r h => exact .stopped r (by rw [hf, h]; rfl)

theorem through_check (p : Reader α) (check : α → Except Fault β) (t : List Char) :
    Through check (p.run t) ((p.check check).run t) := by
  simp only [Reader.check]
  match p.run t with
  | .error e => exact .refused e e
  | .ok (a, r) =>
    match h : check a with
    | .ok b => simpa only [h] using .passed r h
    | .error e => simpa only [h] using .stopped r h

/-- A check of what stands first. -/
def first (check : α → Except Fault β) (s : α × γ) : Except Fault (β × γ) :=
  (check s.1).map fun b => (b, s.2)

/-- A check of what stands first, once it is there. -/
def firstRead (check : α → Except Fault β) : Option α × γ → Except Fault (Option β × γ)
  | (none, c) => .ok (none, c)
  | (some a, c) => (check a).map fun b => (some b, c)

theorem firstRead_none (check : α → Except Fault β) (c : γ) :
    firstRead check (none, c) = .ok (none, c) := rfl

theorem firstRead_ok {check : α → Except Fault β} {a : α} {b : β} (h : check a = .ok b) (c : γ) :
    firstRead check (some a, c) = .ok (some b, c) := by
  rw [firstRead, h]
  rfl

theorem firstRead_error {check : α → Except Fault β} {a : α} {e : Fault} (h : check a = .error e)
    (c : γ) : firstRead check (some a, c) = .error e := by
  rw [firstRead, h]
  rfl

theorem firstRead_eq_ok {check : α → Except Fault β} {a : α} {c : γ} {t : Option β × γ}
    (h : firstRead check (some a, c) = .ok t) : ∃ b, check a = .ok b ∧ t = (some b, c) := by
  obtain ⟨b, hb, rfl⟩ := exists_of_map_eq_ok h
  exact ⟨b, hb, rfl⟩

theorem firstRead_eq_error {check : α → Except Fault β} {a : α} {c : γ} {e : Fault}
    (h : firstRead check (some a, c) = .error e) : check a = .error e := by
  rw [firstRead] at h
  cases hc : check a <;> rw [hc] at h <;> cases h
  rfl

/-- What stands first with what is read behind it. -/
theorem through_paired {check : α → Except Fault β} {a : α} {b : β} (h : check a = .ok b)
    (x : Reading γ) : Through (first check) (x.map fun s => ((a, s.1), s.2))
      (x.map fun s => ((b, s.1), s.2)) := by
  match x with
  | .error e => exact .refused e e
  | .ok (c, r) => exact .passed r (by rw [first, h]; rfl)

theorem through_unpaired {check : α → Except Fault β} {a : α} {e : Fault} (h : check a = .error e)
    (x : Reading γ) : Through (first check) (x.map fun s => ((a, s.1), s.2)) (.error e) := by
  match x with
  | .error e' => exact .refused e' e
  | .ok (c, r) => exact .stopped r (by rw [first, h]; rfl)

/-! Members and the first field -/

section
variable {f : Field} {fs : List Field} {d : Draft fs} {key : String} {t r : List Char}

theorem memberRun_other (hb : Text.body.run t = .ok (key, r)) (hk : key ≠ f.name)
    (v : Option f.Value) :
    memberRun (f :: fs) (v, d) t = (memberRun fs d t).map fun s => ((v, s.1), s.2) := by
  simp only [memberRun, hb, Draft.enter, if_neg hk]
  cases Draft.enter fs d key r with
  | none => cases memberValue skipValue r <;> rfl
  | some x => cases x <;> rfl

theorem memberRun_again (hb : Text.body.run t = .ok (f.name, r)) (a : f.Value) :
    memberRun (f :: fs) (some a, d) t = .error (.misfit (.duplicate f.name)) := by
  simp only [memberRun, hb, Draft.enter, if_true, Option.isSome_some]

theorem memberRun_first (hb : Text.body.run t = .ok (f.name, r)) :
    memberRun (f :: fs) (none, d) t =
      (memberValue f.format.reader r).map fun s => ((some s.1, d), s.2) := by
  simp only [memberRun, hb, Draft.enter, if_true, Option.isSome_none, Bool.false_eq_true, if_false]
  cases memberValue f.format.reader r <;> rfl

end

/-! The members of an object, one step at a time -/

abbrev memberStep (fs : List Field) (s : Draft fs × Bool) : Reader (Draft fs × Bool ⊕ Draft fs) :=
  ⟨membersRun fs s, length_membersRun⟩

section
variable {fs : List Field} {d d' : Draft fs} {more : Bool} {t t' r : List Char} {e : Fault}

theorem members_fault (hm : nextMember more t = .error e) :
    repeated (memberStep fs) (d, more) t = .error e := by
  apply repeated_error
  simp only [membersRun, hm]

theorem members_closed (hm : nextMember more t = .ok (.inl r)) :
    repeated (memberStep fs) (d, more) t = .ok (d, r) := by
  apply repeated_inr
  simp only [membersRun, hm]

theorem members_refused (hm : nextMember more t = .ok (.inr t'))
    (h : memberRun fs d t' = .error e) : repeated (memberStep fs) (d, more) t = .error e := by
  apply repeated_error
  simp only [membersRun, hm, h]

theorem members_taken (hm : nextMember more t = .ok (.inr t'))
    (h : memberRun fs d t' = .ok (d', r)) :
    repeated (memberStep fs) (d, more) t = repeated (memberStep fs) (d', false) r := by
  apply repeated_inl
  simp only [membersRun, hm, h]

theorem length_taken (hm : nextMember more t = .ok (.inr t'))
    (h : memberRun fs d t' = .ok (d', r)) : r.length < t.length :=
  Nat.lt_trans (length_memberRun h) (length_nextMember hm (.inr rfl))

end

/-- The row of an object whose members have been read. -/
def finished (fs : List Field) (x : Reading (Draft fs)) : Reading (Row fs) :=
  match x with
  | .error e => .error e
  | .ok (d, r) => (Draft.complete fs d).map fun row => (row, r)

/-! The first field has been read -/

section
variable (name : String) (fs : List Field)

/-- Behind a field that has been read, what is read does not depend on its value. -/
theorem memberRun_held (d : Draft fs) (t : List Char) :
    ∃ x : Reading (Draft fs), ∀ f : Field, f.name = name → ∀ a : f.Value,
      memberRun (f :: fs) (some a, d) t = x.map fun s => ((some a, s.1), s.2) := by
  match hb : Text.body.run t with
  | .error e =>
    refine ⟨.error e, fun f _ a => ?_⟩
    simp only [memberRun, hb]
    rfl
  | .ok (key, r) =>
    by_cases hk : key = name
    · subst hk
      refine ⟨.error (.misfit (.duplicate key)), ?_⟩
      rintro f rfl a
      exact memberRun_again hb a
    · refine ⟨memberRun fs d t, ?_⟩
      rintro f rfl a
      exact memberRun_other hb hk (some a)

theorem repeated_held (d : Draft fs) (more : Bool) (t : List Char) :
    ∃ x : Reading (Draft fs), ∀ f : Field, f.name = name → ∀ a : f.Value,
      repeated (memberStep (f :: fs)) ((some a, d), more) t =
        x.map fun s => ((some a, s.1), s.2) := by
  induction hn : t.length using Nat.strongRecOn generalizing d more t with
  | _ n ih =>
    subst hn
    match hm : nextMember more t with
    | .error e => exact ⟨.error e, fun f hf a => members_fault hm⟩
    | .ok (.inl r) => exact ⟨.ok (d, r), fun f hf a => members_closed hm⟩
    | .ok (.inr t') =>
      obtain ⟨x, hx⟩ := memberRun_held name fs d t'
      match x, hx with
      | .error e, hx => exact ⟨.error e, fun f hf a => members_refused hm (hx f hf a)⟩
      | .ok (d', r), hx =>
        -- any field of this name shows that the rest is shorter
        have short := length_taken hm (hx (.required name .flag) rfl true)
        obtain ⟨x, hx'⟩ := ih _ short d' false r rfl
        exact ⟨x, fun f hf a => (members_taken hm (hx f hf a)).trans (hx' f hf a)⟩

end

/-! The first field is still to come -/

section
variable (name : String) (g : Format α) (check : α → Except Fault β) (value : β → α)
  (fs : List Field)

/-- The fields with the first one read as it stands, and through the check. -/
abbrev plainly : List Field := .required name g :: fs

abbrev checked : List Field := .required name (g.refine check value) :: fs

theorem memberValue_checked (t : List Char) :
    Through check (memberValue g.reader t) (memberValue (g.refine check value).reader t) := by
  unfold memberValue
  cases Place.colon t with
  | error e => exact .refused e e
  | ok r => exact through_check g.reader check r

theorem memberRun_checked (d : Draft fs) (t : List Char) :
    Through (firstRead check) (memberRun (plainly name g fs) (none, d) t)
      (memberRun (checked name g check value fs) (none, d) t) := by
  cases hb : Text.body.run t with
  | error e =>
    simp only [memberRun, hb]
    exact .refused e e
  | ok x =>
    obtain ⟨key, r⟩ := x
    by_cases hk : key = name
    · subst hk
      refine .congr (memberRun_first hb) (memberRun_first hb) ?_
      exact (memberValue_checked g check value r).map (fun a => (some a, d)) (fun b => (some b, d))
        fun _ => rfl
    · refine .congr (memberRun_other hb hk none) (memberRun_other hb hk none) ?_
      cases memberRun fs d t with
      | error e => exact .refused e e
      | ok x => exact .passed x.2 rfl

/-- Once the first field has been read, only the verdict of the check is left to it. -/
theorem repeated_checked_held (d : Draft fs) (a : α) (t : List Char) :
    Through (firstRead check) (repeated (memberStep (plainly name g fs)) ((some a, d), false) t)
      (match check a with
      | .error e => .error e
      | .ok b => repeated (memberStep (checked name g check value fs)) ((some b, d), false) t) := by
  obtain ⟨x, hx⟩ := repeated_held name fs d false t
  have plain := hx (.required name g) rfl a
  have gated (b : β) := hx (.required name (g.refine check value)) rfl b
  refine .congr plain rfl ?_
  match hc : check a, x, gated with
  | .error e, .error e', _ => exact .refused e' e
  | .error e, .ok (d', r), _ => exact .stopped r (firstRead_error hc d')
  | .ok b, .error e, gated => exact .congr rfl (gated b) (.refused e e)
  | .ok b, .ok (d', r), gated => exact .congr rfl (gated b) (.passed r (firstRead_ok hc d'))

theorem repeated_checked (d : Draft fs) (more : Bool) (t : List Char) :
    Through (firstRead check) (repeated (memberStep (plainly name g fs)) ((none, d), more) t)
      (repeated (memberStep (checked name g check value fs)) ((none, d), more) t) := by
  induction hn : t.length using Nat.strongRecOn generalizing d more t with
  | _ n ih =>
    subst hn
    match hm : nextMember more t with
    | .error e => exact .congr (members_fault hm) (members_fault hm) (.refused e e)
    | .ok (.inl r) =>
      exact .congr (members_closed hm) (members_closed hm) (.passed r (firstRead_none check d))
    | .ok (.inr t') =>
      match hx : memberRun (plainly name g fs) (none, d) t',
        hy : memberRun (checked name g check value fs) (none, d) t',
        memberRun_checked name g check value fs d t' with
      | _, _, .refused e e' =>
        exact .congr (members_refused hm hx) (members_refused hm hy) (.refused e e')
      | _, _, .passed (s := (none, d')) r h =>
        cases h
        have rest := ih _ (length_taken hm hx) d' false r rfl
        exact .congr (members_taken hm hx) (members_taken hm hy) rest
      | _, _, .passed (s := (some a, d')) r h =>
        obtain ⟨b, hc, rfl⟩ := firstRead_eq_ok h
        have held := repeated_checked_held name g check value fs d' a r
        rw [hc] at held
        exact .congr (members_taken hm hx) (members_taken hm hy) held
      | _, _, .stopped (s := (some a, d')) r h =>
        have held := repeated_checked_held name g check value fs d' a r
        rw [firstRead_eq_error h] at held
        exact .congr (members_taken hm hx) (members_refused hm hy) held

theorem finished_first {α : Type} (g : Format α) (a : α) (d : Draft fs) (r : List Char) :
    finished (plainly name g fs) (.ok ((some a, d), r)) =
      ((Draft.complete fs d).map fun row => (row, r)).map fun s => ((a, s.1), s.2) := by
  simp only [finished, Draft.complete, Field.required, Option.some_or]
  cases Draft.complete fs d <;> rfl

theorem finished_checked {x : Reading (Option α × Draft fs)} {y : Reading (Option β × Draft fs)}
    (h : Through (firstRead check) x y) :
    Through (first check) (finished (plainly name g fs) x)
      (finished (checked name g check value fs) y) := by
  match x, y, h with
  | _, _, .refused e e' => exact .refused e e'
  | _, _, .passed (s := (none, d)) r h =>
    cases h
    exact .refused _ _
  | _, _, .passed (s := (some a, d)) r h =>
    obtain ⟨b, hc, rfl⟩ := firstRead_eq_ok h
    exact .congr (finished_first name fs g a d r) (finished_first name fs _ b d r)
      (through_paired hc _)
  | _, _, .stopped (s := (some a, d)) r h =>
    exact .congr (finished_first name fs g a d r) rfl (through_unpaired (firstRead_eq_error h) _)

theorem arrayRun_taken {f : Field} (title : String) (arity : Nat) {i : Nat} {t t' r : List Char}
    {a : f.Value} (hn : nextItem (i == 0) t = .ok (.inr t'))
    (h : f.format.reader.run t' = .ok (a, r)) : arrayRun title arity (f :: fs) i t =
      (arrayRun title arity fs (i + 1) r).map fun s => ((a, s.1), s.2) := by
  simp only [arrayRun, hn, h]
  cases arrayRun title arity fs (i + 1) r <;> rfl

theorem arrayRun_refused {f : Field} (title : String) (arity : Nat) {i : Nat} {t t' : List Char}
    {e : Fault} (hn : nextItem (i == 0) t = .ok (.inr t'))
    (h : f.format.reader.run t' = .error e) :
    arrayRun title arity (f :: fs) i t = .error e := by
  simp only [arrayRun, hn, h]

theorem arrayRun_checked (title : String) (arity : Nat) (t : List Char) :
    Through (first check) (arrayRun title arity (plainly name g fs) 0 t)
      (arrayRun title arity (checked name g check value fs) 0 t) := by
  cases hn : nextItem true t with
  | error e =>
    simp only [arrayRun, beq_self_eq_true, hn]
    exact .refused e e
  | ok x =>
    cases x with
    | inl r =>
      simp only [arrayRun, beq_self_eq_true, hn]
      exact .refused _ _
    | inr t' =>
      have through := through_check g.reader check t'
      generalize hx : g.reader.run t' = x at through
      generalize hy : (g.reader.check check).run t' = y at through
      cases through with
      | refused e e' =>
        exact .congr (arrayRun_refused fs title arity hn hx) (arrayRun_refused fs title arity hn hy)
          (.refused e e')
      | passed r h =>
        exact .congr (arrayRun_taken fs title arity hn hx) (arrayRun_taken fs title arity hn hy)
          (through_paired h _)
      | stopped r h =>
        exact .congr (arrayRun_taken fs title arity hn hx) (arrayRun_refused fs title arity hn hy)
          (through_unpaired h _)

theorem rowRun_checked (title : String) (t : List Char) :
    Through (first check) (rowRun title (plainly name g fs) t)
      (rowRun title (checked name g check value fs) t) := by
  unfold rowRun
  split
  next r hb =>
    exact finished_checked name g check value fs
      (repeated_checked name g check value fs (Draft.empty fs) true r)
  next r hb => exact arrayRun_checked name g check value fs title _ r
  next => exact .refused _ _

end

/-! Whole texts -/

namespace Format

theorem decode_map (f : Format α) (of : α → β) (value : β → α) (v : String) :
    (f.map of value).decode v = (f.decode v).map of := by
  change Format.decode ⟨f.reader.map of, _⟩ v = _
  simp only [decode, Reader.map_run]
  cases f.reader.run v.toList with
  | error e => rfl
  | ok x => cases h : (afterBlanks x.2).isEmpty <;> simp [h, Except.map]

section
variable {f : Format σ} {g : Format τ} {check : σ → Except Fault τ} {v : String}

/-- A text that is read without the check gets the verdict of the check. -/
theorem decode_through (h : ∀ t, Through check (f.reader.run t) (g.reader.run t)) {s : σ}
    (hv : f.decode v = .ok s) : g.decode v = check s := by
  obtain ⟨r, hr, hb⟩ := run_of_decode hv
  have through := h v.toList
  rw [hr] at through
  rw [decode]
  generalize g.reader.run v.toList = y at through
  cases through with
  | passed r hc => simp [hc, afterBlanks_blanks hb]
  | stopped r hc => exact hc.symm

theorem exists_of_decode_through (h : ∀ t, Through check (f.reader.run t) (g.reader.run t)) {b : τ}
    (hv : g.decode v = .ok b) : ∃ s, f.decode v = .ok s ∧ check s = .ok b := by
  obtain ⟨r, hr, hb⟩ := run_of_decode hv
  have through := h v.toList
  rw [hr] at through
  simp only [decode]
  generalize f.reader.run v.toList = x at through
  cases through with
  | passed r hc => exact ⟨_, by simp [afterBlanks_blanks hb], hc⟩

end

end Format
end PipelineCache.Json

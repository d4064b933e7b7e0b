import PipelineCache.Json.Fault

/-! Readers take a value off the front of a text. A reader's rest is strictly shorter than its text,
so steps can be repeated until one says that it was the last. -/
namespace PipelineCache.Json
variable {α β σ : Type}

/-- The value at the front of a text and what is left of it. -/
abbrev Reading (α : Type) := Except Fault (α × List Char)

structure Reader (α : Type) where
  run : List Char → Reading α
  shrinks : ∀ {t a r}, run t = .ok (a, r) → r.length < t.length

/-- Changes the value read, or refuses it. -/
def Reader.check (p : Reader α) (f : α → Except Fault β) : Reader β where
  run t :=
    match p.run t with
    | .error e => .error e
    | .ok (a, r) =>
      match f a with
      | .error e => .error e
      | .ok b => .ok (b, r)
  shrinks {t b r} h := by
    split at h
    · cases h
    · rename_i a r' hp
      split at h <;> cases h
      exact p.shrinks hp

def Reader.map (p : Reader α) (f : α → β) : Reader β := p.check fun a => .ok (f a)

theorem Reader.run_check {p : Reader α} {f : α → Except Fault β} {t r : List Char} {a : α} {b : β}
    (h : p.run t = .ok (a, r)) (hf : f a = .ok b) : (p.check f).run t = .ok (b, r) := by
  simp only [Reader.check, h, hf]

theorem Reader.run_map {p : Reader α} {f : α → β} {t r : List Char} {a : α}
    (h : p.run t = .ok (a, r)) : (p.map f).run t = .ok (f a, r) :=
  Reader.run_check h rfl

theorem Reader.map_run (p : Reader α) (f : α → β) (t : List Char) :
    (p.map f).run t = (p.run t).map fun x => (f x.1, x.2) := by
  simp only [Reader.map, Reader.check]
  cases p.run t <;> rfl

def repeated (step : σ → Reader (σ ⊕ α)) (s : σ) (t : List Char) : Reading α :=
  match _h : (step s).run t with
  | .error e => .error e
  | .ok (.inr a, r) => .ok (a, r)
  | .ok (.inl s', r) => repeated step s' r
termination_by t.length
decreasing_by exact (step s).shrinks _h

theorem repeated_eq (step : σ → Reader (σ ⊕ α)) (s : σ) (t : List Char) :
    repeated step s t =
      match (step s).run t with
      | .error e => .error e
      | .ok (.inr a, r) => .ok (a, r)
      | .ok (.inl s', r) => repeated step s' r := by
  rw [repeated]
  split <;> simp_all

theorem repeated_inl {step : σ → Reader (σ ⊕ α)} {s s' : σ} {t r : List Char}
    (h : (step s).run t = .ok (.inl s', r)) : repeated step s t = repeated step s' r := by
  rw [repeated_eq, h]

theorem repeated_inr {step : σ → Reader (σ ⊕ α)} {s : σ} {t r : List Char} {a : α}
    (h : (step s).run t = .ok (.inr a, r)) : repeated step s t = .ok (a, r) := by
  rw [repeated_eq, h]

theorem repeated_error {step : σ → Reader (σ ⊕ α)} {s : σ} {t : List Char} {e : Fault}
    (h : (step s).run t = .error e) : repeated step s t = .error e := by
  rw [repeated_eq, h]

theorem repeated_shrinks (step : σ → Reader (σ ⊕ α)) {s : σ} {t r : List Char} {a : α}
    (h : repeated step s t = .ok (a, r)) : r.length < t.length := by
  fun_induction repeated step s t with
  | case1 => cases h
  | case2 s t a' r' hs => cases h; exact (step s).shrinks hs
  | case3 s t s' r' hs ih => exact Nat.lt_trans (ih h) ((step s).shrinks hs)

/-- Takes steps from a state until one gives the answer. -/
def Reader.loop (step : σ → Reader (σ ⊕ α)) (s : σ) : Reader α where
  run := repeated step s
  shrinks := repeated_shrinks step

def isBlank (c : Char) : Bool := c == ' ' || c == '\t' || c == '\n' || c == '\r'

/-- The text behind the blanks at its front. -/
def afterBlanks (t : List Char) : List Char := t.dropWhile isBlank

theorem length_afterBlanks (t : List Char) : (afterBlanks t).length ≤ t.length :=
  (List.dropWhile_sublist _).length_le

theorem afterBlanks_cons {c : Char} {t r : List Char} (h : afterBlanks t = c :: r) :
    r.length < t.length := by
  have := length_afterBlanks t
  simp only [h, List.length_cons] at this
  omega

theorem afterBlanks_append (ws t : List Char) (h : ∀ c ∈ ws, isBlank c) :
    afterBlanks (ws ++ t) = afterBlanks t := by
  induction ws with
  | nil => rfl
  | cons c ws ih =>
    simp only [List.mem_cons, forall_eq_or_imp] at h
    simp [afterBlanks, h.1] at ih ⊢
    exact ih h.2

/-- The text behind a word that is spelled out at its front. -/
def afterWord : List Char → List Char → Except Fault (List Char)
  | [], t => .ok t
  | _ :: _, [] => .error .truncated
  | c :: w, d :: t => if c = d then afterWord w t else .error .malformed

theorem afterWord_eq_ok {w t r : List Char} : afterWord w t = .ok r ↔ t = w ++ r := by
  induction w generalizing t with
  | nil => simp [afterWord]
  | cons c w ih =>
    cases t with
    | nil => simp [afterWord]
    | cons d t =>
      by_cases hc : c = d
      · simp [afterWord, hc, ih]
      · simp [afterWord, hc, Ne.symm hc]

theorem length_afterWord {w t r : List Char} (h : afterWord w t = .ok r) : r.length ≤ t.length := by
  rw [afterWord_eq_ok] at h
  simp [h]

end PipelineCache.Json

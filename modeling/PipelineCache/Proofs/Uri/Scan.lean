import PipelineCache.Proofs.Uri.Class

/-! What each scan takes from the front of a text, up to the path and what follows it. -/
namespace PipelineCache.Uri
open scoped Computability
open Grammar (word optional pathAbempty tail query fragment mem_optional mem_word_mul)

/-- A text at which a run of the class ends. -/
def Stops (p : Char → Bool) (r : List Char) : Prop := ∀ c ∈ r.head?, p c = false ∧ c ≠ '%'

theorem Scan.bind_eq_ok {α β : Type} {s : Scan α} {f : α → Scan β} {b : β} :
    s >>= f = .ok b ↔ ∃ a, s = .ok a ∧ f a = .ok b := by
  cases s <;> simp [bind, Except.bind]

theorem Scan.map_eq_ok {α β : Type} {s : Scan α} {f : α → β} {b : β} :
    s.map f = .ok b ↔ ∃ a, s = .ok a ∧ f a = b := by
  cases s <;> simp [Except.map]

variable {p : Char → Bool} {t x r : List Char}

theorem run_sound (h : run p t = .ok (x, r)) : Run p x ∧ t = x ++ r ∧ Stops p r := by
  fun_induction run p t generalizing x r with
  | case1 =>
    cases h
    exact ⟨.nil, rfl, by simp [Stops]⟩
  | case3 a b t hex y s hs ih =>
    cases h
    obtain ⟨hy, rfl, stop⟩ := ih hs
    rw [Bool.and_eq_true] at hex
    exact ⟨.octet hex.1 hex.2 hy, rfl, stop⟩
  | case7 c t _ hc hp y s hs ih =>
    cases h
    obtain ⟨hy, rfl, stop⟩ := ih hs
    exact ⟨.char hp hc hy, rfl, stop⟩
  | case8 c t _ hc hp =>
    cases h
    refine ⟨.nil, rfl, ?_⟩
    rintro _ ⟨rfl⟩
    exact ⟨Bool.eq_false_iff.mpr hp, hc⟩
  | case2 | case4 | case5 | case6 => cases h

theorem run_of_stops (h : Stops p r) : run p r = .ok ([], r) := by
  cases r with
  | nil => rfl
  | cons c r =>
    obtain ⟨hp, hc⟩ := h c rfl
    rw [run, if_neg hc, if_neg (by simp [hp])]
    rintro a b t rfl
    exact absurd rfl hc

theorem Run.run_append (h : Run p x) (t : List Char) :
    run p (x ++ t) = (run p t).map fun s => (x ++ s.1, s.2) := by
  induction h with
  | nil =>
    rw [List.nil_append]
    cases run p t <;> rfl
  | @char c x hp hc _ ih =>
    rw [List.cons_append, run, if_neg hc, if_pos hp, ih]
    · cases run p t <;> rfl
    · rintro a b t rfl
      exact absurd rfl hc
  | @octet a b x ha hb _ ih =>
    simp only [List.cons_append, run, ha, hb, Bool.and_self, if_true, ih]
    cases run p t <;> rfl

theorem run_complete (h : Run p x) (stop : Stops p r) : run p (x ++ r) = .ok (x, r) := by
  simp only [h.run_append, run_of_stops stop, Except.map, List.append_nil]

theorem behind_sound (h : behind p t = .ok r) : ∃ x, Run p x ∧ t = x ++ r ∧ Stops p r := by
  obtain ⟨⟨x, _⟩, hs, rfl⟩ := Scan.map_eq_ok.mp h
  exact ⟨x, run_sound hs⟩

theorem behind_complete (h : Run p x) (stop : Stops p r) : behind p (x ++ r) = .ok r := by
  rw [behind, run_complete h stop]
  rfl

/-! What may stand at the front of a text -/

/-- An empty text, or one that begins with one of the characters. -/
def Opens (cs r : List Char) : Prop := ∀ c ∈ r.head?, c ∈ cs

variable {cs ds y : List Char} {m : Char}

theorem Opens.stops (h : Opens cs r) (hp : cs.all fun c => !p c && c != '%') : Stops p r :=
  fun c hc => by simpa using List.all_eq_true.mp hp c (h c hc)

theorem opens_singleton : Opens [m] x ↔ (x.isEmpty || x.head? == some m) := by
  cases x <;> simp [Opens]

theorem Opens.append (hx : Opens cs x) (hy : Opens ds y) : Opens (cs ++ ds) (x ++ y) := by
  intro c hc
  cases x with
  | nil => exact List.mem_append_right _ (hy c hc)
  | cons d x => exact List.mem_append_left _ (hx c hc)

theorem opens_optional {l : Language Char} (h : t ∈ optional (word (String.singleton m) * l)) :
    Opens [m] t := by
  rintro c hc
  obtain rfl | h := mem_optional.mp h
  · cases hc
  · obtain ⟨x, -, rfl⟩ := mem_word_mul.mp h
    rw [String.toList_singleton] at hc
    cases hc
    exact List.mem_singleton_self m

theorem opens_tail (h : t ∈ tail) : Opens ['?', '#'] t := by
  obtain ⟨q, hq, f, hf, rfl⟩ := Language.mem_mul.mp h
  exact Opens.append (opens_optional (m := '?') hq) (opens_optional (m := '#') hf)

theorem opens_kstar {l : Language Char} (h : t ∈ (word (String.singleton m) * l)∗) :
    Opens [m] t := by
  rw [← Language.one_add_self_mul_kstar_eq_kstar, mul_assoc] at h
  exact opens_optional h

theorem opens_pathAbempty (h : t ∈ pathAbempty) : Opens ['/'] t := opens_kstar (m := '/') h

/-! The query and the fragment -/

theorem part_sound (h : part m t = .ok r) :
    ∃ x ∈ optional (word (String.singleton m) * query), t = x ++ r := by
  cases t with
  | nil =>
    cases h
    exact ⟨[], .inl rfl, rfl⟩
  | cons c t =>
    by_cases hc : c = m
    · rw [part, if_pos hc] at h
      obtain ⟨x, hx, rfl, -⟩ := behind_sound h
      refine ⟨c :: x, .inr (mem_word_mul.mpr ⟨x, ?_, ?_⟩), rfl⟩
      · exact runs_queryChar ▸ hx.mem_runs
      · rw [String.toList_singleton, List.singleton_append, hc]
    · rw [part, if_neg hc] at h
      cases h
      exact ⟨[], .inl rfl, rfl⟩

theorem part_complete (h : x ∈ optional (word (String.singleton m) * query))
    (stop : Stops isQueryChar r) (hr : r.head? ≠ some m) : part m (x ++ r) = .ok r := by
  obtain rfl | h := mem_optional.mp h
  · cases r with
    | nil => rfl
    | cons c r => exact if_neg fun hc => hr (congrArg some hc)
  · obtain ⟨y, hy, rfl⟩ := mem_word_mul.mp h
    rw [← runs_queryChar, mem_runs (by decide)] at hy
    rw [String.toList_singleton, List.singleton_append, List.cons_append, part, if_pos rfl,
      behind_complete hy stop]

theorem finish_eq_ok : finish t = .ok () ↔ t = [] := by
  cases t <;> simp [finish]

theorem ending_iff : ending t = .ok () ↔ t ∈ tail := by
  simp only [ending, Scan.bind_eq_ok, finish_eq_ok]
  constructor
  · rintro ⟨s, one, _, two, rfl⟩
    obtain ⟨q, hq, rfl⟩ := part_sound one
    obtain ⟨f, hf, rfl⟩ := part_sound two
    rw [List.append_nil]
    exact Language.append_mem_mul hq hf
  · intro h
    obtain ⟨q, hq, f, hf, rfl⟩ := Language.mem_mul.mp h
    have hash : Opens ['#'] f := opens_optional (m := '#') hf
    refine ⟨f, ?_, [], ?_, rfl⟩
    · exact part_complete hq (hash.stops (by decide)) fun hc => by simpa using hash _ hc
    · simpa using part_complete (r := []) (m := '#') hf (by simp [Stops]) (by simp)

/-! Paths -/

theorem run_pathChar_complete {e : List Char} (h : x ∈ Grammar.segment * pathAbempty)
    (he : e ∈ tail) : run isPathChar (x ++ e) = .ok (x, e) := by
  rw [← runs_pathChar, mem_runs (by decide)] at h
  exact run_complete h ((opens_tail he).stops (by decide))

theorem path_iff : path t = .ok () ↔ t ∈ Grammar.segment * pathAbempty * tail := by
  simp only [path, Scan.bind_eq_ok, ending_iff]
  constructor
  · rintro ⟨e, h, he⟩
    obtain ⟨x, hx, rfl, -⟩ := behind_sound h
    exact Language.append_mem_mul (runs_pathChar ▸ hx.mem_runs) he
  · intro h
    obtain ⟨x, hx, e, he, rfl⟩ := Language.mem_mul.mp h
    exact ⟨e, Scan.map_eq_ok.mpr ⟨_, run_pathChar_complete hx he, rfl⟩, he⟩

theorem Run.head (h : Run p (m :: x)) : p m ∨ m = '%' := by
  cases h with
  | char hp => exact .inl hp
  | octet => exact .inr rfl

theorem mem_pathAbempty_of_opens (h : x ∈ Grammar.segment * pathAbempty) (hx : Opens ['/'] x) :
    x ∈ pathAbempty := by
  obtain ⟨s, hs, y, hy, rfl⟩ := Language.mem_mul.mp h
  cases s with
  | nil => exact hy
  | cons c s =>
    rw [← runs_segmentChar, mem_runs (by decide)] at hs
    obtain rfl : c = '/' := by simpa using hx c rfl
    exact absurd hs.head (by decide)

theorem rootedPath_iff : rootedPath t = .ok () ↔ t ∈ pathAbempty * tail := by
  simp only [rootedPath, Scan.bind_eq_ok, Prod.exists]
  constructor
  · rintro ⟨x, e, h, he⟩
    obtain ⟨hx, rfl, -⟩ := run_sound h
    split at he
    next hc =>
      refine Language.append_mem_mul (mem_pathAbempty_of_opens ?_ ?_) (ending_iff.mp he)
      · exact runs_pathChar ▸ hx.mem_runs
      · exact opens_singleton.mpr hc
    next => cases he
  · intro h
    obtain ⟨x, hx, e, he, rfl⟩ := Language.mem_mul.mp h
    have hs : x ∈ Grammar.segment * pathAbempty :=
      Language.append_mem_mul (Language.nil_mem_kstar _) hx
    refine ⟨x, e, run_pathChar_complete hs he, ?_⟩
    rw [if_pos (opens_singleton.mp (opens_pathAbempty hx))]
    exact ending_iff.mpr he

end PipelineCache.Uri

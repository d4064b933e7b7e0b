import PipelineCache.Proofs.Uri.Authority

/-! The scan of a reference accepts exactly what the grammar derives. -/
namespace PipelineCache.Uri
open scoped Computability
open Grammar (word segmentNz segmentNzNc pathAbempty pathAbsolute pathEmpty tail scheme hierPart
  relativePart relativeRef uriReference mem_optional mem_word_mul mem_of_le)

variable {p : Char → Bool} {t w x y e r : List Char}

/-! Paths by their first segment -/

/-- A text in which an authority would follow. -/
def Doubled (t : List Char) : Prop := ∃ u, t = '/' :: '/' :: u

theorem mem_kstar_nonempty {l : Language Char} (hl : [] ∉ l) :
    t ∈ l * l∗ ↔ t ∈ l∗ ∧ t ≠ [] := by
  constructor
  · intro h
    refine ⟨mem_of_le mul_kstar_le_kstar h, ?_⟩
    rintro rfl
    obtain ⟨a, ha, b, -, hab⟩ := Language.mem_mul.mp h
    obtain ⟨rfl, -⟩ := List.append_eq_nil_iff.mp hab
    exact hl ha
  · rintro ⟨h, hne⟩
    rw [← Language.one_add_self_mul_kstar_eq_kstar] at h
    exact h.resolve_left hne

theorem nil_not_mem_class : [] ∉ Grammar.one p + Grammar.pctEncoded := by
  rintro (⟨c, -, h⟩ | h)
  · cases h
  · obtain ⟨a, b, -, -, h⟩ := mem_pctEncoded.mp h
    cases h

theorem mem_segmentNz : t ∈ segmentNz ↔ t ∈ Grammar.segment ∧ t ≠ [] := by
  rw [segmentNz, Grammar.segment, pchar_eq]
  exact mem_kstar_nonempty nil_not_mem_class

theorem mem_segmentNzNc : t ∈ segmentNzNc ↔ t ∈ runs isColonless ∧ t ≠ [] := by
  rw [segmentNzNc_eq]
  exact mem_kstar_nonempty nil_not_mem_class

theorem no_slash (hp : p '/' = false) (hp' : p '%' = false) (h : t ∈ runs p) :
    t.head? ≠ some '/' := by
  rw [mem_runs hp'] at h
  cases t with
  | nil => simp
  | cons c t =>
    rintro ⟨⟩
    simpa [hp] using h.head

theorem segment_no_slash (h : t ∈ Grammar.segment) : t.head? ≠ some '/' :=
  no_slash (by decide) (by decide) (runs_segmentChar ▸ h)

theorem mem_pathAbempty : t ∈ pathAbempty ↔
    t = [] ∨ ∃ s ∈ Grammar.segment, ∃ y ∈ pathAbempty, t = '/' :: (s ++ y) := by
  have expand : pathAbempty = 1 + word "/" * (Grammar.segment * pathAbempty) := by
    rw [← mul_assoc]
    exact (Language.one_add_self_mul_kstar_eq_kstar _).symm
  conv_lhs => rw [expand]
  simp only [Language.mem_add, Language.mem_one, mem_word_mul]
  simp only [Language.mem_mul]
  constructor
  · rintro (h | ⟨_, ⟨s, hs, y, hy, rfl⟩, rfl⟩)
    · exact .inl h
    · exact .inr ⟨s, hs, y, hy, rfl⟩
  · rintro (h | ⟨s, hs, y, hy, rfl⟩)
    · exact .inl h
    · exact .inr ⟨_, ⟨s, hs, y, hy, rfl⟩, rfl⟩

theorem mem_pathAbsolute : t ∈ pathAbsolute ↔
    t = ['/'] ∨ ∃ s ∈ segmentNz, ∃ y ∈ pathAbempty, t = '/' :: (s ++ y) := by
  simp only [pathAbsolute, mem_word_mul, mem_optional]
  simp only [Language.mem_mul]
  constructor
  · rintro ⟨_, rfl | ⟨s, hs, y, hy, rfl⟩, rfl⟩
    · exact .inl rfl
    · exact .inr ⟨s, hs, y, hy, rfl⟩
  · rintro (rfl | ⟨s, hs, y, hy, rfl⟩)
    · exact ⟨[], .inl rfl, rfl⟩
    · exact ⟨_, .inr ⟨s, hs, y, hy, rfl⟩, rfl⟩

theorem mem_undoubled :
    t ∈ pathAbsolute ∨ t ∈ pathEmpty ↔ t ∈ pathAbempty ∧ ¬ Doubled t := by
  rw [mem_pathAbsolute, mem_pathAbempty]
  constructor
  · rintro ((rfl | ⟨s, hs, y, hy, rfl⟩) | rfl)
    · have nil {l : Language Char} : [] ∈ l∗ := Language.nil_mem_kstar l
      exact ⟨.inr ⟨[], nil, [], nil, rfl⟩, by simp [Doubled]⟩
    · obtain ⟨hs, hne⟩ := mem_segmentNz.mp hs
      refine ⟨.inr ⟨s, hs, y, hy, rfl⟩, ?_⟩
      rintro ⟨u, hu⟩
      obtain ⟨c, s, rfl⟩ := List.exists_cons_of_ne_nil hne
      cases hu
      exact segment_no_slash hs rfl
    · exact ⟨.inl rfl, by simp [Doubled]⟩
  · rintro ⟨rfl | ⟨s, hs, y, hy, rfl⟩, hd⟩
    · exact .inr rfl
    · refine .inl ?_
      obtain rfl | hne := eq_or_ne s []
      · obtain rfl | ⟨s, -, y, -, rfl⟩ := mem_pathAbempty.mp hy
        · exact .inl rfl
        · exact absurd ⟨_, rfl⟩ hd
      · exact .inr ⟨s, mem_segmentNz.mpr ⟨hs, hne⟩, y, hy, rfl⟩

section
variable {first firstNz : Language Char}

/-- The paths that no authority stands before, by what their first segment may be. -/
theorem mem_path (nil : [] ∈ first) (hf : ∀ s, s ∈ firstNz ↔ s ∈ first ∧ s ≠ [])
    (hs : ∀ s ∈ first, s.head? ≠ some '/') :
    t ∈ pathAbsolute + firstNz * pathAbempty + pathEmpty ↔
      t ∈ first * pathAbempty ∧ ¬ Doubled t := by
  simp only [Language.mem_add, or_right_comm, mem_undoubled]
  constructor
  · rintro (⟨h, hd⟩ | h)
    · exact ⟨Language.append_mem_mul nil h, hd⟩
    · obtain ⟨s, hs', y, hy, rfl⟩ := Language.mem_mul.mp h
      obtain ⟨hs', hne⟩ := (hf s).mp hs'
      refine ⟨Language.append_mem_mul hs' hy, ?_⟩
      rintro ⟨u, hu⟩
      obtain ⟨c, s, rfl⟩ := List.exists_cons_of_ne_nil hne
      obtain ⟨rfl, -⟩ := List.cons.inj hu
      exact hs _ hs' rfl
  · rintro ⟨h, hd⟩
    obtain ⟨s, hs', y, hy, rfl⟩ := Language.mem_mul.mp h
    obtain rfl | hne := eq_or_ne s []
    · exact .inl ⟨hy, hd⟩
    · exact .inr (Language.append_mem_mul ((hf s).mpr ⟨hs', hne⟩) hy)

theorem doubled_append (he : Opens ['?', '#'] e) : Doubled (x ++ e) ↔ Doubled x := by
  constructor
  · rintro ⟨u, hu⟩
    obtain _ | ⟨a, _ | ⟨b, x⟩⟩ := x
    · exact absurd (he '/' (by simp_all)) (by decide)
    · exact absurd (he '/' (by simp_all)) (by decide)
    · cases hu
      exact ⟨x, rfl⟩
  · rintro ⟨u, rfl⟩
    exact ⟨u ++ e, rfl⟩

theorem mem_path_tail (nil : [] ∈ first) (hf : ∀ s, s ∈ firstNz ↔ s ∈ first ∧ s ≠ [])
    (hs : ∀ s ∈ first, s.head? ≠ some '/') :
    t ∈ (pathAbsolute + firstNz * pathAbempty + pathEmpty) * tail ↔
      t ∈ first * pathAbempty * tail ∧ ¬ Doubled t := by
  simp only [Language.mem_mul (l := _ + _), Language.mem_mul (m := tail), mem_path nil hf hs]
  constructor
  · rintro ⟨x, ⟨hx, hd⟩, e, he, rfl⟩
    exact ⟨⟨x, hx, e, he, rfl⟩, mt (doubled_append (opens_tail he)).mp hd⟩
  · rintro ⟨⟨x, hx, e, he, rfl⟩, hd⟩
    exact ⟨x, ⟨hx, mt (doubled_append (opens_tail he)).mpr hd⟩, e, he, rfl⟩

end

/-! What stands behind a scheme -/

theorem mem_doubled {l : Language Char} : t ∈ word "//" * l ↔ ∃ u ∈ l, t = '/' :: '/' :: u :=
  mem_word_mul

theorem mem_hierPart_tail : t ∈ hierPart * tail ↔
    (∃ u, authority u = .ok () ∧ t = '/' :: '/' :: u) ∨
      t ∈ Grammar.segment * pathAbempty * tail ∧ ¬ Doubled t := by
  have split : hierPart * tail = word "//" * (Grammar.authority * (pathAbempty * tail)) +
      (pathAbsolute + segmentNz * pathAbempty + pathEmpty) * tail := by
    simp only [hierPart, Grammar.pathRootless, add_mul, mul_assoc, add_assoc]
  have nil : [] ∈ Grammar.segment := Language.nil_mem_kstar _
  rw [split, Language.mem_add, mem_doubled,
    mem_path_tail nil (fun _ => mem_segmentNz) fun _ => segment_no_slash]
  simp only [authority_eq_ok]

theorem hierarchy_eq_ok : hierarchy t = .ok () ↔ t ∈ hierPart * tail := by
  rw [mem_hierPart_tail]
  unfold hierarchy
  split
  next u => simp [Doubled]
  next hd =>
    have hd : ¬ Doubled t := fun ⟨u, hu⟩ => hd u hu
    rw [path_iff]
    constructor
    · exact fun h => .inr ⟨h, hd⟩
    · rintro (⟨u, -, rfl⟩ | h)
      · exact absurd ⟨u, rfl⟩ hd
      · exact h.1

/-! References without a scheme -/

theorem mem_relativeRef : t ∈ relativeRef ↔
    (∃ u, authority u = .ok () ∧ t = '/' :: '/' :: u) ∨
      t ∈ runs isColonless * pathAbempty * tail ∧ ¬ Doubled t := by
  have split : relativeRef = word "//" * (Grammar.authority * (pathAbempty * tail)) +
      (pathAbsolute + segmentNzNc * pathAbempty + pathEmpty) * tail := by
    simp only [relativeRef, relativePart, Grammar.pathNoscheme, add_mul, mul_assoc, add_assoc]
  have nil : [] ∈ runs isColonless := Language.nil_mem_kstar _
  rw [split, Language.mem_add, mem_doubled,
    mem_path_tail nil (fun _ => mem_segmentNzNc) fun _ => no_slash (by decide) (by decide)]
  simp only [authority_eq_ok]

theorem run_colonless (h : t ∈ runs isColonless * pathAbempty * tail) :
    ∃ x r, run isColonless t = .ok (x, r) ∧ r ∈ pathAbempty * tail := by
  rw [mul_assoc] at h
  obtain ⟨x, hx, r, hr, rfl⟩ := Language.mem_mul.mp h
  rw [mem_runs (by decide)] at hx
  exact ⟨x, r, run_complete hx ((behind_of_mem hr).stops (by decide)), hr⟩

/-- Behind a run without colons a path goes on with a slash only. -/
theorem opens_slash (h : x ∈ Grammar.segment * pathAbempty) (stop : Stops isColonless (x ++ e))
    (hc : (x ++ e).head? ≠ some ':') : Opens ['/'] x := by
  rw [← runs_pathChar, mem_runs (by decide)] at h
  cases x with
  | nil => simp [Opens]
  | cons c x =>
    rintro _ ⟨rfl⟩
    obtain ⟨hp, hpct⟩ := stop c rfl
    have colon : c ≠ ':' := fun h => hc (congrArg some h)
    simpa [isPathChar, hp, hpct, colon] using h.head

theorem relative_eq_ok :
    relative t = .ok () ↔ t ∈ runs isColonless * pathAbempty * tail := by
  constructor
  · intro h
    rw [relative, Scan.bind_eq_ok] at h
    obtain ⟨r, hs, h⟩ := h
    obtain ⟨x, hx, rfl, stop⟩ := behind_sound hs
    split at h
    next => cases h
    next hc =>
      obtain ⟨z, hz, e, he, rfl⟩ := Language.mem_mul.mp (path_iff.mp h)
      rw [mul_assoc]
      refine Language.append_mem_mul hx.mem_runs (Language.append_mem_mul ?_ he)
      refine mem_pathAbempty_of_opens hz (opens_slash hz stop fun colon => ?_)
      obtain ⟨r, hr⟩ := List.head?_eq_some_iff.mp colon
      exact hc r hr
  · intro h
    obtain ⟨x, r, hs, hr⟩ := run_colonless h
    rw [relative, Scan.bind_eq_ok]
    refine ⟨r, Scan.map_eq_ok.mpr ⟨_, hs, rfl⟩, ?_⟩
    split
    next => exact absurd (behind_of_mem hr ':' rfl) (by decide)
    next =>
      rw [path_iff, mul_assoc]
      exact Language.append_mem_mul (Language.nil_mem_kstar _) hr

/-! References -/

theorem mem_scheme : w ∈ scheme ↔ w.head?.any isLetter ∧ w.all isSchemeChar := by
  have letter {c : Char} (h : isLetter c) : isSchemeChar c := by simp [isSchemeChar, h]
  rw [scheme, ← one_schemeChar, ← one_letter, Language.mem_mul]
  constructor
  · rintro ⟨_, ⟨c, hc, rfl⟩, x, hx, rfl⟩
    exact ⟨hc, by simpa [letter hc] using mem_one_kstar.mp hx⟩
  · rintro ⟨hc, hw⟩
    cases w with
    | nil => cases hc
    | cons c w =>
      rw [List.all_cons, Bool.and_eq_true] at hw
      exact ⟨[c], ⟨c, hc, rfl⟩, w, mem_one_kstar.mpr hw.2, rfl⟩

theorem mem_uri : t ∈ Grammar.uri ↔ ∃ r, t.dropWhile isSchemeChar = ':' :: r ∧
    (t.takeWhile isSchemeChar).head?.any isLetter ∧ hierarchy r = .ok () := by
  rw [Grammar.uri, mul_assoc, mul_assoc, Language.mem_mul]
  constructor
  · rintro ⟨w, hw, z, hz, rfl⟩
    obtain ⟨r, hr, rfl⟩ := mem_word_mul.mp hz
    obtain ⟨hl, hw⟩ := mem_scheme.mp hw
    obtain ⟨one, two⟩ := takeWhile_append_of_stop (r := ':' :: r) (List.all_eq_true.mp hw)
      (by rintro _ ⟨rfl⟩; decide)
    refine ⟨r, two, ?_, hierarchy_eq_ok.mpr hr⟩
    rw [show w ++ (":".toList ++ r) = w ++ ':' :: r from rfl, one]
    exact hl
  · rintro ⟨r, hd, hl, hr⟩
    refine ⟨_, mem_scheme.mpr ⟨hl, List.all_takeWhile⟩, ':' :: r, ?_, ?_⟩
    · exact mem_word_mul.mpr ⟨r, hierarchy_eq_ok.mp hr, rfl⟩
    · rw [← hd, List.takeWhile_append_dropWhile]

theorem run_scheme (t : List Char) : Run isColonless (t.takeWhile isSchemeChar) := by
  refine Run.of_all fun c hc => ?_
  have hs := List.all_eq_true.mp List.all_takeWhile c hc
  refine ⟨?_, ?_⟩
  · simp only [isSchemeChar, Bool.or_eq_true, beq_iff_eq] at hs
    obtain (((h | h) | rfl) | rfl) | rfl := hs
    · simp [isColonless, isHostChar, isUnreserved, h]
    · simp [isColonless, isHostChar, isUnreserved, h]
    all_goals decide
  · rintro rfl
    exact absurd hs (by decide)

theorem mem_relative_append (hw : Run isColonless w) :
    w ++ t ∈ runs isColonless * pathAbempty * tail ↔
      t ∈ runs isColonless * pathAbempty * tail := by
  constructor
  · intro h
    obtain ⟨x, r, hs, hr⟩ := run_colonless h
    rw [hw.run_append] at hs
    obtain ⟨⟨y, s⟩, ht, heq⟩ := Scan.map_eq_ok.mp hs
    cases heq
    obtain ⟨hy, rfl, -⟩ := run_sound ht
    rw [mul_assoc]
    exact Language.append_mem_mul hy.mem_runs hr
  · intro h
    have twice : runs isColonless * runs isColonless = runs isColonless := kstar_mul_kstar _
    rw [← twice, mul_assoc, mul_assoc, ← mul_assoc _ pathAbempty]
    exact Language.append_mem_mul hw.mem_runs h

theorem not_relativeRef (h : t.dropWhile isSchemeChar = ':' :: r) : t ∉ relativeRef := by
  have split := List.takeWhile_append_dropWhile (p := isSchemeChar) (l := t)
  rw [h] at split
  rw [mem_relativeRef]
  rintro (⟨u, -, rfl⟩ | ⟨ht, -⟩)
  · cases h
  · rw [← split, mem_relative_append (run_scheme t)] at ht
    obtain ⟨x, s, hs, hs'⟩ := run_colonless ht
    have front : run isColonless (':' :: r) = .ok ([], ':' :: r) :=
      run_of_stops (by rintro _ ⟨rfl⟩; decide)
    rw [front] at hs
    cases hs
    exact absurd (behind_of_mem hs' ':' rfl) (by decide)

theorem reference_eq_ok : reference t = .ok () ↔ t ∈ uriReference := by
  have split := List.takeWhile_append_dropWhile (p := isSchemeChar) (l := t)
  rw [uriReference, Language.mem_add, mem_uri]
  unfold reference
  split
  next r hd =>
    have rel := not_relativeRef hd
    split
    next hl => simp [hd, hl, rel]
    next hl => simp [hl, rel]
  next r hw hd =>
    rw [hw, hd] at split
    rw [hd, ← split, mem_relativeRef]
    simp [Doubled]
  next hc hdd =>
    have doubled : ¬ Doubled t := by
      rintro ⟨u, rfl⟩
      exact hdd u rfl rfl
    have uri : ¬ ∃ r, t.dropWhile isSchemeChar = ':' :: r ∧
        (t.takeWhile isSchemeChar).head?.any isLetter ∧ hierarchy r = .ok () :=
      fun ⟨r, hr, _⟩ => hc r hr
    rw [relative_eq_ok, ← mem_relative_append (run_scheme t), split, mem_relativeRef]
    constructor
    · exact fun h => .inr (.inr ⟨h, doubled⟩)
    · rintro (h | ⟨u, -, rfl⟩ | h)
      · exact absurd h uri
      · exact absurd ⟨u, rfl⟩ doubled
      · exact h.1

end PipelineCache.Uri

import PipelineCache.Proofs.Files.Path

/-! The normal form of a path: its components with one slash between them, behind the root's slash
where it has one. It names the same path, and two paths are the same to `==` exactly where their
normal forms are the same text. -/
namespace PipelineCache

theorem Text.not_mem_of_mem_pieces {α : Type} [DecidableEq α] {sep : α} {t p : List α}
    (h : p ∈ pieces sep t) : sep ∉ p := by
  induction t generalizing p with
  | nil => simp_all [pieces]
  | cons c t ih =>
    rw [pieces] at h
    split at h
    · obtain rfl | h := List.mem_cons.1 h
      · exact List.not_mem_nil
      · exact ih h
    · next hc =>
      cases hp : pieces sep t with
      | nil => exact absurd hp (pieces_ne_nil sep t)
      | cons q qs =>
        rw [hp] at h ih
        obtain rfl | h := List.mem_cons.1 h
        · rw [List.mem_cons, not_or]
          exact ⟨Ne.symm hc, ih List.mem_cons_self⟩
        · exact ih (List.mem_cons_of_mem q h)

/-- What holds no separator is glued to the last piece. -/
theorem Text.pieces_append_of_not_mem {α : Type} [DecidableEq α] {sep : α} (s : List α)
    {t : List α} (h : sep ∉ t) :
    pieces sep (s ++ t) = (pieces sep s).dropLast ++ [(pieces sep s).getLastD [] ++ t] := by
  induction s with
  | nil => simp [pieces, pieces_of_not_mem h]
  | cons c s ih =>
    cases hs : pieces sep s with
    | nil => exact absurd hs (pieces_ne_nil sep s)
    | cons p ps =>
      rw [hs] at ih
      by_cases hc : c = sep
      · simp [pieces, hc, hs, ih]
      · cases ps <;> simp_all [pieces, consPiece]

namespace Path

def slashed : List (List Char) → List Char
  | [] => []
  | [c] => c
  | c :: d :: cs => c ++ '/' :: slashed (d :: cs)

def normalChars (t : List Char) : List Char :=
  if startsAtRoot t then '/' :: slashed (componentChars t) else slashed (componentChars t)

/-- What is left when slashes that are repeated or trail and dots behind the start are dropped. -/
def normal (p : Path) : Path := ⟨String.ofList (normalChars p.text.toList)⟩

theorem pieces_slashed {c : List Char} {cs : List (List Char)} (h : ∀ d ∈ c :: cs, '/' ∉ d) :
    Text.pieces '/' (slashed (c :: cs)) = c :: cs := by
  induction cs generalizing c with
  | nil => exact Text.pieces_of_not_mem (h c List.mem_cons_self)
  | cons d cs ih =>
    obtain ⟨hc, hcs⟩ := List.forall_mem_cons.1 h
    rw [slashed, Text.pieces_append_sep, Text.pieces_of_not_mem hc, ih hcs, List.singleton_append]

theorem slashed_pieces (t : List Char) : slashed (Text.pieces '/' t) = t := by
  induction t with
  | nil => rfl
  | cons c t ih =>
    cases ht : Text.pieces '/' t with
    | nil => exact absurd ht (Text.pieces_ne_nil '/' t)
    | cons p ps =>
      rw [ht] at ih
      by_cases hc : c = '/'
      · simp [Text.pieces, hc, ht, slashed, ih]
      · cases ps <;> simp_all [Text.pieces, Text.consPiece, slashed]

theorem slash_not_mem_component {t c : List Char} (h : c ∈ componentChars t) : '/' ∉ c := by
  rw [componentChars] at h
  split at h
  · exact absurd h List.not_mem_nil
  · next d ds hp =>
    apply Text.not_mem_of_mem_pieces (t := t)
    rw [hp]
    obtain h | h := List.mem_append.1 h
    · split at h
      · exact absurd h List.not_mem_nil
      · exact List.mem_singleton.1 h ▸ List.mem_cons_self
    · exact List.mem_cons_of_mem d (List.mem_filter.1 h).1

theorem componentChars_of_root (t : List Char) :
    componentChars ('/' :: t) = (Text.pieces '/' t).filter countsInside := by
  have h := componentChars_append_sep [] t
  rwa [List.nil_append] at h

/-- Only behind the first component of a relative path are empty ones and dots dropped. -/
theorem componentChars_of_relative {c : Char} {t : List Char} (h : c ≠ '/') :
    ∃ d ds, componentChars (c :: t) = d :: ds ∧ d ≠ [] ∧ ∀ e ∈ ds, countsInside e := by
  cases hp : Text.pieces '/' t with
  | nil => exact absurd hp (Text.pieces_ne_nil '/' t)
  | cons d ds =>
    refine ⟨c :: d, ds.filter countsInside, ?_, List.cons_ne_nil c d, fun e he => ?_⟩
    · simp [componentChars, Text.pieces, h, hp, Text.consPiece]
    · exact (List.mem_filter.1 he).2

theorem startsAtRoot_normalChars (t : List Char) : startsAtRoot (normalChars t) = startsAtRoot t := by
  cases t with
  | nil => rfl
  | cons c t =>
    by_cases hc : c = '/'
    · subst hc
      rfl
    · have hr : startsAtRoot (c :: t) = false := by simpa [startsAtRoot] using hc
      obtain ⟨d, ds, hd, hne, -⟩ := componentChars_of_relative (t := t) hc
      have hs := slash_not_mem_component (hd ▸ List.mem_cons_self : d ∈ componentChars (c :: t))
      obtain ⟨e, d, rfl⟩ := List.exists_cons_of_ne_nil hne
      have he : e ≠ '/' := by
        rintro rfl
        exact hs List.mem_cons_self
      rw [hr, normalChars, hr, hd]
      cases ds <;> simpa [slashed, startsAtRoot] using he

theorem componentChars_normalChars (t : List Char) :
    componentChars (normalChars t) = componentChars t := by
  cases t with
  | nil => rfl
  | cons c t =>
    have hs (d : List Char) (hd : d ∈ componentChars (c :: t)) := slash_not_mem_component hd
    by_cases hc : c = '/'
    · subst hc
      change componentChars ('/' :: slashed (componentChars ('/' :: t))) = _
      rw [componentChars_of_root, componentChars_of_root]
      rw [componentChars_of_root] at hs
      cases hp : (Text.pieces '/' t).filter countsInside with
      | nil => rfl
      | cons d ds =>
        rw [hp] at hs
        rw [pieces_slashed hs, ← hp, List.filter_filter]
        simp
    · have hr : startsAtRoot (c :: t) = false := by simpa [startsAtRoot] using hc
      obtain ⟨d, ds, hd, hne, hin⟩ := componentChars_of_relative (t := t) hc
      rw [hd] at hs
      rw [normalChars, hr, hd, if_neg Bool.false_ne_true, componentChars, pieces_slashed hs]
      simp [hne, List.filter_eq_self.2 hin]

theorem view_normal (p : Path) : p.normal.view = p.view := by
  simp only [view, isAbsolute, normal, String.toList_ofList, startsAtRoot_normalChars,
    componentChars_normalChars]

theorem normal_eq_of_view {p q : Path} (h : p.view = q.view) : p.normal = q.normal := by
  obtain ⟨ha, hc⟩ := View.mk.inj h
  have hc := (List.map_inj_right fun _ _ => String.ofList_inj.1).1 hc
  simp only [isAbsolute] at ha
  rw [normal, normal, normalChars, normalChars, ha, hc]

theorem beq_iff_view {p q : Path} : p == q ↔ p.view = q.view := by
  change (p.view == q.view) ↔ _
  rw [beq_iff_eq]

/-- The normal form tells just what `==` tells. -/
theorem beq_iff_normal {p q : Path} : p == q ↔ p.normal = q.normal := by
  rw [beq_iff_view]
  refine ⟨normal_eq_of_view, fun h => ?_⟩
  rw [← p.view_normal, h, view_normal]

theorem isEmpty_iff_view {p : Path} : p.isEmpty ↔ p.view = ⟨false, []⟩ := by
  rw [isEmpty_eq, view, isAbsolute]
  cases p.text.toList with
  | nil => exact ⟨fun _ => rfl, fun _ => rfl⟩
  | cons c t =>
    by_cases hc : c = '/'
    · simp [startsAtRoot, hc]
    · obtain ⟨d, ds, hd, -, -⟩ := componentChars_of_relative (t := t) hc
      simp [hd]

example : (normal ⟨"./a//./b/../.c/."⟩).text = "./a/b/../.c" := by decide +kernel

end Path
end PipelineCache

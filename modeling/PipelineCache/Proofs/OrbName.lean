import PipelineCache.Proofs.Location
import PipelineCache.Proofs.Files.Normal

/-! When two orbs have one file. Empty pieces and dots in front of the last slash of a name make no
difference to its path; all else does, so that plain names have files of their own. -/
namespace PipelineCache

/-- The pieces of an orb's name on which its file depends: before the last slash none that is empty
or a dot, and behind it always one, since the ending is glued to it. -/
def orbSteps (orb : String) : List (List Char) :=
  let ps := Text.pieces '/' orb.toList
  ps.dropLast.filter Path.countsInside ++ [ps.getLastD []]

/-- No piece in front of the last slash is empty or a dot; so no slash stands at the start. -/
def IsPlainName (orb : String) : Prop :=
  ∀ p ∈ (Text.pieces '/' orb.toList).dropLast, Path.countsInside p

instance (orb : String) : Decidable (IsPlainName orb) :=
  inferInstanceAs (Decidable (∀ p ∈ (Text.pieces '/' orb.toList).dropLast, Path.countsInside p))

theorem countsInside_fileName (t : List Char) : Path.countsInside (t ++ ".yml".toList) := by
  have hl : t ++ ".yml".toList ≠ ['.'] := by
    intro h
    have hl := congrArg List.length h
    simp at hl
  simpa [Path.countsInside] using hl

theorem inner_fileName_inj {a b : String} :
    Path.inner (a ++ ".yml") = Path.inner (b ++ ".yml") ↔ orbSteps a = orbSteps b := by
  have inner (orb : String) : Path.inner (orb ++ ".yml") =
      ((Text.pieces '/' orb.toList).dropLast.filter Path.countsInside ++
        [(Text.pieces '/' orb.toList).getLastD [] ++ ".yml".toList]).map String.ofList := by
    rw [Path.inner, String.toList_append, Text.pieces_append_of_not_mem _ (by decide),
      List.filter_append,
      List.filter_eq_self.2 (List.forall_mem_singleton.2 (countsInside_fileName _))]
  rw [inner, inner, List.map_inj_right fun _ _ => String.ofList_inj.1]
  constructor
  · intro h
    obtain ⟨hi, hl⟩ := List.append_inj' h rfl
    rw [List.singleton_inj, List.append_cancel_right_eq] at hl
    simp only [orbSteps, hi, hl]
  · intro h
    obtain ⟨hi, hl⟩ := List.append_inj' h rfl
    rw [List.singleton_inj] at hl
    rw [hi, hl]

theorem orbSteps_of_isPlainName {orb : String} (h : IsPlainName orb) :
    orbSteps orb = Text.pieces '/' orb.toList := by
  have hne := Text.pieces_ne_nil '/' orb.toList
  rw [orbSteps, List.filter_eq_self.2 h, List.getLastD_eq_getLast?,
    List.getLast?_eq_some_getLast hne]
  exact List.dropLast_concat_getLast hne

theorem isAbsolute_of_isPlainName {orb : String} (h : IsPlainName orb) :
    Path.isAbsolute ⟨orb⟩ = false := by
  rw [Bool.eq_false_iff]
  intro ha
  obtain ⟨t, ht⟩ : ∃ t, orb.toList = '/' :: t := by
    simpa [Path.isAbsolute, Path.startsAtRoot, List.head?_eq_some_iff] using ha
  have hp := h [] (by
    rw [ht, Text.pieces, if_pos rfl, List.dropLast_cons_of_ne_nil (Text.pieces_ne_nil '/' t)]
    exact List.mem_cons_self)
  cases hp

theorem eq_of_orbSteps {a b : String} (ha : IsPlainName a) (hb : IsPlainName b)
    (h : orbSteps a = orbSteps b) : a = b := by
  rw [orbSteps_of_isPlainName ha, orbSteps_of_isPlainName hb] at h
  rw [← String.toList_inj, ← Path.slashed_pieces a.toList, h, Path.slashed_pieces]

section
variable (root : Path) {a b : String} (ha : Path.isAbsolute ⟨a⟩ = false)
  (hb : Path.isAbsolute ⟨b⟩ = false)
include ha hb

theorem view_orbPathUnder_inj :
    (orbPathUnder root a).view = (orbPathUnder root b).view ↔ orbSteps a = orbSteps b := by
  have hne : (orbFolder.foldl Path.join root).isEmpty = false := by
    simp [Path.isEmpty, text_orbFolder]
  rw [← isAbsolute_fileName] at ha hb
  rw [orbPathUnder, orbPathUnder, Path.view_join hne ha, Path.view_join hne hb, Path.View.mk.injEq,
    List.append_right_inj, inner_fileName_inj]
  exact and_iff_right rfl

theorem text_orbPathUnder_inj :
    (orbPathUnder root a).text = (orbPathUnder root b).text ↔ a = b := by
  rw [(isOrbFile_orbPathUnder root ha).text_eq, (isOrbFile_orbPathUnder root hb).text_eq]
  simp [← String.toList_inj]

end

/-- Two names without a slash in front share a path just when they agree in the pieces that count,
and its text just when they are one name. Plain names share a path just when they are one name. -/
theorem orbPaths_distinct (s : Settings) (e : Environment) (a b : String) :
    (Path.isAbsolute ⟨a⟩ = false → Path.isAbsolute ⟨b⟩ = false →
      (((s.orbPath e a).1 == (s.orbPath e b).1 ↔ orbSteps a = orbSteps b) ∧
        ((e.orbPath a).1 == (e.orbPath b).1 ↔ orbSteps a = orbSteps b)) ∧
      ((s.orbPath e a).1.text = (s.orbPath e b).1.text ↔ a = b) ∧
        ((e.orbPath a).1.text = (e.orbPath b).1.text ↔ a = b)) ∧
    (IsPlainName a → IsPlainName b →
      ((s.orbPath e a).1 == (s.orbPath e b).1 ↔ a = b) ∧
        ((e.orbPath a).1 == (e.orbPath b).1 ↔ a = b)) := by
  have shared (root : Path) (ha : Path.isAbsolute ⟨a⟩ = false) (hb : Path.isAbsolute ⟨b⟩ = false) :
      (orbPathUnder root a == orbPathUnder root b) ↔ orbSteps a = orbSteps b :=
    Path.beq_iff_view.trans (view_orbPathUnder_inj root ha hb)
  constructor
  · intro ha hb
    exact ⟨⟨shared _ ha hb, shared _ ha hb⟩, text_orbPathUnder_inj _ ha hb,
      text_orbPathUnder_inj _ ha hb⟩
  · intro ha hb
    have hsteps : orbSteps a = orbSteps b ↔ a = b := ⟨eq_of_orbSteps ha hb, congrArg orbSteps⟩
    have ha := isAbsolute_of_isPlainName ha
    have hb := isAbsolute_of_isPlainName hb
    exact ⟨(shared _ ha hb).trans hsteps, (shared _ ha hb).trans hsteps⟩

/-- A slash too many and a dot make one path of two names; but a dot at the very end is part of the
file's own name. -/
theorem orbPaths_distinct_dots :
    let s : Settings := ⟨some ⟨""⟩⟩
    let e : Environment := ⟨none, none, none, none⟩
    (Path.isAbsolute ⟨"a//b"⟩ = false ∧ Path.isAbsolute ⟨"a/./b"⟩ = false ∧
      ((s.orbPath e "a//b").1 == (s.orbPath e "a/./b").1) ∧
      (s.orbPath e "a//b").1.text ≠ (s.orbPath e "a/./b").1.text) ∧
    IsPlainName "../." ∧ IsPlainName "../" ∧ ¬ ((s.orbPath e "../.").1 == (s.orbPath e "../").1) := by
  intro s e
  have ha : Path.isAbsolute ⟨"a//b"⟩ = false := by decide
  have hb : Path.isAbsolute ⟨"a/./b"⟩ = false := by decide
  have hp : IsPlainName "../." := by decide
  have hq : IsPlainName "../" := by decide
  obtain ⟨hsteps, htext⟩ := (orbPaths_distinct s e "a//b" "a/./b").1 ha hb
  have hplain := ((orbPaths_distinct s e "../." "../").2 hp hq).1
  exact ⟨⟨ha, hb, hsteps.1.2 (by decide), fun h => absurd (htext.1.1 h) (by decide)⟩, hp, hq,
    fun h => absurd (hplain.1 h) (by decide)⟩

end PipelineCache

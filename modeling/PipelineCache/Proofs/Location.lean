import PipelineCache.Location
import PipelineCache.Proofs.Files.Path

/-! Where an orb's file lies. Behind the cache root stands the folder of orbs and then the orb's
name, except that a name with a slash in front puts the root aside. -/
namespace PipelineCache

/-- The path is that of an orb's file below a cache root. -/
structure IsOrbFile (root : Path) (orb : String) (p : Path) : Prop where
  text_eq : p.text = root.text ++ root.gap ++ "cci/orbs/.circleci/" ++ orb ++ ".yml"
  below : Path.View.IsPrefix
    ⟨root.isAbsolute, root.view.components ++ ["cci", "orbs", ".circleci"]⟩ p.view

theorem isAbsolute_fileName (orb : String) :
    Path.isAbsolute ⟨orb ++ ".yml"⟩ = Path.isAbsolute ⟨orb⟩ := by
  simp only [Path.isAbsolute, Path.startsAtRoot, String.toList_append]
  cases orb.toList with
  | nil => decide
  | cons c t => rfl

theorem text_orbFolder (root : Path) :
    (orbFolder.foldl Path.join root).text = root.text ++ root.gap ++ "cci/orbs/.circleci" := by
  simp only [orbFolder, List.foldl_cons, List.foldl_nil]
  rw [Path.text_join _ (by decide), Path.text_join _ (by decide), Path.text_join root (by decide),
    Path.gap_join _ (by decide) (by decide) (by decide),
    Path.gap_join _ (by decide) (by decide) (by decide)]
  simp [String.append_assoc]

theorem view_orbFolder (root : Path) :
    (orbFolder.foldl Path.join root).view =
      ⟨root.isAbsolute, root.view.components ++ ["cci", "orbs", ".circleci"]⟩ :=
  Path.view_foldl_join root (by decide)

theorem gap_orbFolder (root : Path) : (orbFolder.foldl Path.join root).gap = "/" :=
  Path.gap_join _ (by decide) (by decide) (by decide)

theorem orbPathUnder_of_isAbsolute (root : Path) {orb : String} (h : Path.isAbsolute ⟨orb⟩) :
    orbPathUnder root orb = ⟨orb ++ ".yml"⟩ :=
  Path.join_of_isAbsolute _ (by rwa [isAbsolute_fileName])

theorem isOrbFile_orbPathUnder (root : Path) {orb : String}
    (h : Path.isAbsolute ⟨orb⟩ = false) : IsOrbFile root orb (orbPathUnder root orb) := by
  rw [← isAbsolute_fileName] at h
  constructor
  · rw [orbPathUnder, Path.text_join _ h, text_orbFolder, gap_orbFolder]
    simp [String.append_assoc]
  · have hne : (orbFolder.foldl Path.join root).isEmpty = false := by
      simp [Path.isEmpty, text_orbFolder]
    rw [← view_orbFolder]
    exact Path.isPrefix_view_join hne h

theorem not_isOrbFile_fileName (root : Path) (orb : String) :
    ¬ IsOrbFile root orb ⟨orb ++ ".yml"⟩ := by
  intro h
  have hl := congrArg String.length h.text_eq
  simp only [String.length_append] at hl
  have hc : "cci/orbs/.circleci/".length = 19 := by decide
  omega

theorem orbPathUnder_spec (root : Path) (orb : String) :
    (IsOrbFile root orb (orbPathUnder root orb) ↔ Path.isAbsolute ⟨orb⟩ = false) ∧
      (Path.isAbsolute ⟨orb⟩ → orbPathUnder root orb = ⟨orb ++ ".yml"⟩) := by
  refine ⟨⟨fun h => ?_, isOrbFile_orbPathUnder root⟩, orbPathUnder_of_isAbsolute root⟩
  rw [Bool.eq_false_iff]
  intro ha
  rw [orbPathUnder_of_isAbsolute root ha] at h
  exact not_isOrbFile_fileName root orb h

namespace Settings

/-- An orb's file lies below the cache root, chosen or not, just when its name has no slash in
front; otherwise the path is the name with its ending. -/
theorem orbPath_isOrbFile_iff (s : Settings) (e : Environment) (orb : String) :
    ((IsOrbFile (s.root e).1 orb (s.orbPath e orb).1 ↔ Path.isAbsolute ⟨orb⟩ = false) ∧
      (Path.isAbsolute ⟨orb⟩ → (s.orbPath e orb).1 = ⟨orb ++ ".yml"⟩)) ∧
    (IsOrbFile e.standardRoot.1 orb (e.orbPath orb).1 ↔ Path.isAbsolute ⟨orb⟩ = false) ∧
      (Path.isAbsolute ⟨orb⟩ → (e.orbPath orb).1 = ⟨orb ++ ".yml"⟩) :=
  ⟨orbPathUnder_spec (s.root e).1 orb, orbPathUnder_spec e.standardRoot.1 orb⟩

/-- A name with a slash in front leaves the cache root. -/
theorem orbPath_leaves_root :
    let s : Settings := ⟨some ⟨"/var/cache"⟩⟩
    let e : Environment := ⟨none, none, some "/home/u", none⟩
    ¬ IsOrbFile (s.root e).1 "/abs/orb" (s.orbPath e "/abs/orb").1 ∧
      ¬ IsOrbFile e.standardRoot.1 "/abs/orb" (e.orbPath "/abs/orb").1 ∧
      ¬ (s.root e).1.view.IsPrefix (s.orbPath e "/abs/orb").1.view := by
  have h : Path.isAbsolute ⟨"/abs/orb"⟩ := by decide
  intro s e
  have hs : (s.orbPath e "/abs/orb").1 = ⟨"/abs/orb.yml"⟩ := orbPathUnder_of_isAbsolute _ h
  have he : (e.orbPath "/abs/orb").1 = ⟨"/abs/orb.yml"⟩ := orbPathUnder_of_isAbsolute _ h
  rw [hs, he]
  refine ⟨not_isOrbFile_fileName _ "/abs/orb", not_isOrbFile_fileName _ "/abs/orb", ?_⟩
  have hc : ¬ (s.root e).1.view.components <+: (Path.view ⟨"/abs/orb.yml"⟩).components := by decide
  exact fun hp => hc hp.2

end Settings
end PipelineCache

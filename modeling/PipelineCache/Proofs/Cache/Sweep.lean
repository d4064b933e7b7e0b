import Mathlib.Data.Finset.Card
import PipelineCache.Cache.Teardown
import PipelineCache.Proofs.Files.Removal

/-! What a sweep takes away. Along straight paths every removal finds what it would have found at the
start, unless an earlier one took it, so that a sweep takes away one set of entries in any order. -/
namespace PipelineCache
namespace Files

/-- The files without the entries at some places. -/
def without (fs : Files) (gone : Finset Place) : Files :=
  { fs with entries := ⟨fs.entries.entries.filter fun e => e.1 ∉ gone⟩ }

theorem without_empty (fs : Files) : fs.without ∅ = fs := by
  simp [without]

theorem get?_without (fs : Files) (gone : Finset Place) (pos : Place) :
    (fs.without gone).entries.get? pos = if pos ∈ gone then none else fs.entries.get? pos := by
  simp only [without, Table.get?]
  induction fs.entries.entries with
  | nil => simp [Table.lookup]
  | cons e es ih =>
    by_cases hg : e.1 ∈ gone
    · rw [List.filter_cons_of_neg (by simpa using hg), ih]
      by_cases he : e.1 = pos
      · simp [← he, hg]
      · simp [Table.lookup, he]
    · rw [List.filter_cons_of_pos (by simpa using hg)]
      by_cases he : e.1 = pos
      · simp [Table.lookup, ← he, hg]
      · simpa [Table.lookup, he] using ih

theorem node?_without (fs : Files) {gone : Finset Place} (hg : [] ∉ gone) (pos : Place) :
    (fs.without gone).node? pos = if pos ∈ gone then none else fs.node? pos := by
  by_cases hp : pos = []
  · subst hp
    rw [node?_root, node?_root, if_neg hg]
  · rw [node?, node?, if_neg hp, if_neg hp, get?_without]
    split <;> rfl

/-- Removing an entry and then others removes them together. -/
theorem erase_without (fs : Files) (pos : Place) (gone : Finset Place) :
    (fs.erase pos).without (gone.erase pos) = fs.without (insert pos gone) := by
  have hfilter : (fs.entries.entries.filter fun e => e.1 ≠ pos).filter
        (fun e => e.1 ∉ gone.erase pos) =
      fs.entries.entries.filter fun e => e.1 ∉ insert pos gone := by
    rw [List.filter_filter]
    refine List.filter_congr fun e _ => ?_
    by_cases he : e.1 = pos <;> simp [he]
  simp only [without, erase, Table.erase, hfilter]

/-- The places that the removals of some paths take away. -/
def taken (fs : Files) (paths : List Path) : Finset Place := (paths.filterMap fs.taken?).toFinset

theorem mem_taken {fs : Files} {paths : List Path} {pos : Place} :
    pos ∈ fs.taken paths ↔ ∃ p ∈ paths, fs.taken? p = some pos := by
  rw [taken, List.mem_toFinset, List.mem_filterMap]

theorem taken_cons_none {fs : Files} {p : Path} (paths : List Path) (h : fs.taken? p = none) :
    fs.taken (p :: paths) = fs.taken paths := by
  simp only [taken, List.filterMap_cons, h]

theorem taken_cons_some {fs : Files} {p : Path} {pos : Place} (paths : List Path)
    (h : fs.taken? p = some pos) : fs.taken (p :: paths) = insert pos (fs.taken paths) := by
  simp only [taken, List.filterMap_cons, h, List.toFinset_cons]

theorem taken_perm (fs : Files) {paths others : List Path} (h : paths.Perm others) :
    fs.taken paths = fs.taken others :=
  List.toFinset_eq_of_perm _ _ (h.filterMap fs.taken?)

theorem card_taken_le (fs : Files) (paths : List Path) : (fs.taken paths).card ≤ paths.length :=
  (List.toFinset_card_le _).trans (List.length_filterMap_le _ _)

theorem taken_erase {fs : Files} {gone : Place} {paths : List Path}
    (hp : ∀ p ∈ paths, fs.goesStraight p) (hg : fs.isErasable gone) :
    (fs.erase gone).taken paths = (fs.taken paths).erase gone := by
  ext pos
  rw [Finset.mem_erase, mem_taken, mem_taken]
  constructor
  · intro ⟨p, hm, ht⟩
    rw [taken?_erase (hp p hm) hg] at ht
    split at ht
    · cases ht
    · next hne => exact ⟨fun he => hne (he ▸ ht), p, hm, ht⟩
  · intro ⟨hne, p, hm, ht⟩
    refine ⟨p, hm, ?_⟩
    rw [taken?_erase (hp p hm) hg, ht, if_neg]
    intro he
    exact hne (Option.some.inj he)

end Files

namespace Swept

theorem step_eq (s : Swept) (p : Path) :
    (s.step p).files = (s.files.taken? p).elim s.files s.files.erase ∧
      (s.step p).removed = s.removed + if (s.files.taken? p).isSome then 1 else 0 := by
  obtain ⟨hf, hr⟩ := s.files.remove_eq p
  refine ⟨hf, ?_⟩
  simp only [step, hr]
  split <;> rfl

/-- A run of removals along straight paths takes away what each of them would take at the start. -/
theorem foldl_step (paths : List Path) (s : Swept) (hp : ∀ p ∈ paths, s.files.goesStraight p) :
    (paths.foldl step s).files = s.files.without (s.files.taken paths) ∧
      (paths.foldl step s).removed = s.removed + (s.files.taken paths).card := by
  -- Each removal leaves paths straight, and takes its place out of what the later ones take.
  induction paths generalizing s with
  | nil => exact ⟨s.files.without_empty.symm, rfl⟩
  | cons p paths ih =>
    have hps : ∀ q ∈ paths, s.files.goesStraight q := fun q hq => hp q (.tail p hq)
    obtain ⟨hf, hr⟩ := step_eq s p
    rw [List.foldl_cons]
    cases ht : s.files.taken? p with
    | none =>
      simp only [ht, Option.elim_none, Option.isSome_none, Bool.false_eq_true, if_false,
        Nat.add_zero] at hf hr
      rw [Files.taken_cons_none paths ht, ← hf, ← hr]
      exact ih _ (hf ▸ hps)
    | some pos =>
      simp only [ht, Option.elim_some, Option.isSome_some, if_true] at hf hr
      have hg := (Files.taken?_eq_some.1 ht).2
      obtain ⟨ihf, ihr⟩ := ih (s.step p) fun q hq => by
        rw [hf]
        exact Files.goesStraight_erase (hps q hq) (Files.isErasable_iff.1 hg).1
      rw [hf, Files.taken_erase hps hg] at ihf ihr
      rw [Files.taken_cons_some paths ht]
      constructor
      · rw [ihf, Files.erase_without]
      · have hcard := Finset.card_erase_add_one (Finset.mem_insert_self pos (s.files.taken paths))
        rw [Finset.erase_insert_eq_erase] at hcard
        omega

end Swept

namespace Cache

/-- The entries that orbs name, links themselves and not what they lead to, where the system lets
them go. -/
theorem mem_taken_orbs {fs : Files} {orbs : List Orb} {pos : Place} :
    pos ∈ fs.taken (orbs.filterMap Orb.file?) ↔
      (∃ o ∈ orbs, ∃ p, o.file? = some p ∧ fs.locate p = some pos) ∧
        fs.isFolder pos = false ∧ fs.isRemovable pos := by
  simp only [Files.mem_taken, List.mem_filterMap, Files.taken?_eq_some, Files.isErasable_iff]
  constructor
  · intro ⟨p, ⟨o, ho, hf⟩, hl, hg⟩
    exact ⟨⟨o, ho, p, hf, hl⟩, hg⟩
  · intro ⟨⟨o, ho, p, hf, hl⟩, hg⟩
    exact ⟨p, ⟨o, ho, hf⟩, hl, hg⟩

theorem root_not_mem_taken_orbs (fs : Files) (orbs : List Orb) :
    [] ∉ fs.taken (orbs.filterMap Orb.file?) := by
  rw [Files.mem_taken]
  intro ⟨p, _, ht⟩
  exact Files.ne_root_of_isErasable (Files.taken?_eq_some.1 ht).2 rfl

theorem card_taken_orbs_le (fs : Files) (orbs : List Orb) :
    (fs.taken (orbs.filterMap Orb.file?)).card ≤ orbs.length :=
  (fs.card_taken_le _).trans (List.length_filterMap_le _ _)

theorem swept_orbs {fs : Files} {orbs order : List Orb} (ho : order.Perm orbs)
    (hp : ∀ o ∈ orbs, ∀ p, o.file? = some p → fs.goesStraight p) :
    (Swept.ofOrbs fs order).files = fs.without (fs.taken (orbs.filterMap Orb.file?)) ∧
      (Swept.ofOrbs fs order).removed = (fs.taken (orbs.filterMap Orb.file?)).card := by
  have hstraight : ∀ p ∈ order.filterMap Orb.file?, fs.goesStraight p := by
    intro p hm
    obtain ⟨o, hom, hf⟩ := List.mem_filterMap.1 hm
    exact hp o (ho.mem_iff.1 hom) p hf
  obtain ⟨hf, hr⟩ := Swept.foldl_step (order.filterMap Orb.file?) ⟨fs, 0, []⟩ hstraight
  rw [Files.taken_perm fs (ho.filterMap Orb.file?)] at hf hr
  exact ⟨hf, hr.trans (Nat.zero_add _)⟩

/-- Teardown takes away one set of entries, whatever the order of the orbs, and forgets the orbs. A
mere sweep takes away the same and keeps them. -/
theorem teardown_exact (c : Cache) (fs : Files)
    (hp : ∀ o ∈ c.orbs.table.values, ∀ p, o.file? = some p → fs.goesStraight p) :
    ∃ gone : Finset Place,
      (∀ pos, pos ∈ gone ↔
        (∃ o ∈ c.orbs.table.values, ∃ p, o.file? = some p ∧ fs.locate p = some pos) ∧
          fs.isFolder pos = false ∧ fs.isRemovable pos) ∧
      (∀ pos, (fs.without gone).node? pos = if pos ∈ gone then none else fs.node? pos) ∧
      gone.card ≤ c.orbs.table.size ∧
      ∀ order, order.Perm c.orbs.table.values →
        ((c.teardown fs order).answer = some ⟨gone.card, c.orbs.table.size⟩ ∧
          (c.teardown fs order).state =
            ({ c with
                orbs := { c.orbs with table := .empty, poisoned := false },
                documents := { c.documents with poisoned := false } }, fs.without gone)) ∧
        ((c.sweep fs order).answer = some gone.card ∧
          (c.sweep fs order).state =
            ({ c with
                orbs := { c.orbs with poisoned := false },
                documents := { c.documents with poisoned := false } }, fs.without gone)) := by
  refine ⟨fs.taken (c.orbs.table.values.filterMap Orb.file?), fun pos => mem_taken_orbs,
    fs.node?_without (root_not_mem_taken_orbs fs _), ?_, ?_⟩
  · simpa [Table.values, Table.size] using card_taken_orbs_le fs c.orbs.table.values
  · intro order ho
    obtain ⟨hf, hr⟩ := swept_orbs ho hp
    simp only [teardown, sweep, lockForSweep, Store.lock, hf, hr, and_self]

def named (path : String) : Orb := .unread "" ⟨⟨path⟩, "", ""⟩

/-- Two orbs that spell the path of one file in two ways. -/
def aliased : Cache :=
  { empty with orbs := ⟨"orbs", ⟨[("a", named "o.yml"), ("b", named "./o.yml")]⟩, false⟩ }

def aliasedFiles : Files := ⟨⟨[(["o.yml"], ⟨.file, true⟩)]⟩, []⟩

theorem straight_aliased :
    ∀ o ∈ aliased.orbs.table.values, ∀ p, o.file? = some p → aliasedFiles.goesStraight p := by
  intro o ho p hp
  have hall : (aliased.orbs.table.values.all fun o =>
      o.file?.all aliasedFiles.goesStraight) = true := by decide +kernel
  have h := List.all_eq_true.1 hall o ho
  rwa [hp] at h

theorem locate_aliased {p : Path} (hp : p = ⟨"o.yml"⟩ ∨ p = ⟨"./o.yml"⟩) :
    aliasedFiles.locate p = some ["o.yml"] := by
  have hwalk : aliasedFiles.walk Files.linkLimit [] ["o.yml"] = some ["o.yml"] :=
    Files.walk_name_file (by decide) (by decide) (by decide +kernel) _ rfl
  obtain rfl | rfl := hp
  · have hs : Path.steps ⟨"o.yml"⟩ = ["o.yml"] := by decide +kernel
    have hu : Path.isUsable ⟨"o.yml"⟩ := by decide +kernel
    rw [Files.locate, if_pos hu, hs]
    exact hwalk
  · have hs : Path.steps ⟨"./o.yml"⟩ = [".", "o.yml"] := by decide +kernel
    have hu : Path.isUsable ⟨"./o.yml"⟩ := by decide +kernel
    rw [Files.locate, if_pos hu, hs, Files.walk, if_pos (by decide)]
    exact hwalk

theorem teardown_aliased :
    (∀ o ∈ aliased.orbs.table.values, ∀ p, o.file? = some p → aliasedFiles.goesStraight p) ∧
      (aliased.teardown aliasedFiles aliased.orbs.table.values.reverse).answer = some ⟨1, 2⟩ := by
  refine ⟨straight_aliased, ?_⟩
  obtain ⟨gone, hgone, -, -, h⟩ := teardown_exact aliased aliasedFiles straight_aliased
  have htaken {p : Path} (hp : p = ⟨"o.yml"⟩ ∨ p = ⟨"./o.yml"⟩) :
      aliasedFiles.taken? p = some ["o.yml"] :=
    Files.taken?_eq_some.2 ⟨locate_aliased hp, rfl⟩
  have hpaths : aliased.orbs.table.values.filterMap Orb.file? = [⟨"o.yml"⟩, ⟨"./o.yml"⟩] := rfl
  have hone : gone = {["o.yml"]} := by
    ext pos
    rw [hgone, ← mem_taken_orbs, Files.mem_taken, hpaths]
    simp [htaken, eq_comm]
  rw [(h _ (List.reverse_perm _)).1.1, hone]
  rfl

end Cache
end PipelineCache

import PipelineCache.Proofs.Cache.Sweep

/-! Removing the files of orbs a second time. A path that has been swept takes nothing any more, in
whatever order the orbs come and wherever their paths go, since no removal opens a way for another.
-/
namespace PipelineCache
namespace Swept

theorem files_step (s : Swept) (p : Path) : (s.step p).files = (s.files.remove p).1 := rfl

/-- Behind a sweep a path that was swept takes nothing, and neither does one that took nothing. -/
theorem taken?_foldl_step {p : Path} (paths : List Path) (s : Swept)
    (h : p ∈ paths ∨ s.files.taken? p = none) : (paths.foldl step s).files.taken? p = none := by
  induction paths generalizing s with
  | nil => simpa using h
  | cons q paths ih =>
    apply ih
    rw [files_step]
    obtain h | h := h
    · obtain rfl | h := List.mem_cons.1 h
      · exact .inr (s.files.taken?_remove_self p)
      · exact .inl h
    · exact .inr (Files.taken?_remove_none q h)

theorem foldl_step_idle (paths : List Path) (s : Swept)
    (h : ∀ p ∈ paths, s.files.taken? p = none) :
    (paths.foldl step s).files = s.files ∧ (paths.foldl step s).removed = s.removed := by
  induction paths generalizing s with
  | nil => exact ⟨rfl, rfl⟩
  | cons p paths ih =>
    obtain ⟨hp, hps⟩ := List.forall_mem_cons.1 h
    obtain ⟨hf, hr⟩ := s.step_eq p
    rw [hp] at hf hr
    obtain ⟨ihf, ihr⟩ := ih (s.step p) (hf ▸ hps)
    exact ⟨ihf.trans hf, ihr.trans hr⟩

theorem ofOrbs_again (fs : Files) {order other : List Orb} (h : other.Perm order) :
    (ofOrbs (ofOrbs fs order).files other).files = (ofOrbs fs order).files ∧
      (ofOrbs (ofOrbs fs order).files other).removed = 0 := by
  refine foldl_step_idle _ ⟨(ofOrbs fs order).files, 0, []⟩ fun p hp => ?_
  exact taken?_foldl_step _ _ (.inl ((h.filterMap Orb.file?).mem_iff.1 hp))

end Swept

namespace Cache

/-- Behind a sweep another one, or a teardown, removes no file, in any other order of the orbs; and
behind a teardown another one has nothing to do at all. -/
theorem removals_settle (c : Cache) (fs : Files) (order : List Orb)
    (ho : order.Perm c.orbs.table.values) :
    let swept := (c.sweep fs order).state
    let cleared := (c.teardown fs order).state
    (∀ other, other.Perm swept.1.orbs.table.values →
      ((swept.1.sweep swept.2 other).answer = some 0 ∧
        (swept.1.sweep swept.2 other).state = swept) ∧
      ((swept.1.teardown swept.2 other).answer = some ⟨0, c.orbs.table.size⟩ ∧
        (swept.1.teardown swept.2 other).state = (cleared.1, swept.2))) ∧
    ∀ other, other.Perm cleared.1.orbs.table.values →
      (cleared.1.teardown cleared.2 other).answer = some ⟨0, 0⟩ ∧
        (cleared.1.teardown cleared.2 other).state = cleared := by
  intro swept cleared
  constructor
  · intro other hother
    obtain ⟨hf, hr⟩ := Swept.ofOrbs_again fs (hother.trans ho.symm)
    simp only [swept, cleared, sweep, teardown, lockForSweep, Store.lock, hf, hr, and_self]
  · intro other hother
    obtain rfl : other = [] := hother.eq_nil
    exact ⟨rfl, rfl⟩

/-- One orb's file is a link on the way to that of the other. -/
def linked : Cache :=
  { empty with orbs := ⟨"orbs", ⟨[("a", named "l"), ("b", named "l/o.yml")]⟩, false⟩ }

def linkedFiles : Files :=
  ⟨⟨[(["l"], ⟨.link ⟨"d"⟩, true⟩), (["d"], ⟨.folder, true⟩), (["d", "o.yml"], ⟨.file, true⟩)]⟩, []⟩

theorem locate_linked : linkedFiles.locate ⟨"l"⟩ = some ["l"] ∧
    linkedFiles.locate ⟨"l/o.yml"⟩ = some ["d", "o.yml"] ∧
    (linkedFiles.erase ["l"]).locate ⟨"l/o.yml"⟩ = none ∧
    (linkedFiles.erase ["d", "o.yml"]).locate ⟨"l"⟩ = some ["l"] := by
  have hu : Path.isUsable ⟨"l"⟩ ∧ Path.isUsable ⟨"l/o.yml"⟩ ∧ Path.isUsable ⟨"d"⟩ := by
    decide +kernel
  have hs : Path.steps ⟨"l"⟩ = ["l"] ∧ Path.steps ⟨"l/o.yml"⟩ = ["l", "o.yml"] ∧
      Path.steps ⟨"d"⟩ = ["d"] := by
    decide +kernel
  have hlong : ¬ isTooLong "l" ∧ ¬ isTooLong "d" ∧ ¬ isTooLong "o.yml" := by decide +kernel
  simp only [Files.locate, hu, hs, if_true]
  refine ⟨?_, ?_, ?_, ?_⟩
  · exact Files.walk_name_end (by decide) (by decide) hlong.1 _ rfl
  · refine (Files.walk_name_link (by decide) (by decide) hlong.1 39 (by decide) rfl hu.2.2).trans ?_
    rw [hs.2.2]
    refine (Files.walk_name_folder (by decide) (by decide) hlong.2.1 _ _ rfl).trans ?_
    exact Files.walk_name_file (by decide) (by decide) hlong.2.2 _ rfl
  · exact Files.walk_name_none (by decide) (by decide) hlong.1 _ _ rfl
  · exact Files.walk_name_end (by decide) (by decide) hlong.1 _ rfl

/-- In one order the link cuts the other path off, and in the other both are removed. -/
theorem sweep_linked :
    (linked.sweep linkedFiles linked.orbs.table.values).answer = some 1 ∧
      (linked.sweep linkedFiles linked.orbs.table.values.reverse).answer = some 2 := by
  obtain ⟨hl, ho, hcut, hl'⟩ := locate_linked
  have sweep (p q : Path) : (Swept.ofPaths linkedFiles [p, q]).removed =
      (0 + if (linkedFiles.taken? p).isSome then 1 else 0) +
        if ((linkedFiles.taken? p).elim linkedFiles linkedFiles.erase |>.taken? q).isSome
        then 1 else 0 := by
    obtain ⟨hf, hr⟩ := Swept.step_eq ⟨linkedFiles, 0, []⟩ p
    rw [← hr, ← hf]
    exact (Swept.step_eq _ q).2
  constructor
  · change some (Swept.ofPaths linkedFiles [⟨"l"⟩, ⟨"l/o.yml"⟩]).removed = _
    rw [sweep, Files.taken?, hl]
    change some (0 + 1 + if ((linkedFiles.erase ["l"]).taken? _).isSome then 1 else 0) = _
    rw [Files.taken?, hcut]
    rfl
  · change some (Swept.ofPaths linkedFiles [⟨"l/o.yml"⟩, ⟨"l"⟩]).removed = _
    rw [sweep, Files.taken?, ho]
    change some (0 + 1 + if ((linkedFiles.erase ["d", "o.yml"]).taken? _).isSome then 1 else 0) = _
    rw [Files.taken?, hl']
    rfl

/-- Neither order leaves anything for a second removal. -/
theorem removals_settle_linked :
    let orbs := linked.orbs.table.values
    let first := linked.sweep linkedFiles orbs
    let second := linked.sweep linkedFiles orbs.reverse
    let cleared := linked.teardown linkedFiles orbs
    (first.answer = some 1 ∧ second.answer = some 2) ∧
      (first.state.1.sweep first.state.2 orbs.reverse).answer = some 0 ∧
      (second.state.1.teardown second.state.2 orbs).answer = some ⟨0, 2⟩ ∧
      (cleared.state.1.teardown cleared.state.2 []).state = cleared.state := by
  intro orbs first second cleared
  have hp : orbs.reverse.Perm orbs := List.reverse_perm orbs
  obtain ⟨hfirst, hcleared⟩ := removals_settle linked linkedFiles orbs (.refl _)
  obtain ⟨hsecond, -⟩ := removals_settle linked linkedFiles orbs.reverse hp
  exact ⟨sweep_linked, (hfirst orbs.reverse hp).1.1, (hsecond orbs (.refl _)).2.1,
    (hcleared [] (.refl _)).2⟩

end Cache
end PipelineCache

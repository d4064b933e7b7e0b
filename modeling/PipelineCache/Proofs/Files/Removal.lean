import PipelineCache.Files.Tree

/-! What the removal of one entry does to the paths of others: a path leads where it led before,
unless it passes what was removed, and then it leads nowhere. -/
namespace PipelineCache.Files

theorem node?_erase_of_ne (fs : Files) {gone pos : Place} (h : pos ≠ gone) :
    (fs.erase gone).node? pos = fs.node? pos := by
  simp [node?, erase, Ne.symm h]

theorem node?_erase_self (fs : Files) {gone : Place} (h : gone ≠ []) :
    (fs.erase gone).node? gone = none := by
  simp [node?, erase, h]

theorem node?_root (fs : Files) : fs.node? [] = some .folder := by simp [node?]

theorem isRemovable_erase_of_ne (fs : Files) {gone pos : Place} (h : pos ≠ gone) :
    (fs.erase gone).isRemovable pos = fs.isRemovable pos := by
  simp [isRemovable, erase, Ne.symm h]

/-- The places that are looked at on the way along some steps, the last one included. -/
def trail (fs : Files) (links : Nat) (pos : Place) : List String → List Place
  | [] => []
  | name :: steps =>
    if isStay name then fs.trail links pos steps
    else if name = ".." then fs.trail links pos.dropLast steps
    else if isTooLong name then []
    else
      let next := pos ++ [name]
      next :: match fs.node? next with
        | some .folder => fs.trail links next steps
        | some (.link target) =>
          if steps.isEmpty then []
          else
            match links with
            | 0 => []
            | links + 1 =>
              if target.isUsable then fs.trail links (origin target pos) (target.steps ++ steps)
              else []
        | _ => []
termination_by steps => (links, steps.length)

section
variable {fs : Files} {gone pos : Place} {name : String} (hs : ¬ isStay name) (hu : name ≠ "..")
  (hl : ¬ isTooLong name)
include hs hu hl

theorem mem_trail_name (links : Nat) (steps : List String) :
    pos ++ [name] ∈ fs.trail links pos (name :: steps) := by
  simp [trail, hs, hu, hl]

theorem walk_name_none (links : Nat) (steps : List String) (h : fs.node? (pos ++ [name]) = none) :
    fs.walk links pos (name :: steps) = none := by
  simp [walk, hs, hu, hl, h]

theorem walk_name_file (links : Nat) (h : fs.node? (pos ++ [name]) = some .file) :
    fs.walk links pos [name] = some (pos ++ [name]) := by
  simp [walk, hs, hu, hl, h]

theorem walk_name_folder (links : Nat) (steps : List String)
    (h : fs.node? (pos ++ [name]) = some .folder) :
    fs.walk links pos (name :: steps) = fs.walk links (pos ++ [name]) steps := by
  simp [walk, hs, hu, hl, h]

theorem walk_name_link (links : Nat) {steps : List String} (he : steps ≠ []) {target : Path}
    (h : fs.node? (pos ++ [name]) = some (.link target)) (ht : target.isUsable) :
    fs.walk (links + 1) pos (name :: steps) =
      fs.walk links (origin target pos) (target.steps ++ steps) := by
  simp [walk, hs, hu, hl, h, he, ht]

theorem walk_name_end (links : Nat) {target : Path}
    (h : fs.node? (pos ++ [name]) = some (.link target)) :
    fs.walk links pos [name] = some (pos ++ [name]) := by
  simp [walk, hs, hu, hl, h]

theorem walk_name_last (links : Nat) :
    fs.walk links pos [name] = (fs.node? (pos ++ [name])).map fun _ => pos ++ [name] := by
  cases hn : fs.node? (pos ++ [name]) with
  | none => exact walk_name_none hs hu hl links [] hn
  | some n => cases n <;> simp [walk, hs, hu, hl, hn]

theorem walk_erase_name (links : Nat) (steps : List String) (hg : gone = pos ++ [name]) :
    (fs.erase gone).walk links pos (name :: steps) =
      if gone ∈ fs.trail links pos (name :: steps) then none
      else fs.walk links pos (name :: steps) := by
  have hn : (fs.erase gone).node? (pos ++ [name]) = none := by
    rw [← hg]
    exact node?_erase_self fs (by simp [hg])
  rw [walk_name_none hs hu hl links steps hn, if_pos]
  rw [hg]
  exact mem_trail_name hs hu hl links steps

end

/-- A walk that looks at the removed entry fails there, and any other is as it was. -/
theorem walk_erase (fs : Files) (gone : Place) (links : Nat) (pos : Place) (steps : List String) :
    (fs.erase gone).walk links pos steps =
      if gone ∈ fs.trail links pos steps then none else fs.walk links pos steps := by
  fun_induction trail fs links pos steps with
  | case1 => simp [walk]
  | case2 links pos name steps hs ih => simp only [walk, hs, if_true, ih]
  | case3 links pos steps hs ih => simp only [walk, hs, if_true, ih]; rfl
  | case4 links pos name steps hs hu hl => simp [walk, hs, hu, hl]
  | case5 links pos name steps hs hu hl next ih iht =>
    by_cases hg : gone = next
    · have h : (fs.erase gone).walk links pos (name :: steps) = _ :=
        walk_erase_name hs hu hl links steps hg
      rwa [trail, if_neg hs, if_neg hu, if_neg hl] at h
    · have hn : (fs.erase gone).node? (pos ++ [name]) = fs.node? (pos ++ [name]) :=
        node?_erase_of_ne fs (Ne.symm hg)
      simp only [walk, hs, hu, hl, Bool.false_eq_true, if_false, List.mem_cons, hg, false_or, hn]
      cases hx : fs.node? (pos ++ [name]) with
      | none => rfl
      | some n =>
        cases n with
        | folder => exact ih
        | file => rfl
        | link target =>
          cases steps with
          | nil => rfl
          | cons step steps =>
            cases links with
            | zero => rfl
            | succ links =>
              by_cases ht : target.isUsable
              · simpa [ht] using iht target
              · simp [ht]

/-- The places that a path is looked up at. -/
def passed (fs : Files) (p : Path) : List Place :=
  if p.isUsable then fs.trail linkLimit (origin p fs.here) p.steps else []

theorem locate_erase (fs : Files) (gone : Place) (p : Path) :
    (fs.erase gone).locate p = if gone ∈ fs.passed p then none else fs.locate p := by
  by_cases hu : p.isUsable
  · simp only [locate, passed, hu, if_true]
    exact walk_erase fs gone linkLimit (origin p fs.here) p.steps
  · simp [locate, passed, hu]

/-- The places that a path needs to name what it names. -/
def needed (fs : Files) (p : Path) : List Place := fs.passed p ++ (fs.locate p).toList

/-- What a path names vanishes just when a place that it needs does. -/
theorem status_erase (fs : Files) {gone : Place} (hg : gone ≠ []) (p : Path) :
    (fs.erase gone).status p = if gone ∈ fs.needed p then none else fs.status p := by
  rw [status, status, locate_erase, needed]
  by_cases hp : gone ∈ fs.passed p
  · simp [hp]
  · cases hl : fs.locate p with
    | none => simp [hp]
    | some pos =>
      by_cases he : pos = gone
      · subst he
        simp [hp, node?_erase_self fs hg]
      · simp [hp, Ne.symm he, node?_erase_of_ne fs he]

/-- Whether some steps go through no link. The last one may be a link, but with a slash or a dot
behind it a link is no longer the last. -/
def isStraight (fs : Files) : Place → List String → Bool
  | _, [] => true
  | pos, name :: steps =>
    if isStay name then fs.isStraight pos steps
    else if name = ".." then fs.isStraight pos.dropLast steps
    else if isTooLong name then true
    else
      match fs.node? (pos ++ [name]) with
      | some .folder => fs.isStraight (pos ++ [name]) steps
      | some (.link _) => steps.isEmpty
      | _ => true

def goesStraight (fs : Files) (p : Path) : Bool :=
  !p.isUsable || fs.isStraight (origin p fs.here) p.steps

def isFolder (fs : Files) (pos : Place) : Bool :=
  match fs.node? pos with
  | some .folder => true
  | _ => false

/-- Whether a place holds a file or a link that the system lets go. -/
def isErasable (fs : Files) (pos : Place) : Bool := !fs.isFolder pos && fs.isRemovable pos

/-- The place that a removal takes away. -/
def taken? (fs : Files) (p : Path) : Option Place := (fs.locate p).filter fs.isErasable

theorem taken?_eq_some {fs : Files} {p : Path} {pos : Place} :
    fs.taken? p = some pos ↔ fs.locate p = some pos ∧ fs.isErasable pos := by
  rw [taken?, Option.filter_eq_some_iff]

theorem ne_root_of_isErasable {fs : Files} {pos : Place} (h : fs.isErasable pos) : pos ≠ [] := by
  intro he
  subst he
  simp [isErasable, isFolder, node?_root] at h

theorem isErasable_erase_of_ne (fs : Files) {gone pos : Place} (h : pos ≠ gone) :
    (fs.erase gone).isErasable pos = fs.isErasable pos := by
  rw [isErasable, isErasable, isFolder, isFolder, node?_erase_of_ne fs h,
    isRemovable_erase_of_ne fs h]

theorem isErasable_erase_self (fs : Files) (gone : Place) :
    (fs.erase gone).isErasable gone = false := by
  simp [isErasable, isRemovable, erase]

theorem isErasable_iff {fs : Files} {pos : Place} :
    fs.isErasable pos ↔ fs.isFolder pos = false ∧ fs.isRemovable pos := by
  simp [isErasable]

/-- A removal erases the place it takes away, if there is one, and says so. -/
theorem remove_eq (fs : Files) (p : Path) :
    (fs.remove p).1 = (fs.taken? p).elim fs fs.erase ∧
      ((fs.remove p).2 = .removed ↔ (fs.taken? p).isSome) := by
  unfold remove taken?
  cases hl : fs.locate p with
  | none => simp
  | some pos =>
    cases hn : fs.node? pos with
    | none =>
      have he : fs.entries.get? pos = none := by
        by_cases h : pos = []
        · simp [h, node?] at hn
        · simpa [node?, h] using hn
      simp [hn, isErasable, isRemovable, he, Option.filter_some]
    | some n =>
      cases n with
      | folder => simp [hn, isErasable, isFolder, Option.filter_some]
      | file =>
        by_cases hr : fs.isRemovable pos <;> simp [hn, isErasable, isFolder, hr, Option.filter_some]
      | link target =>
        by_cases hr : fs.isRemovable pos <;> simp [hn, isErasable, isFolder, hr, Option.filter_some]

/-- What a straight path is looked up at is a folder, or ends the path. -/
theorem walk_of_mem_trail {fs : Files} {pos q : Place} {steps : List String} (links : Nat)
    (hs : fs.isStraight pos steps) (hq : q ∈ fs.trail links pos steps)
    (hf : fs.isFolder q = false) :
    fs.walk links pos steps = some q ∨ fs.walk links pos steps = none := by
  fun_induction isStraight fs pos steps with
  | case1 => simp [trail] at hq
  | case2 pos name steps hst ih =>
    simp only [trail, walk, hst, if_true] at hq ⊢
    exact ih hs hq
  | case3 pos steps hst ih =>
    simp only [trail, walk, hst, if_true, Bool.false_eq_true, if_false] at hq ⊢
    exact ih hs hq
  | case4 pos name steps hst hu hl => simp [trail, hst, hu, hl] at hq
  | case5 pos name steps hst hu hl hn ih =>
    simp only [trail, walk, hst, hu, hl, hn, Bool.false_eq_true, if_false, List.mem_cons] at hq ⊢
    obtain rfl | hq := hq
    · simp [isFolder, hn] at hf
    · exact ih hs hq
  | case6 pos name steps hst hu hl target hn =>
    simp [trail, hst, hu, hl, hn, hs] at hq
    simp [walk, hst, hu, hl, hn, hs, hq]
  | case7 pos name steps hst hu hl hn hn' =>
    cases hx : fs.node? (pos ++ [name]) with
    | none =>
      simp [walk, hst, hu, hl, hx]
    | some n =>
      cases n with
      | folder => exact absurd hx hn
      | file =>
        simp [trail, hst, hu, hl, hx] at hq
        by_cases he : steps = [] <;> simp [walk, hst, hu, hl, hx, hq, he]
      | link target => exact absurd hx (hn' target)

theorem isStraight_erase {fs : Files} {gone pos : Place} {steps : List String}
    (hs : fs.isStraight pos steps) (hf : fs.isFolder gone = false) :
    (fs.erase gone).isStraight pos steps := by
  fun_induction isStraight fs pos steps with
  | case1 => rfl
  | case2 pos name steps hst ih => simpa only [isStraight, hst, if_true] using ih hs
  | case3 pos steps hst ih =>
    simpa only [isStraight, hst, if_true, Bool.false_eq_true, if_false] using ih hs
  | case4 pos name steps hst hu hl => simp [isStraight, hst, hu, hl]
  | case5 pos name steps hst hu hl hn ih =>
    have hne : pos ++ [name] ≠ gone := by
      intro he
      subst he
      simp [isFolder, hn] at hf
    simpa [isStraight, hst, hu, hl, node?_erase_of_ne fs hne, hn] using ih hs
  | case6 pos name steps hst hu hl target hn =>
    by_cases hne : pos ++ [name] = gone
    · subst hne
      simp [isStraight, hst, hu, hl, node?_erase_self fs]
    · simpa [isStraight, hst, hu, hl, node?_erase_of_ne fs hne, hn] using hs
  | case7 pos name steps hst hu hl hn hn' =>
    by_cases hne : pos ++ [name] = gone
    · subst hne
      simp [isStraight, hst, hu, hl, node?_erase_self fs]
    · simp [isStraight, hst, hu, hl, node?_erase_of_ne fs hne]

theorem goesStraight_erase {fs : Files} {gone : Place} {p : Path} (hp : fs.goesStraight p)
    (hg : fs.isFolder gone = false) : (fs.erase gone).goesStraight p := by
  simp only [goesStraight, Bool.or_eq_true] at hp ⊢
  exact hp.imp_right fun hs => isStraight_erase hs hg

theorem locate_of_mem_passed {fs : Files} {p : Path} {pos : Place} (hp : fs.goesStraight p)
    (hm : pos ∈ fs.passed p) (hf : fs.isFolder pos = false) :
    fs.locate p = some pos ∨ fs.locate p = none := by
  by_cases hu : p.isUsable
  · simp only [goesStraight, passed, locate, hu, Bool.not_true, Bool.false_or, if_true] at hp hm ⊢
    exact walk_of_mem_trail linkLimit hp hm hf
  · simp [locate, hu]

/-- Behind a removal a straight path still takes what it took before, unless that is gone. -/
theorem taken?_erase {fs : Files} {gone : Place} {p : Path} (hp : fs.goesStraight p)
    (hg : fs.isErasable gone) :
    (fs.erase gone).taken? p = if fs.taken? p = some gone then none else fs.taken? p := by
  have hf := (isErasable_iff.1 hg).1
  rw [taken?, taken?, locate_erase]
  by_cases hm : gone ∈ fs.passed p
  · obtain hl | hl := locate_of_mem_passed hp hm hf
    · simp [hm, hl, hg, Option.filter_some]
    · simp [hm, hl]
  · cases hl : fs.locate p with
    | none => simp [hm]
    | some pos =>
      by_cases he : pos = gone
      · subst he
        simp [hm, hg, isErasable_erase_self, Option.filter_some]
      · by_cases hpos : fs.isErasable pos <;>
          simp [hm, isErasable_erase_of_ne fs he, hpos, he, Option.filter_some]

/-- A removal opens no way: what a path takes behind it, it took before. -/
theorem taken?_of_erase {fs : Files} {gone pos : Place} {p : Path}
    (h : (fs.erase gone).taken? p = some pos) : pos ≠ gone ∧ fs.taken? p = some pos := by
  obtain ⟨hl, he⟩ := taken?_eq_some.1 h
  have hne : pos ≠ gone := by
    intro he'
    rw [he', isErasable_erase_self] at he
    cases he
  rw [isErasable_erase_of_ne fs hne] at he
  rw [locate_erase] at hl
  split at hl
  · cases hl
  · exact ⟨hne, taken?_eq_some.2 ⟨hl, he⟩⟩

theorem taken?_remove_self (fs : Files) (p : Path) : (fs.remove p).1.taken? p = none := by
  rw [(fs.remove_eq p).1]
  cases ht : fs.taken? p with
  | none => exact ht
  | some gone =>
    rw [Option.elim_some, Option.eq_none_iff_forall_ne_some]
    intro pos h
    obtain ⟨hne, h⟩ := taken?_of_erase h
    exact hne (Option.some.inj (h.symm.trans ht))

theorem taken?_remove_none {fs : Files} {p : Path} (q : Path) (h : fs.taken? p = none) :
    (fs.remove q).1.taken? p = none := by
  rw [(fs.remove_eq q).1]
  cases fs.taken? q with
  | none => exact h
  | some gone =>
    rw [Option.elim_some, Option.eq_none_iff_forall_ne_some]
    intro pos hp
    rw [(taken?_of_erase hp).2] at h
    cases h

/-- Whether a path names a regular file that the system lets go. -/
def isPlain (fs : Files) (p : Path) : Bool :=
  match fs.taken? p with
  | none => false
  | some pos =>
    match fs.node? pos with
    | some .file => true
    | _ => false

/-- The removal of `q` takes away a place that `p` needs. -/
def Takes (fs : Files) (q p : Path) : Prop := ∃ gone ∈ fs.needed p, fs.taken? q = some gone

theorem isPlain_iff {fs : Files} {p : Path} :
    fs.isPlain p ↔ ∃ pos, fs.taken? p = some pos ∧ fs.node? pos = some .file := by
  unfold isPlain
  cases ht : fs.taken? p with
  | none => simp
  | some pos =>
    simp only [Option.some_inj]
    constructor
    · intro h
      refine ⟨pos, rfl, ?_⟩
      split at h
      · assumption
      · cases h
    · rintro ⟨_, rfl, hn⟩
      simp [hn]

theorem status_of_isPlain {fs : Files} {p : Path} (h : fs.isPlain p) :
    fs.status p = some .file := by
  obtain ⟨pos, ht, hn⟩ := isPlain_iff.1 h
  rw [status, (taken?_eq_some.1 ht).1]
  exact hn

theorem takes_self {fs : Files} {p : Path} (h : fs.isPlain p) : fs.Takes p p := by
  obtain ⟨pos, ht, -⟩ := isPlain_iff.1 h
  refine ⟨pos, ?_, ht⟩
  simp [needed, (taken?_eq_some.1 ht).1]

theorem isPlain_erase {fs : Files} {gone : Place} {p : Path} (h : fs.isPlain p)
    (hg : gone ∉ fs.needed p) : (fs.erase gone).isPlain p := by
  obtain ⟨pos, ht, hn⟩ := isPlain_iff.1 h
  obtain ⟨hl, he⟩ := taken?_eq_some.1 ht
  rw [needed, hl, List.mem_append, not_or] at hg
  have hne : pos ≠ gone := by
    intro he
    exact hg.2 (by simp [he])
  refine isPlain_iff.2 ⟨pos, taken?_eq_some.2 ⟨?_, ?_⟩, ?_⟩
  · rw [locate_erase, if_neg hg.1, hl]
  · rw [isErasable_erase_of_ne fs hne, he]
  · rw [node?_erase_of_ne fs hne, hn]

theorem status_remove_none {fs : Files} {p : Path} (q : Path) (h : fs.status p = none) :
    (fs.remove q).1.status p = none := by
  rw [(fs.remove_eq q).1]
  cases ht : fs.taken? q with
  | none => exact h
  | some gone =>
    rw [Option.elim_some, status_erase fs (ne_root_of_isErasable (taken?_eq_some.1 ht).2), h, ite_self]

theorem status_remove_of_takes {fs : Files} {q p : Path} (h : fs.Takes q p) :
    (fs.remove q).1.status p = none := by
  obtain ⟨gone, hg, ht⟩ := h
  rw [(fs.remove_eq q).1, ht, Option.elim_some,
    status_erase fs (ne_root_of_isErasable (taken?_eq_some.1 ht).2), if_pos hg]

theorem isPlain_remove {fs : Files} {q p : Path} (h : fs.isPlain p) (hq : ¬ fs.Takes q p) :
    (fs.remove q).1.isPlain p := by
  rw [(fs.remove_eq q).1]
  cases ht : fs.taken? q with
  | none => exact h
  | some gone => exact isPlain_erase h fun hg => hq ⟨gone, hg, ht⟩

end PipelineCache.Files

import PipelineCache.Proofs.Cache.Sweep

/-! What a sweep tells. Each orb has its own share of the log, which follows from what its path
names at the start; only of the orbs that name one entry the first alone tells of its removal. -/
namespace PipelineCache

namespace Event

def isRecovery : Event → Bool
  | recovered .. => true
  | _ => false

/-- The path whose file was removed. -/
def removed? : Event → Option Path
  | removedFile p => some ⟨p⟩
  | _ => none

def isLeft : Event → Bool
  | leftDirectory _ => true
  | _ => false

def isKept : Event → Bool
  | keptFile _ => true
  | _ => false

theorem isSome_removed? (e : Event) : e.removed?.isSome = decide (e.level = .trace) := by
  cases e <;> rfl

/-- Whether an event is about a single orb's file. -/
def isOwn (e : Event) : Bool := e.isLeft || e.isKept || e.removed?.isSome

theorem isRecovery_of_isOwn {e : Event} (h : e.isOwn) : e.isRecovery = false := by
  cases e with
  | recovered => cases h
  | _ => rfl

theorem countP_debug {es : List Event} (h : ∀ e ∈ es, e.isOwn) :
    es.countP (fun e => e.level = .debug) = es.countP isLeft + es.countP isKept := by
  induction es with
  | nil => rfl
  | cons e es ih =>
    obtain ⟨he, hes⟩ := List.forall_mem_cons.1 h
    rw [List.countP_cons, List.countP_cons, List.countP_cons, ih hes]
    cases e with
    | leftDirectory p => simp [level, isLeft, isKept, Nat.add_right_comm]
    | keptFile p => simp [level, isLeft, isKept, Nat.add_assoc]
    | removedFile p => simp [level, isLeft, isKept]
    | _ => cases he

end Event

namespace Files

def namesFolder (fs : Files) (p : Path) : Bool := (fs.locate p).any fs.isFolder

/-- Whether a path names something that is no folder and that the system does not let go. -/
def namesHeld (fs : Files) (p : Path) : Bool :=
  (fs.status p).isSome && !(fs.locate p).any fun pos => fs.isFolder pos || fs.isRemovable pos

theorem isFolder_iff {fs : Files} {pos : Place} :
    fs.isFolder pos ↔ fs.node? pos = some .folder := by
  unfold isFolder
  cases fs.node? pos with
  | none => simp
  | some n => cases n <;> simp

theorem namesFolder_iff {fs : Files} {p : Path} :
    fs.namesFolder p ↔ fs.status p = some .folder := by
  simp [namesFolder, Option.any_eq_true, isFolder_iff, status, Option.bind_eq_some_iff]

theorem names_of_taken {fs : Files} {p : Path} (h : (fs.taken? p).isSome) :
    fs.namesFolder p = false ∧ fs.namesHeld p = false := by
  obtain ⟨pos, ht⟩ := Option.isSome_iff_exists.1 h
  obtain ⟨hl, he⟩ := taken?_eq_some.1 ht
  obtain ⟨hf, hr⟩ := isErasable_iff.1 he
  simp [namesFolder, namesHeld, hl, hf, hr]

theorem names_of_status_none {fs : Files} {p : Path} (h : fs.status p = none) :
    fs.namesFolder p = false ∧ fs.namesHeld p = false := by
  refine ⟨?_, by simp [namesHeld, h]⟩
  rw [Bool.eq_false_iff]
  intro hf
  rw [namesFolder_iff.1 hf] at h
  cases h

theorem namesHeld_of_namesFolder {fs : Files} {p : Path} (h : fs.namesFolder p) :
    fs.namesHeld p = false := by
  obtain ⟨pos, hl, hf⟩ := (Option.any_eq_true _ _).1 h
  simp [namesHeld, hl, hf]

/-- A path that names something behind a removal names it in the place where it did before. -/
theorem locate_of_status_erase {fs : Files} {gone : Place} {p : Path} (hg : gone ≠ [])
    (h : ((fs.erase gone).status p).isSome) :
    ∃ pos, pos ≠ gone ∧ (fs.erase gone).locate p = some pos ∧ fs.locate p = some pos := by
  rw [status_erase fs hg] at h
  split at h
  · cases h
  · next hn =>
    rw [needed, List.mem_append, not_or] at hn
    cases hl : fs.locate p with
    | none => simp [status, hl] at h
    | some pos =>
      refine ⟨pos, ?_, by rw [locate_erase, if_neg hn.1, hl], rfl⟩
      rintro rfl
      exact hn.2 (by simp [hl])

/-- What a straight path names vanishes only where it is what was removed. -/
theorem status_of_status_erase {fs : Files} {gone : Place} {p : Path} (hp : fs.goesStraight p)
    (hg : fs.isErasable gone) (h : (fs.erase gone).status p = none) :
    fs.status p = none ∨ fs.taken? p = some gone := by
  rw [status_erase fs (ne_root_of_isErasable hg)] at h
  split at h
  · next hn =>
    obtain hm | hm := List.mem_append.1 hn
    · obtain hl | hl := locate_of_mem_passed hp hm (isErasable_iff.1 hg).1
      · exact .inr (taken?_eq_some.2 ⟨hl, hg⟩)
      · exact .inl (by simp [status, hl])
    · exact .inr (taken?_eq_some.2 ⟨Option.mem_toList.1 hm, hg⟩)
  · exact .inl h

/-- Paths that each took something behind a removal took it before. -/
theorem map_taken?_of_erase {fs : Files} {gone : Place} {paths : List Path} {places : List Place}
    (h : paths.map (fs.erase gone).taken? = places.map some) :
    paths.map fs.taken? = places.map some := by
  rw [← h]
  refine List.map_congr_left fun p hp => ?_
  have hm : (fs.erase gone).taken? p ∈ places.map some := h ▸ List.mem_map_of_mem hp
  obtain ⟨pos, -, hpos⟩ := List.mem_map.1 hm
  rw [← hpos]
  exact (taken?_of_erase hpos.symm).2

end Files

/-- What the sweep of one path has to tell, judged by the files before any removal. -/
inductive Path.Tells (fs : Files) (p : Path) : List Event → Prop
  | nothing (h : fs.status p = none) : Tells fs p []
  | folder (h : fs.namesFolder p) : Tells fs p [.leftDirectory p.text]
  | held (h : fs.namesHeld p) : Tells fs p [.keptFile p.text]
  | removed (h : (fs.taken? p).isSome) : Tells fs p [.removedFile p.text]
  /-- Another path named the same entry and came first. -/
  | gone (h : (fs.taken? p).isSome) : Tells fs p []

namespace Path.Tells
variable {fs : Files} {p : Path} {es : List Event}

/-- What is no folder is removed or held. -/
theorem of_node {pos : Place} {n : Node} (hl : fs.locate p = some pos) (hn : fs.node? pos = some n)
    (hf : fs.isFolder pos = false) :
    p.Tells fs (Swept.removalEvents p (if fs.isRemovable pos then .removed else .kept)) := by
  by_cases hr : fs.isRemovable pos
  · have ht : fs.taken? p = some pos :=
      Files.taken?_eq_some.2 ⟨hl, Files.isErasable_iff.2 ⟨hf, hr⟩⟩
    rw [if_pos hr]
    exact .removed (Option.isSome_of_eq_some ht)
  · rw [if_neg hr]
    exact .held (by simp [Files.namesHeld, Files.status, hl, hn, hf, hr])

theorem remove (fs : Files) (p : Path) : p.Tells fs (Swept.removalEvents p (fs.remove p).2) := by
  unfold Files.remove
  cases hl : fs.locate p with
  | none => exact .nothing (by simp [Files.status, hl])
  | some pos =>
    have hs : fs.status p = fs.node? pos := by simp [Files.status, hl]
    cases hn : fs.node? pos with
    | none =>
      simp only [hn]
      exact .nothing (hs.trans hn)
    | some n =>
      cases n with
      | folder =>
        simp only [hn]
        exact .folder (Files.namesFolder_iff.2 (hs.trans hn))
      | file =>
        have h := of_node hl hn (by simp [Files.isFolder, hn])
        simpa only [hn, apply_ite Prod.snd] using h
      | link target =>
        have h := of_node hl hn (by simp [Files.isFolder, hn])
        simpa only [hn, apply_ite Prod.snd] using h

theorem of_erase {gone : Place} (hp : fs.goesStraight p) (hg : fs.isErasable gone)
    (h : p.Tells (fs.erase gone) es) : p.Tells fs es := by
  have hroot := Files.ne_root_of_isErasable hg
  cases h with
  | nothing h =>
    obtain h | h := Files.status_of_status_erase hp hg h
    · exact .nothing h
    · exact .gone (by simp [h])
  | folder h =>
    obtain ⟨pos, hne, hl, hl'⟩ := Files.locate_of_status_erase hroot
      (Option.isSome_of_eq_some (Files.namesFolder_iff.1 h))
    refine .folder ?_
    simpa [Files.namesFolder, hl, hl', Files.isFolder, Files.node?_erase_of_ne fs hne] using h
  | held h =>
    obtain ⟨hs, hx⟩ := Bool.and_eq_true_iff.1 h
    obtain ⟨pos, hne, hl, hl'⟩ := Files.locate_of_status_erase hroot hs
    refine .held ?_
    simpa [Files.namesHeld, Files.status, hl, hl', Files.isFolder, Files.node?_erase_of_ne fs hne,
      Files.isRemovable_erase_of_ne fs hne] using h
  | removed h =>
    obtain ⟨pos, ht⟩ := Option.isSome_iff_exists.1 h
    exact .removed (by simp [(Files.taken?_of_erase ht).2])
  | gone h =>
    obtain ⟨pos, ht⟩ := Option.isSome_iff_exists.1 h
    exact .gone (by simp [(Files.taken?_of_erase ht).2])

theorem of_remove (q : Path) (hp : fs.goesStraight p) (h : p.Tells (fs.remove q).1 es) :
    p.Tells fs es := by
  rw [(fs.remove_eq q).1] at h
  cases ht : fs.taken? q with
  | none => rwa [ht] at h
  | some gone =>
    rw [ht] at h
    exact of_erase hp (Files.taken?_eq_some.1 ht).2 h

theorem countP_isLeft (h : p.Tells fs es) :
    es.countP Event.isLeft = if fs.namesFolder p then 1 else 0 := by
  cases h with
  | nothing h => simp [Files.names_of_status_none h]
  | folder h => simp [h, Event.isLeft]
  | held h =>
    have hf : fs.namesFolder p = false := by
      rw [Bool.eq_false_iff]
      exact fun hf => by simp [Files.namesHeld_of_namesFolder hf] at h
    simp [hf, Event.isLeft]
  | removed h => simp [Files.names_of_taken h, Event.isLeft]
  | gone h => simp [Files.names_of_taken h]

theorem countP_isKept (h : p.Tells fs es) :
    es.countP Event.isKept = if fs.namesHeld p then 1 else 0 := by
  cases h with
  | nothing h => simp [Files.names_of_status_none h]
  | folder h => simp [Files.namesHeld_of_namesFolder h, Event.isKept]
  | held h => simp [h, Event.isKept]
  | removed h => simp [Files.names_of_taken h, Event.isKept]
  | gone h => simp [Files.names_of_taken h]

/-- A sweep tells of nothing else. -/
theorem isOwn (h : p.Tells fs es) : ∀ e ∈ es, e.isOwn := by
  cases h with
  | nothing => simp
  | gone => simp
  | _ => exact List.forall_mem_singleton.2 rfl

end Path.Tells

/-- What an orb has to tell; without a file, nothing. -/
inductive Orb.Tells (fs : Files) (o : Orb) : List Event → Prop
  | pathless (h : o.file? = none) : Tells fs o []
  | path {p : Path} {es : List Event} (h : o.file? = some p) (hp : p.Tells fs es) : Tells fs o es

namespace Orb.Tells
variable {fs : Files} {o : Orb} {es : List Event}

theorem of_remove (q : Path) (hp : ∀ p, o.file? = some p → fs.goesStraight p)
    (h : o.Tells (fs.remove q).1 es) : o.Tells fs es := by
  cases h with
  | pathless h => exact .pathless h
  | path h hes => exact .path h (hes.of_remove q (hp _ h))

theorem countP_isLeft (h : o.Tells fs es) :
    es.countP Event.isLeft = if o.file?.any fs.namesFolder then 1 else 0 := by
  cases h with
  | pathless h => simp [h]
  | path h hes => simpa [h] using hes.countP_isLeft

theorem countP_isKept (h : o.Tells fs es) :
    es.countP Event.isKept = if o.file?.any fs.namesHeld then 1 else 0 := by
  cases h with
  | pathless h => simp [h]
  | path h hes => simpa [h] using hes.countP_isKept

theorem isOwn (h : o.Tells fs es) : ∀ e ∈ es, e.isOwn := by
  cases h with
  | pathless => simp
  | path _ hes => exact hes.isOwn

end Orb.Tells

theorem goesStraight_remove {fs : Files} {p : Path} (q : Path) (hp : fs.goesStraight p) :
    (fs.remove q).1.goesStraight p := by
  rw [(fs.remove_eq q).1]
  cases ht : fs.taken? q with
  | none => exact hp
  | some gone =>
    exact Files.goesStraight_erase hp (Files.isErasable_iff.1 (Files.taken?_eq_some.1 ht).2).1

namespace Swept

/-- What a sweep tells of each orb. -/
def shares (fs : Files) : List Orb → List (List Event)
  | [] => []
  | o :: orbs =>
    match o.file? with
    | none => [] :: shares fs orbs
    | some p => removalEvents p (fs.remove p).2 :: shares (fs.remove p).1 orbs

theorem events_foldl (orbs : List Orb) (s : Swept) :
    ((orbs.filterMap Orb.file?).foldl step s).events =
      s.events ++ (shares s.files orbs).flatten := by
  induction orbs generalizing s with
  | nil => simp [shares]
  | cons o orbs ih =>
    cases hf : o.file? with
    | none => simpa [shares, hf] using ih s
    | some p =>
      rw [List.filterMap_cons_some hf, List.foldl_cons, ih]
      simp [shares, hf, step]

theorem filterMap_removalEvents (p : Path) (r : Files.Removal) :
    (removalEvents p r).filterMap Event.removed? = if r = .removed then [p] else [] := by
  cases r <;> rfl

/-- An orb's share follows from what its path names at the start, whatever the others come to. -/
theorem shares_tell {fs : Files} {orbs : List Orb}
    (hp : ∀ o ∈ orbs, ∀ p, o.file? = some p → fs.goesStraight p) :
    List.Forall₂ (Orb.Tells fs) orbs (shares fs orbs) := by
  induction orbs generalizing fs with
  | nil => exact .nil
  | cons o orbs ih =>
    obtain ⟨ho, horbs⟩ := List.forall_mem_cons.1 hp
    rw [shares]
    cases hf : o.file? with
    | none => exact .cons (.pathless hf) (ih horbs)
    | some p =>
      have hrest := ih fun o' ho' q hq => goesStraight_remove p (horbs o' ho' q hq)
      have hboth := (List.forall₂_and_left _ _).2 ⟨horbs, hrest⟩
      exact .cons (.path hf (.remove fs p)) (hboth.imp fun _ _ h => h.2.of_remove p h.1)

/-- The removals that are told of name the places that are taken away, each of them once. -/
theorem removed_shares {fs : Files} {orbs : List Orb}
    (hp : ∀ o ∈ orbs, ∀ p, o.file? = some p → fs.goesStraight p) :
    ∃ places : List Place, places.Nodup ∧
      places.toFinset = fs.taken (orbs.filterMap Orb.file?) ∧
      ((shares fs orbs).flatten.filterMap Event.removed?).map fs.taken? = places.map some := by
  induction orbs generalizing fs with
  | nil => exact ⟨[], .nil, rfl, rfl⟩
  | cons o orbs ih =>
    obtain ⟨-, horbs⟩ := List.forall_mem_cons.1 hp
    cases hf : o.file? with
    | none =>
      rw [List.filterMap_cons_none hf]
      simpa only [shares, hf, List.flatten_cons, List.nil_append] using ih horbs
    | some p =>
      obtain ⟨places, hnodup, htaken, hmap⟩ :=
        ih fun o' ho' q hq => goesStraight_remove p (horbs o' ho' q hq)
      obtain ⟨hfiles, hanswer⟩ := fs.remove_eq p
      simp only [shares, hf, List.filterMap_cons_some hf, List.flatten_cons, List.filterMap_append,
        filterMap_removalEvents, hanswer, List.map_append]
      rw [hfiles] at htaken hmap ⊢
      cases ht : fs.taken? p with
      | none =>
        rw [ht] at htaken hmap
        refine ⟨places, hnodup, htaken.trans (Files.taken_cons_none _ ht).symm, hmap⟩
      | some pos =>
        rw [ht, Option.elim_some] at htaken hmap
        have hpaths : ∀ q ∈ orbs.filterMap Orb.file?, fs.goesStraight q := by
          intro q hq
          obtain ⟨o', ho', hq⟩ := List.mem_filterMap.1 hq
          exact horbs o' ho' q hq
        rw [Files.taken_erase hpaths (Files.taken?_eq_some.1 ht).2] at htaken
        -- Behind its removal the place is taken by no other path.
        have hpos : pos ∉ places := by
          rw [← List.mem_toFinset, htaken]
          exact Finset.notMem_erase pos _
        refine ⟨pos :: places, hnodup.cons hpos, ?_, ?_⟩
        · rw [List.toFinset_cons, htaken, Files.taken_cons_some _ ht]
          ext x
          by_cases hx : x = pos <;> simp [hx]
        · rw [Option.elim_some, if_pos (Option.isSome_some), Files.map_taken?_of_erase hmap,
            List.map_singleton, ht, List.map_cons, List.singleton_append]

end Swept

namespace Cache

theorem filter_lockForSweep (c : Cache) :
    c.lockForSweep.2.filter (fun e => !e.isRecovery) = [] := by
  simp only [lockForSweep, Store.lock]
  cases c.orbs.poisoned <;> cases c.documents.poisoned <;> rfl

/-- Where each share holds one event of a kind or none, they hold as many as there are orbs that
have one. -/
theorem countP_shares {fs : Files} {q : Event → Bool} {names : Orb → Bool} {orbs : List Orb}
    {shares : List (List Event)}
    (hq : ∀ o es, Orb.Tells fs o es → es.countP q = if names o then 1 else 0)
    (h : List.Forall₂ (Orb.Tells fs) orbs shares) :
    shares.flatten.countP q = orbs.countP names := by
  induction h with
  | nil => rfl
  | cons ho _ ih =>
    rw [List.flatten_cons, List.countP_append, ih, hq _ _ ho, List.countP_cons, Nat.add_comm]

theorem isOwn_shares {fs : Files} {orbs : List Orb} {shares : List (List Event)}
    (h : List.Forall₂ (Orb.Tells fs) orbs shares) : ∀ e ∈ shares.flatten, e.isOwn := by
  induction h with
  | nil => simp
  | cons ho _ ih =>
    rw [List.flatten_cons]
    exact List.forall_mem_append.2 ⟨ho.isOwn, ih⟩

/-- As many removals are told of as there are places that they name. -/
theorem countP_trace {fs : Files} {told : List Event} {places : List Place}
    (h : (told.filterMap Event.removed?).map fs.taken? = places.map some) :
    told.countP (fun e => e.level = .trace) = places.length := by
  have hl := congrArg List.length h
  rw [List.length_map, List.length_map, List.length_filterMap_eq_countP] at hl
  simpa only [Event.isSome_removed?] using hl

/-- Behind the recoveries of locks the log of a teardown holds the shares and the report. -/
theorem filter_teardown (c : Cache) {fs : Files} {order : List Orb}
    (h : List.Forall₂ (Orb.Tells fs) order (Swept.shares fs order)) :
    (c.teardown fs order).events.filter (fun e => !e.isRecovery) =
      (Swept.shares fs order).flatten ++
        [.clearedHost (Swept.ofOrbs fs order).removed c.orbs.table.size] := by
  have hevents : (Swept.ofOrbs fs order).events = (Swept.shares fs order).flatten :=
    Swept.events_foldl order ⟨fs, 0, []⟩
  have hown : (Swept.shares fs order).flatten.filter (fun e => !e.isRecovery) =
      (Swept.shares fs order).flatten := by
    refine List.filter_eq_self.2 fun e he => ?_
    simp [Event.isRecovery_of_isOwn (isOwn_shares h e he)]
  change (c.lockForSweep.2 ++ (Swept.ofOrbs fs order).events ++ [_]).filter _ = _
  rw [List.filter_append, List.filter_append, filter_lockForSweep, hevents, hown, List.nil_append]
  rfl

/-- The log of a teardown accounts for its report. Behind the recoveries of locks it holds each
orb's share, in whatever order they come, and then the report itself. A removal is told of each
entry that is gone, once; what is told of folders and of entries that stay is told of each orb that
names one. -/
theorem teardown_accounts (c : Cache) (fs : Files)
    (hp : ∀ o ∈ c.orbs.table.values, ∀ p, o.file? = some p → fs.goesStraight p) :
    let orbs := c.orbs.table.values
    ∃ gone : Finset Place,
      (∀ pos, pos ∈ gone ↔
        (∃ o ∈ orbs, ∃ p, o.file? = some p ∧ fs.locate p = some pos) ∧
          fs.isFolder pos = false ∧ fs.isRemovable pos) ∧
      ∀ order, order.Perm orbs → ∃ shares : List (List Event),
        let told := shares.flatten
        let report : Report := ⟨gone.card, c.orbs.table.size⟩
        ((c.teardown fs order).answer = some report ∧
          (c.teardown fs order).events.filter (fun e => !e.isRecovery) =
            told ++ [.clearedHost report.removedFiles report.clearedOrbs]) ∧
        (List.Forall₂ (Orb.Tells fs) order shares ∧
          ∀ pos ∈ gone, (c.teardown fs order).state.2.node? pos = none) ∧
        (told.countP (fun e => e.level = .trace) = gone.card ∧
          ∃ places : List Place, places.Nodup ∧ places.toFinset = gone ∧
            (told.filterMap Event.removed?).map fs.taken? = places.map some) ∧
        told.countP Event.isLeft = orbs.countP (fun o => o.file?.any fs.namesFolder) ∧
        told.countP Event.isKept = orbs.countP (fun o => o.file?.any fs.namesHeld) ∧
        told.countP (fun e => e.level = .debug) =
          told.countP Event.isLeft + told.countP Event.isKept := by
  intro orbs
  refine ⟨fs.taken (orbs.filterMap Orb.file?), fun pos => mem_taken_orbs, fun order ho => ?_⟩
  have horder : ∀ o ∈ order, ∀ p, o.file? = some p → fs.goesStraight p :=
    fun o hm => hp o (ho.mem_iff.1 hm)
  have htell := Swept.shares_tell horder
  obtain ⟨hfiles, hremoved⟩ := swept_orbs ho hp
  obtain ⟨places, hnodup, hplaces, hmap⟩ := Swept.removed_shares horder
  rw [Files.taken_perm fs (ho.filterMap Orb.file?)] at hplaces
  have hcard : places.length = (fs.taken (orbs.filterMap Orb.file?)).card := by
    rw [← hplaces, List.toFinset_card_of_nodup hnodup]
  refine ⟨Swept.shares fs order, ⟨?_, ?_⟩, ⟨htell, fun pos hpos => ?_⟩,
    ⟨(countP_trace hmap).trans hcard, places, hnodup, hplaces, hmap⟩, ?_, ?_, ?_⟩
  · simp only [teardown, lockForSweep, Store.lock, hremoved]
  · rw [c.filter_teardown htell, hremoved]
  · simp only [teardown, hfiles]
    rw [fs.node?_without (root_not_mem_taken_orbs fs _), if_pos hpos]
  · exact (countP_shares (fun _ _ h => h.countP_isLeft) htell).trans (ho.countP_eq _)
  · exact (countP_shares (fun _ _ h => h.countP_isKept) htell).trans (ho.countP_eq _)
  · exact Event.countP_debug (isOwn_shares htell)

/-- A file that two orbs share, a folder, a file that is held, and a path that names nothing; and a
lock whose last holder crashed. -/
def mixed : Cache :=
  { empty with
    orbs := ⟨"orbs", ⟨[("a", named "o.yml"), ("b", named "o.yml"), ("c", named "d"),
      ("d", named "v"), ("e", named "x"), ("f", named "")]⟩, true⟩ }

def mixedFiles : Files :=
  ⟨⟨[(["o.yml"], ⟨.file, true⟩), (["d"], ⟨.folder, true⟩), (["v"], ⟨.file, false⟩)]⟩, []⟩

theorem locate_mixed {name : String} (h : name ∈ ["o.yml", "d", "v", "x"]) :
    mixedFiles.locate ⟨name⟩ = (mixedFiles.node? [name]).map fun _ => [name] := by
  have hall : ∀ name ∈ ["o.yml", "d", "v", "x"], Path.isUsable ⟨name⟩ ∧
      Path.steps ⟨name⟩ = [name] ∧ Path.isAbsolute ⟨name⟩ = false ∧ ¬ isStay name ∧ name ≠ ".." ∧
      ¬ isTooLong name := by
    decide +kernel
  obtain ⟨hu, hs, ha, hstay, hup, hlong⟩ := hall name h
  rw [Files.locate, if_pos hu, hs, Files.origin, ha]
  exact Files.walk_name_last hstay hup hlong _

theorem teardown_accounts_mixed :
    (∀ o ∈ mixed.orbs.table.values, ∀ p, o.file? = some p → mixedFiles.goesStraight p) ∧
      (mixed.teardown mixedFiles mixed.orbs.table.values.reverse).answer = some ⟨1, 6⟩ ∧
      ∃ told, (mixed.teardown mixedFiles mixed.orbs.table.values.reverse).events.filter
          (fun e => !e.isRecovery) = told ++ [.clearedHost 1 6] ∧
        told.countP (fun e => e.level = .trace) = 1 ∧ told.countP Event.isLeft = 1 ∧
        told.countP Event.isKept = 1 := by
  have hstraight : ∀ o ∈ mixed.orbs.table.values, ∀ p, o.file? = some p →
      mixedFiles.goesStraight p := by
    intro o ho p hp
    have hall : (mixed.orbs.table.values.all fun o =>
        o.file?.all mixedFiles.goesStraight) = true := by decide +kernel
    have h := List.all_eq_true.1 hall o ho
    rwa [hp] at h
  obtain ⟨gone, hgone, h⟩ := teardown_accounts mixed mixedFiles hstraight
  obtain ⟨shares, ⟨hanswer, hevents⟩, -, ⟨htrace, -⟩, hleft, hkept, -⟩ :=
    h _ (List.reverse_perm _)
  have hpaths : mixed.orbs.table.values.filterMap Orb.file? =
      [⟨"o.yml"⟩, ⟨"o.yml"⟩, ⟨"d"⟩, ⟨"v"⟩, ⟨"x"⟩] := rfl
  have hname {name : String} (h : name ∈ ["o.yml", "d", "v", "x"]) :
      mixedFiles.taken? ⟨name⟩ = (if name = "o.yml" then some [name] else none) ∧
        mixedFiles.namesFolder ⟨name⟩ = decide (name = "d") ∧
        mixedFiles.namesHeld ⟨name⟩ = decide (name = "v") := by
    rw [Files.taken?, Files.namesFolder, Files.namesHeld, Files.status, locate_mixed h]
    revert name
    decide
  have hone : gone = {["o.yml"]} := by
    ext pos
    rw [hgone, ← mem_taken_orbs, Files.mem_taken, hpaths]
    simp [hname, eq_comm]
  refine ⟨hstraight, ?_, shares.flatten, ?_, ?_, ?_, ?_⟩
  · rw [hanswer, hone]
    rfl
  · rw [hevents, hone]
    rfl
  · rw [htrace, hone]
    rfl
  · rw [hleft]
    simp [mixed, Table.values, named, Orb.file?, Orb.unread, hname, Path.isEmpty]
  · rw [hkept]
    simp [mixed, Table.values, named, Orb.file?, Orb.unread, hname, Path.isEmpty]

end Cache
end PipelineCache

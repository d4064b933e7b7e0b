import PipelineCache.Proofs.Cache.History
import PipelineCache.Proofs.Store.Recovery

/-! Stores do not interfere. What the steps on one store of one cache answer and leave there depends
on those steps alone: not on steps on other stores and other caches, and not on which of the cache's
handles they come through. -/
namespace PipelineCache
variable {κ α ρ ρ' : Type}

namespace Store

/-- An action that makes no difference between stores that agree. -/
def Respects (act : Store κ α → Outcome (Store κ α) ρ) : Prop :=
  ∀ s s', s.Agree s' → (act s).answer = (act s').answer ∧ (act s).state.Agree (act s').state

theorem respects_of_isHold {act : Store κ α → Outcome (Store κ α) ρ} (h : ∀ name, IsHold name act) :
    Respects act := by
  intro s s' hs
  obtain ⟨body, hb⟩ := h s.name
  rw [hb s rfl, hb s' hs.1.symm]
  obtain ⟨ha, ht⟩ := agree_hold hs body
  exact ⟨ha, ht ▸ ⟨rfl, rfl⟩⟩

theorem Respects.map {act : Store κ α → Outcome (Store κ α) ρ} (h : Respects act) (f : ρ → ρ') :
    Respects fun s => (act s).map f := by
  intro s s' hs
  obtain ⟨ha, ht⟩ := h s s' hs
  exact ⟨congrArg (Option.map f) ha, ht⟩

theorem respects_perform [DecidableEq κ] (crashes : Crashes α) (op : Op κ α) :
    Respects fun s => s.perform crashes op := by
  intro s s' h
  obtain ⟨ha, hs⟩ := agree_serve crashes (.op op : Request κ α Unit) h
  exact ⟨Option.map_injective (fun _ _ => Sum.inl.inj) ha, hs⟩

theorem respects_insert [DecidableEq κ] (crashes : Crashes α) (k : κ) (v : α) :
    Respects fun s : Store κ α => s.insert crashes k v :=
  respects_of_isHold fun name => isHold_hold name _

/-- What misses an entry tells the store's name, which is the same for stores that agree. -/
theorem respects_update_orMissing (k : String) (change : α → Option (ρ × α)) :
    Respects fun s : Store String α => (s.update k change).map (s.orMissing k) := by
  intro s s' h
  obtain ⟨ha, hs⟩ := respects_of_isHold (fun name => isHold_hold name _) s s' h
  refine ⟨?_, hs⟩
  change (s.update k change).answer.map (s.orMissing k) =
    (s'.update k change).answer.map (s'.orMissing k)
  have hname : (s.orMissing k : Option ρ → _) = s'.orMissing k := by
    funext answer
    cases answer with
    | none => simp only [orMissing, h.1]
    | some a => rfl
  rw [hname]
  exact congrArg _ ha

theorem respects_addVariable [Owner α] (crashes : Crashes α) (k name : String) :
    Respects fun s : Store String α => s.addVariable crashes k name := by
  simp only [addVariable_eq_update]
  exact respects_update_orMissing k _

end Store

namespace Cache

/-- The store that an operation works on; a description looks at all of them. -/
def Op.shelf? : Op → Option Shelf
  | .on s _ => some s
  | .fileDocument _ => some .documents
  | .fileContext _ => some .contexts
  | .fileProject _ => some .projects
  | .noteImage _ _ => some .images
  | .addContextVariable _ _ => some .contexts
  | .addProjectVariable _ _ => some .projects
  | .attach _ _ => some .orbs
  | .describe _ => none

/-- An operation on one store is an action on that store alone. -/
theorem perform_on {op : Op} {s : Shelf} (h : op.shelf? = some s) :
    ∃ act : Store s.Key s.Record → Outcome (Store s.Key s.Record) Answer, Store.Respects act ∧
      ∀ c : Cache, (c.perform op).answer = (act (c.store s)).answer ∧
        (c.perform op).state = c.put s (act (c.store s)).state := by
  have filed (s : Shelf) (k : s.Key) (v : s.Record) :
      Store.Respects fun st : Store s.Key s.Record =>
        (st.insert .none k v).map fun v => Answer.on s (.record v) :=
    (Store.respects_insert .none k v).map _
  cases op with
  | on s op =>
    cases h
    exact ⟨_, (Store.respects_perform .none op).map (.on s), fun c => ⟨rfl, rfl⟩⟩
  | fileDocument d =>
    cases h
    exact ⟨_, filed .documents d.uri d, fun c => ⟨rfl, rfl⟩⟩
  | fileContext v =>
    cases h
    exact ⟨_, filed .contexts v.name v, fun c => ⟨rfl, rfl⟩⟩
  | fileProject v =>
    cases h
    exact ⟨_, filed .projects v.slug v, fun c => ⟨rfl, rfl⟩⟩
  | noteImage name found =>
    cases h
    exact ⟨_, filed .images name (.made found), fun c => ⟨rfl, rfl⟩⟩
  | addContextVariable key name =>
    cases h
    exact ⟨_, (Store.respects_addVariable .none key name).map
      (.orMissing fun b => .on .contexts (.flag b)), fun c => ⟨rfl, rfl⟩⟩
  | addProjectVariable key name =>
    cases h
    exact ⟨_, (Store.respects_addVariable .none key name).map
      (.orMissing fun b => .on .projects (.flag b)), fun c => ⟨rfl, rfl⟩⟩
  | attach id i =>
    cases h
    refine ⟨_, (Store.respects_update_orMissing id fun orb =>
      some (i, { orb with interface := some i })).map (.orMissing .interface), fun c => ?_⟩
    obtain ⟨hs, ha⟩ := c.attach_eq_update id i
    exact ⟨congrArg (Option.map _) ha, hs⟩
  | describe wide => cases h

/-- Two caches that have agreeing stores on one shelf. -/
def AgreeOn (s : Shelf) (c c' : Cache) : Prop := (c.store s).Agree (c'.store s)

theorem AgreeOn.symm {s : Shelf} {c c' : Cache} (h : AgreeOn s c c') : AgreeOn s c' c :=
  ⟨h.1.symm, h.2.symm⟩

theorem AgreeOn.trans {s : Shelf} {c c' c'' : Cache} (h : AgreeOn s c c') (h' : AgreeOn s c' c'') :
    AgreeOn s c c'' :=
  ⟨h.1.trans h'.1, h.2.trans h'.2⟩

theorem agreeOn_refl (s : Shelf) (c : Cache) : AgreeOn s c c := ⟨rfl, rfl⟩

/-- What may be asked of a cache. -/
inductive Task where
  | perform (op : Op)
  | sweep
  | teardown

namespace Task

/-- Sweeping and teardown work on the orbs, and on files. -/
def shelf? : Task → Option Shelf
  | perform op => op.shelf?
  | sweep => some .orbs
  | teardown => some .orbs

end Task

def carryOut (c : Cache) (fs : Files) : Task → Outcome (Cache × Files) Reply
  | .perform op =>
    let o := c.perform op
    ⟨(o.state, fs), o.answer.map .answer, o.events⟩
  | .sweep => (c.sweep fs c.orbs.table.values).map .removed
  | .teardown => (c.teardown fs c.orbs.table.values).map .report

end Cache

/-- A reply but for the number of files that were removed. -/
def Reply.uncounted : Reply → Reply
  | .removed _ => .removed 0
  | .report r => .report { r with removedFiles := 0 }
  | r => r

namespace Cache

/-- What a cache answers, but for the number of removed files. -/
def result (c : Cache) (fs : Files) (t : Task) : Reply :=
  ((c.carryOut fs t).answer.getD .crashed).uncounted

/-- A task on another store leaves a store as it was. -/
theorem agreeOn_carryOut_of_ne {t : Task} {s : Shelf} (h : t.shelf? ≠ some s) (c : Cache)
    (fs : Files) : AgreeOn s (c.carryOut fs t).state.1 c := by
  cases t with
  | perform op =>
    cases hop : op.shelf? with
    | none =>
      cases op with
      | describe wide => cases s <;> exact ⟨rfl, rfl⟩
      | _ => cases hop
    | some s' =>
      obtain ⟨act, -, hact⟩ := perform_on hop
      have hne : s' ≠ s := by
        rintro rfl
        exact h hop
      simp only [AgreeOn, carryOut, (hact c).2, store_put_of_ne c hne]
      exact ⟨rfl, rfl⟩
  | sweep => cases s <;> exact ⟨rfl, rfl⟩
  | teardown =>
    cases s with
    | orbs => exact absurd rfl h
    | _ => exact ⟨rfl, rfl⟩

/-- What a task on one store answers and leaves there depends on that store alone. -/
theorem AgreeOn.carryOut {t : Task} {s : Shelf} (ht : t.shelf? = some s) {c c' : Cache}
    (h : AgreeOn s c c') (fs fs' : Files) :
    c.result fs t = c'.result fs' t ∧
      AgreeOn s (c.carryOut fs t).state.1 (c'.carryOut fs' t).state.1 := by
  cases t with
  | perform op =>
    obtain ⟨act, hrespects, hact⟩ := perform_on ht
    obtain ⟨ha, hs⟩ := hrespects _ _ h
    simp only [AgreeOn, result, Cache.carryOut, (hact c).1, (hact c').1, (hact c).2, (hact c').2,
      store_put, ha]
    exact ⟨trivial, hs⟩
  | sweep =>
    cases ht
    exact ⟨rfl, h⟩
  | teardown =>
    cases ht
    refine ⟨?_, h.1, rfl⟩
    change Reply.report ⟨0, c.orbs.table.size⟩ = Reply.report ⟨0, c'.orbs.table.size⟩
    rw [show c.orbs.table = c'.orbs.table from h.2]

end Cache
/-- What a step asks of the cache behind a handle. -/
def Step.task? : Step → Option (Nat × Cache.Task)
  | .on h op => some (h, .perform op)
  | .sweep h => some (h, .sweep)
  | .teardown h => some (h, .teardown)
  | _ => none

namespace World

/-- The cache with a number, which is empty until it is made. -/
def cacheAt (w : World) (i : Nat) : Cache := w.caches[i]?.getD .empty

/-- What a step asks of one store of the cache with a number. -/
def task? (w : World) (i : Nat) (s : Shelf) (st : Step) : Option Cache.Task :=
  st.task?.bind fun (h, t) => if w.handles[h]? = some i ∧ t.shelf? = some s then some t else none

/-- What some steps ask of that store, in their order. -/
def tasks (w : World) (i : Nat) (s : Shelf) : List Step → List Cache.Task
  | [] => []
  | st :: steps => (w.task? i s st).toList ++ tasks (w.step st).1 i s steps

/-- What the steps on that store answer, but for the numbers of removed files. -/
def results (w : World) (i : Nat) (s : Shelf) : List Step → List Reply
  | [] => []
  | st :: steps =>
    ((w.task? i s st).map fun _ => (w.step st).2.1.uncounted).toList ++
      results (w.step st).1 i s steps

/-- What that store holds. -/
def contents (w : World) (i : Nat) (s : Shelf) : Table s.Key s.Record :=
  ((w.cacheAt i).store s).table

/-- The steps without those on other stores and other caches. -/
def only (w : World) (i : Nat) (s : Shelf) : List Step → List Step
  | [] => []
  | st :: steps =>
    if st.task?.isSome ∧ w.task? i s st = none then only (w.step st).1 i s steps
    else st :: only (w.step st).1 i s steps

section
variable {w : World} {i : Nat} {s : Shelf} {st : Step}

theorem step_of_task {h : Nat} {t : Cache.Task} (ht : st.task? = some (h, t)) (w : World) :
    w.step st = w.withCache h fun c => c.carryOut w.files t := by
  cases st with
  | on h op => cases ht; rfl
  | sweep h => cases ht; rfl
  | teardown h => cases ht; rfl
  | _ => cases ht

theorem cacheAt_withCache (hw : w.Linked) (h : Nat) (f : Cache → Outcome (Cache × Files) Reply)
    (i : Nat) : (w.withCache h f).1.cacheAt i =
      if w.handles[h]? = some i then (f (w.cacheAt i)).state.1 else w.cacheAt i := by
  cases hh : w.handles[h]? with
  | none => simp [withCache, cache?, hh]
  | some j =>
    obtain ⟨c, hc⟩ := exists_cache hw hh
    obtain ⟨hj, rfl⟩ := List.getElem?_eq_some_iff.1 hc
    simp only [withCache, cache?, hh, Option.bind_some, hc, Option.some_inj, setCache, cacheAt]
    by_cases he : j = i
    · subst he
      simp [hj]
    · simp [he]

theorem cacheAt_prepare (w : World) (files : Option Files) (i : Nat) :
    (w.prepare files).1.cacheAt i = w.cacheAt i := by
  cases files <;> rfl

theorem cacheAt_of_no_task (h : st.task? = none) : (w.step st).1.cacheAt i = w.cacheAt i := by
  cases st with
  | on h op => cases h
  | sweep h => cases h
  | teardown h => cases h
  | newCache =>
    simp only [step, cacheAt, List.getElem?_append]
    split
    · rfl
    · next hi =>
      rw [List.getElem?_eq_none (Nat.not_lt.1 hi), List.getElem?_singleton]
      split <;> rfl
  | share h =>
    simp only [step]
    split <;> rfl
  | status p => rfl
  | _ => exact w.cacheAt_prepare _ i

theorem task?_eq_some {t : Cache.Task} (h : w.task? i s st = some t) :
    ∃ n, st.task? = some (n, t) ∧ w.handles[n]? = some i ∧ t.shelf? = some s := by
  obtain ⟨⟨n, t'⟩, hst, h⟩ := Option.bind_eq_some_iff.1 h
  obtain ⟨⟨hn, hs⟩, he⟩ := Option.ite_none_right_eq_some.1 h
  cases he
  exact ⟨n, hst, hn, hs⟩

/-- A step that asks nothing of a store leaves it as it was. -/
theorem agreeOn_step_of_none (hw : w.Linked) (h : w.task? i s st = none) :
    ((w.step st).1.cacheAt i).AgreeOn s (w.cacheAt i) := by
  cases ht : st.task? with
  | none =>
    rw [cacheAt_of_no_task ht]
    exact Cache.agreeOn_refl s _
  | some task =>
    obtain ⟨n, t⟩ := task
    rw [step_of_task ht, cacheAt_withCache hw]
    split
    · next hn =>
      refine Cache.agreeOn_carryOut_of_ne (fun hs => ?_) _ _
      simp [task?, ht, hn, hs] at h
    · exact Cache.agreeOn_refl s _

/-- A step that asks something of a store does so as a cache with the same store would. -/
theorem agreeOn_step_of_some (hw : w.Linked) {t : Cache.Task} (h : w.task? i s st = some t)
    {c : Cache} (hc : (w.cacheAt i).AgreeOn s c) :
    (w.step st).2.1.uncounted = c.result .initial t ∧
      ((w.step st).1.cacheAt i).AgreeOn s (c.carryOut .initial t).state.1 := by
  obtain ⟨n, ht, hn, hs⟩ := task?_eq_some h
  obtain ⟨hr, hstate⟩ := hc.carryOut hs w.files .initial
  obtain ⟨d, hd⟩ := exists_cache hw hn
  have hat : w.cacheAt i = d := by rw [cacheAt, hd, Option.getD_some]
  rw [step_of_task ht, cacheAt_withCache hw, if_pos hn, reply_withCache hn hd, ← hat]
  exact ⟨hr, hstate⟩

end

end World

/-- A cache by itself, with some tasks one after another. -/
def Cache.carryOutAll (c : Cache) : List Cache.Task → Cache × List Reply
  | [] => (c, [])
  | t :: ts =>
    let (last, replies) := carryOutAll (c.carryOut .initial t).state.1 ts
    (last, c.result .initial t :: replies)

namespace World

/-- Any history is, for one store, the tasks of that store on a cache by itself. -/
theorem agreeOn_run {w : World} (hw : w.Linked) (i : Nat) (s : Shelf) {c : Cache}
    (hc : (w.cacheAt i).AgreeOn s c) (steps : List Step) :
    w.results i s steps = (c.carryOutAll (w.tasks i s steps)).2 ∧
      ((w.run steps).1.cacheAt i).AgreeOn s (c.carryOutAll (w.tasks i s steps)).1 := by
  induction steps generalizing w c with
  | nil => exact ⟨rfl, hc⟩
  | cons st steps ih =>
    have hw' := linked_step hw st
    rw [results, tasks, run]
    cases ht : w.task? i s st with
    | none => exact ih hw' ((agreeOn_step_of_none hw ht).trans hc)
    | some t =>
      obtain ⟨hr, hs⟩ := agreeOn_step_of_some hw ht hc
      obtain ⟨hresults, hlast⟩ := ih hw' hs
      exact ⟨congrArg₂ List.cons hr hresults, hlast⟩

/-- Two worlds whose handles lead to caches with the same numbers. -/
def Alike (w w' : World) : Prop :=
  w.handles = w'.handles ∧ w.caches.length = w'.caches.length

theorem alike_withCache (w : World) (h : Nat) (f : Cache → Outcome (Cache × Files) Reply) :
    Alike (w.withCache h f).1 w := by
  unfold withCache setCache
  split
  · exact ⟨rfl, rfl⟩
  · split
    · exact ⟨rfl, List.length_set⟩
    · exact ⟨rfl, rfl⟩

theorem alike_prepare (w : World) (files : Option Files) : Alike (w.prepare files).1 w := by
  cases files <;> exact ⟨rfl, rfl⟩

theorem Alike.symm {w w' : World} (h : Alike w w') : Alike w' w := ⟨h.1.symm, h.2.symm⟩

theorem Alike.trans {w w' w'' : World} (h : Alike w w') (h' : Alike w' w'') : Alike w w'' :=
  ⟨h.1.trans h'.1, h.2.trans h'.2⟩

theorem Alike.step {w w' : World} (h : Alike w w') (st : Step) :
    Alike (w.step st).1 (w'.step st).1 := by
  have withCache {n : Nat} {f f' : Cache → Outcome (Cache × Files) Reply} :
      Alike (w.withCache n f).1 (w'.withCache n f').1 :=
    (alike_withCache w n f).trans (h.trans (alike_withCache w' n f').symm)
  have prepare {files files' : Option Files} :
      Alike (w.prepare files).1 (w'.prepare files').1 :=
    (alike_prepare w files).trans (h.trans (alike_prepare w' files').symm)
  cases st with
  | on n op => exact withCache
  | sweep n => exact withCache
  | teardown n => exact withCache
  | newCache => simp only [Alike, World.step, List.length_append, h.1, h.2, and_self]
  | share n =>
    simp only [World.step, h.1]
    split
    · exact ⟨rfl, h.2⟩
    · exact h
  | status p => exact h
  | _ => exact prepare

theorem alike_step_of_task {w : World} {st : Step} (h : st.task?.isSome) :
    Alike (w.step st).1 w := by
  obtain ⟨⟨n, t⟩, ht⟩ := Option.isSome_iff_exists.1 h
  rw [step_of_task ht]
  exact alike_withCache w n _

theorem Alike.task? {w w' : World} (h : Alike w w') (i : Nat) (s : Shelf) (st : Step) :
    w.task? i s st = w'.task? i s st := by
  rw [World.task?, World.task?, h.1]

/-- Nothing that is asked of a store is left out. The shorter script runs in a world whose stores and
files may differ, but its handles lead to the same caches. -/
theorem tasks_only {w w' : World} (h : Alike w w') (i : Nat) (s : Shelf) (steps : List Step) :
    w'.tasks i s (w.only i s steps) = w.tasks i s steps := by
  induction steps generalizing w w' with
  | nil => rfl
  | cons st steps ih =>
    rw [only, tasks]
    split
    · next hst =>
      rw [hst.2]
      exact ih ((alike_step_of_task hst.1).trans h)
    · rw [tasks, ih (h.step st), h.task?]

end World

/-- The same step through another handle. -/
def Step.through (h : Nat) : Step → Step
  | .on _ op => .on h op
  | .sweep _ => .sweep h
  | .teardown _ => .teardown h
  | .share _ => .share h
  | st => st

def Step.handle? : Step → Option Nat
  | .on h _ => some h
  | .sweep h => some h
  | .teardown h => some h
  | .share h => some h
  | _ => none

namespace World

/-- Two scripts whose steps are the same but for the handles, which lead to the same caches. -/
def Redirected (w : World) : List Step → List Step → Prop
  | [], [] => True
  | st :: steps, st' :: steps' =>
    (∃ h, st' = st.through h ∧ ∀ h', st.handle? = some h' → w.handles[h]? = w.handles[h']?) ∧
      Redirected (w.step st).1 steps steps'
  | _, _ => False

theorem withCache_congr {w : World} {h h' : Nat} (hh : w.handles[h]? = w.handles[h']?)
    (f : Cache → Outcome (Cache × Files) Reply) : w.withCache h f = w.withCache h' f := by
  simp only [withCache, cache?, setCache, hh]

theorem step_through {w : World} {st : Step} {h : Nat}
    (hh : ∀ h', st.handle? = some h' → w.handles[h]? = w.handles[h']?) :
    w.step (st.through h) = w.step st := by
  cases st with
  | on h' op => exact withCache_congr (hh h' rfl) _
  | sweep h' => exact withCache_congr (hh h' rfl) _
  | teardown h' => exact withCache_congr (hh h' rfl) _
  | share h' => simp only [Step.through, step, hh h' rfl]
  | _ => rfl

theorem run_redirected {w : World} {steps steps' : List Step} (h : w.Redirected steps steps') :
    w.run steps' = w.run steps := by
  induction steps generalizing w steps' with
  | nil =>
    cases steps' with
    | nil => rfl
    | cons st' steps' => cases h
  | cons st steps ih =>
    cases steps' with
    | nil => cases h
    | cons st' steps' =>
      obtain ⟨⟨n, rfl, hn⟩, hsteps⟩ := h
      simp only [run, step_through hn, ih hsteps]

/-- What the steps on one store of one cache answer and leave there is settled by them alone: it is
the same in every script with the same steps on such a store, hence without the steps on other
stores and other caches. And it makes no difference at all to a script which of a cache's handles
its steps go through. -/
theorem stores_separate (i : Nat) (s : Shelf) (steps : List Step) :
    (∀ (i' : Nat) (steps' : List Step), initial.tasks i' s steps' = initial.tasks i s steps →
      initial.results i' s steps' = initial.results i s steps ∧
        (initial.run steps').1.contents i' s = (initial.run steps).1.contents i s) ∧
    (initial.results i s (initial.only i s steps) = initial.results i s steps ∧
      (initial.run (initial.only i s steps)).1.contents i s = (initial.run steps).1.contents i s) ∧
    ∀ steps', initial.Redirected steps steps' → initial.run steps' = initial.run steps := by
  have hinitial (i : Nat) : (initial.cacheAt i).AgreeOn s .empty := by
    cases i <;> exact Cache.agreeOn_refl s _
  have hsame (i' : Nat) (steps' : List Step)
      (h : initial.tasks i' s steps' = initial.tasks i s steps) :
      initial.results i' s steps' = initial.results i s steps ∧
        (initial.run steps').1.contents i' s = (initial.run steps).1.contents i s := by
    obtain ⟨hr, hc⟩ := agreeOn_run linked_initial i s (hinitial i) steps
    obtain ⟨hr', hc'⟩ := agreeOn_run linked_initial i' s (hinitial i') steps'
    rw [h] at hr' hc'
    exact ⟨hr'.trans hr.symm, (hc'.trans hc.symm).2⟩
  exact ⟨hsame, hsame i _ (tasks_only ⟨rfl, rfl⟩ i s steps), fun _ h => run_redirected h⟩

/-- Two handles of one cache work on a context, among steps on its orbs and on another cache. -/
def mixed : List Step :=
  [.share 0, .on 0 (.fileContext (.named "deploy")), .newCache, .on 2 (.on .contexts .clear),
    .on 1 (.addContextVariable "deploy" "A"), .teardown 1, .on 0 (.on .contexts (.get? "deploy"))]

/-- The steps on the context again, in the second cache. -/
def moved : List Step :=
  [.newCache, .on 1 (.fileContext (.named "deploy")), .on 1 (.addContextVariable "deploy" "A"),
    .on 1 (.on .contexts (.get? "deploy"))]

def swapped : List Step :=
  [.share 0, .on 1 (.fileContext (.named "deploy")), .newCache, .on 2 (.on .contexts .clear),
    .on 0 (.addContextVariable "deploy" "A"), .teardown 0, .on 1 (.on .contexts (.get? "deploy"))]

theorem tasks_moved :
    initial.tasks 1 .contexts moved = initial.tasks 0 .contexts mixed := rfl

def kept : List Step :=
  [.share 0, .on 0 (.fileContext (.named "deploy")), .newCache,
    .on 1 (.addContextVariable "deploy" "A"), .on 0 (.on .contexts (.get? "deploy"))]

theorem only_mixed : initial.only 0 .contexts mixed = kept := rfl

theorem redirected_swapped : initial.Redirected mixed swapped := by
  refine ⟨⟨0, rfl, ?_⟩, ⟨1, rfl, ?_⟩, ⟨0, rfl, ?_⟩, ⟨2, rfl, ?_⟩, ⟨0, rfl, ?_⟩, ⟨0, rfl, ?_⟩,
    ⟨1, rfl, ?_⟩, trivial⟩
  all_goals rintro h ⟨⟩ <;> rfl

theorem stores_separate_mixed :
    (initial.tasks 1 .contexts moved = initial.tasks 0 .contexts mixed ∧
      initial.results 1 .contexts moved = initial.results 0 .contexts mixed) ∧
    initial.results 0 .contexts kept = initial.results 0 .contexts mixed ∧
    initial.Redirected mixed swapped ∧ initial.run swapped = initial.run mixed := by
  obtain ⟨hsame, ⟨honly, -⟩, hredirected⟩ := stores_separate 0 .contexts mixed
  rw [only_mixed] at honly
  exact ⟨⟨tasks_moved, (hsame 1 moved tasks_moved).1⟩, honly, redirected_swapped,
    hredirected swapped redirected_swapped⟩

end World
end PipelineCache

import PipelineCache.World
import PipelineCache.Proofs.Cache.Touch

/-! Histories of several caches over one file system. What stands under a key depends on the steps
that touch that key of that store of that cache, and on no others. -/
namespace PipelineCache

theorem Cache.stored?_empty (s : Shelf) (k : s.Key) : Cache.empty.stored? s k = none := by
  cases s <;> rfl

theorem Cache.stored?_sweep (c : Cache) (fs : Files) (order : List Orb) (s : Shelf) (k : s.Key) :
    (c.sweep fs order).state.1.stored? s k = c.stored? s k := by
  cases s <;> rfl

theorem Cache.stored?_teardown (c : Cache) (fs : Files) (order : List Orb) (s : Shelf)
    (k : s.Key) : (c.teardown fs order).state.1.stored? s k =
      Touch.after (Shelf.orbs.only (fun _ => some .remove) s k) (c.stored? s k) := by
  cases s <;> rfl

namespace World

/-- Every handle leads to a cache. -/
def Linked (w : World) : Prop := ∀ i ∈ w.handles, i < w.caches.length

/-- The entry under a key of one of the stores of the cache with a number. -/
def stored? (w : World) (i : Nat) (s : Shelf) (k : s.Key) : Option s.Record :=
  w.caches[i]?.bind (·.stored? s k)

/-- What a step does to that entry. -/
def touch? (w : World) (i : Nat) (s : Shelf) (k : s.Key) : Step → Option (Touch s.Record)
  | .on h op => if w.handles[h]? = some i then op.touch? s k else none
  | .teardown h =>
    if w.handles[h]? = some i then Shelf.orbs.only (fun _ => some .remove) s k else none
  | _ => none

/-- What some steps do to that entry, in their order. -/
def touches (w : World) (i : Nat) (s : Shelf) (k : s.Key) : List Step → List (Touch s.Record)
  | [] => []
  | st :: steps => (w.touch? i s k st).toList ++ touches (w.step st).1 i s k steps

section
variable {w : World}

theorem linked_withCache (hw : w.Linked) (h : Nat) (f : Cache → Outcome (Cache × Files) Reply) :
    (w.withCache h f).1.Linked := by
  unfold withCache setCache
  split
  · exact hw
  · split <;> simpa [Linked] using hw

theorem linked_prepare (hw : w.Linked) (files : Option Files) : (w.prepare files).1.Linked := by
  cases files <;> exact hw

theorem linked_step (hw : w.Linked) (st : Step) : (w.step st).1.Linked := by
  cases st with
  | newCache =>
    intro i hi
    simp only [step, List.mem_append, List.mem_singleton, List.length_append,
      List.length_singleton] at hi ⊢
    obtain hi | rfl := hi
    · exact Nat.lt_succ_of_lt (hw i hi)
    · exact Nat.lt_succ_self _
  | share h =>
    simp only [step]
    split
    · next i hi =>
      intro j hj
      obtain hj | hj := List.mem_append.1 hj
      · exact hw j hj
      · rw [List.mem_singleton.1 hj]
        exact hw i (List.mem_of_getElem? hi)
    · exact hw
  | on h op => exact linked_withCache hw h _
  | sweep h => exact linked_withCache hw h _
  | teardown h => exact linked_withCache hw h _
  | status p => exact hw
  | _ => exact linked_prepare hw _

theorem linked_run (hw : w.Linked) (steps : List Step) : (w.run steps).1.Linked := by
  induction steps generalizing w with
  | nil => exact hw
  | cons st steps ih => exact ih (linked_step hw st)

theorem linked_initial : initial.Linked := by simp [Linked, initial]

theorem exists_cache (hw : w.Linked) {h i : Nat} (hh : w.handles[h]? = some i) :
    ∃ c, w.caches[i]? = some c :=
  ⟨_, List.getElem?_eq_getElem (hw i (List.mem_of_getElem? hh))⟩

theorem stored?_withCache (w : World) (h : Nat) (f : Cache → Outcome (Cache × Files) Reply) (i : Nat)
    (s : Shelf) (k : s.Key) : (w.withCache h f).1.stored? i s k =
      if w.handles[h]? = some i then w.caches[i]?.bind fun c => (f c).state.1.stored? s k
      else w.stored? i s k := by
  cases hh : w.handles[h]? with
  | none => simp [withCache, cache?, hh]
  | some j =>
    cases hc : w.caches[j]? with
    | none =>
      -- A handle that leads nowhere: there is no entry on either side.
      simp only [withCache, cache?, hh, Option.bind_some, hc, Option.some_inj]
      split
      · next he => simp [stored?, ← he, hc]
      · rfl
    | some c =>
      obtain ⟨hj, rfl⟩ := List.getElem?_eq_some_iff.1 hc
      simp only [withCache, cache?, hh, Option.bind_some, hc, Option.some_inj, setCache, stored?]
      by_cases he : j = i
      · subst he
        simp [hj]
      · simp [he]

/-- What is done to the cache behind a handle is done to the entries of that cache alone. -/
theorem touched_withCache (hw : w.Linked) (h : Nat) {f : Cache → Outcome (Cache × Files) Reply}
    {s : Shelf} {k : s.Key} {t : Option (Touch s.Record)}
    (hf : ∀ c, (f c).state.1.stored? s k = Touch.after t (c.stored? s k)) (i : Nat) :
    (w.withCache h f).1.stored? i s k =
      Touch.after (if w.handles[h]? = some i then t else none) (w.stored? i s k) := by
  rw [stored?_withCache]
  split
  · next hh =>
    obtain ⟨c, hc⟩ := exists_cache hw hh
    simp only [stored?, hc, Option.bind_some]
    exact hf c
  · rfl

theorem stored?_prepare (w : World) (files : Option Files) (i : Nat) (s : Shelf) (k : s.Key) :
    (w.prepare files).1.stored? i s k = w.stored? i s k := by
  cases files <;> rfl

/-- A step does to an entry what it is said to do, and nothing else. -/
theorem stored?_step (hw : w.Linked) (st : Step) (i : Nat) (s : Shelf) (k : s.Key) :
    (w.step st).1.stored? i s k = Touch.after (w.touch? i s k st) (w.stored? i s k) := by
  cases st with
  | on h op => exact touched_withCache hw h (fun c => c.stored?_perform op s k) i
  | teardown h =>
    exact touched_withCache hw h (fun c => c.stored?_teardown w.files c.orbs.table.values s k) i
  | sweep h =>
    have hf (c : Cache) := c.stored?_sweep w.files c.orbs.table.values s k
    refine (touched_withCache hw h (t := none) hf i).trans ?_
    split <;> rfl
  | newCache =>
    simp only [step, stored?, touch?, Touch.after, List.getElem?_append]
    split
    · rfl
    · next hi =>
      rw [List.getElem?_eq_none (Nat.not_lt.1 hi), List.getElem?_singleton]
      split
      · exact Cache.stored?_empty s k
      · rfl
  | share h =>
    simp only [step]
    split <;> rfl
  | status p => rfl
  | _ => exact w.stored?_prepare _ i s k

theorem reply_withCache {h i : Nat} {c : Cache} (hh : w.handles[h]? = some i)
    (hc : w.caches[i]? = some c) (f : Cache → Outcome (Cache × Files) Reply) :
    (w.withCache h f).2.1 = (f c).answer.getD .crashed := by
  simp [withCache, cache?, hh, hc]

theorem answer_of_reply {answer : Option Cache.Answer} {a : Cache.Answer}
    (h : (answer.map Reply.answer).getD .crashed = .answer a) : answer = some a := by
  cases answer with
  | none => cases h
  | some b => exact congrArg some (Reply.answer.inj h)

theorem reply_on {h i : Nat} {c : Cache} (hh : w.handles[h]? = some i) (hc : w.caches[i]? = some c)
    (op : Cache.Op) : (w.step (.on h op)).2.1 =
      ((c.perform op).answer.map .answer).getD .crashed :=
  reply_withCache hh hc _

/-- A step that misses an entry changes none. -/
theorem stored?_step_of_missing (hw : w.Linked) {st : Step} {m : MissingEntry}
    (hm : (w.step st).2.1 = .answer (.missing m)) (i : Nat) (s : Shelf) (k : s.Key) :
    (w.step st).1.stored? i s k = w.stored? i s k := by
  cases st with
  | on h op =>
    rw [step, stored?_withCache]
    split
    · next hh =>
      obtain ⟨c, hc⟩ := exists_cache hw hh
      rw [reply_on hh hc] at hm
      simp only [stored?, hc, Option.bind_some]
      exact Cache.stored?_perform_of_missing (answer_of_reply hm) s k
    · rfl
  | teardown h =>
    by_cases hh : w.handles[h]? = some i
    · obtain ⟨c, hc⟩ := exists_cache hw hh
      rw [step, reply_withCache hh hc] at hm
      cases hm
    · rw [stored?_step hw, touch?, if_neg hh]
      rfl
  | _ => exact stored?_step hw _ i s k

/-- After some steps an entry is what the touches among them make of it. -/
theorem stored?_run (hw : w.Linked) (steps : List Step) (i : Nat) (s : Shelf) (k : s.Key) :
    (w.run steps).1.stored? i s k = Touch.applyAll (w.touches i s k steps) (w.stored? i s k) := by
  induction steps generalizing w with
  | nil => rfl
  | cons st steps ih =>
    have ih := ih (linked_step hw st)
    rw [stored?_step hw] at ih
    rw [run, touches, Touch.applyAll, List.foldl_append, ih]
    cases w.touch? i s k st <;> rfl

theorem stored?_initial (i : Nat) (s : Shelf) (k : s.Key) : initial.stored? i s k = none := by
  cases i with
  | zero => exact Cache.stored?_empty s k
  | succ i => rfl

/-- What stands under a key, as any handle of the cache shows it. -/
theorem reply_get? (hw : w.Linked) {h i : Nat} (hh : w.handles[h]? = some i) (s : Shelf)
    (k : s.Key) :
    (w.step (.on h (.on s (.get? k)))).2.1 = .answer (.on s (.found (w.stored? i s k))) ∧
      (w.step (.on h (.on s (.contains k)))).2.1 =
        .answer (.on s (.flag (w.stored? i s k).isSome)) := by
  obtain ⟨c, hc⟩ := exists_cache hw hh
  rw [reply_on hh hc, reply_on hh hc, stored?, hc, Cache.answer_get?]
  exact ⟨rfl, rfl⟩

end

/-- What `get?` and `contains` tell of a key after any history is what the touches of that key come
to: nothing where no set follows the last removal, and else what was set last with the later edits
in their order. Steps that do not touch the key, or that miss an entry, change nothing under it. -/
theorem last_write_wins (steps : List Step) (h i : Nat) (s : Shelf) (k : s.Key)
    (hh : (initial.run steps).1.handles[h]? = some i) :
    let w := (initial.run steps).1
    let touches := initial.touches i s k steps
    (∃ entry, Touch.Settles touches entry ∧
      (∀ other, Touch.Settles touches other → other = entry) ∧
      (w.step (.on h (.on s (.get? k)))).2.1 = .answer (.on s (.found entry)) ∧
      (w.step (.on h (.on s (.contains k)))).2.1 = .answer (.on s (.flag entry.isSome))) ∧
    ∀ st, (w.touch? i s k st = none ∨ ∃ m, (w.step st).2.1 = .answer (.missing m)) →
      (w.step st).1.stored? i s k = w.stored? i s k := by
  intro w touches
  have hw : w.Linked := linked_run linked_initial steps
  have hentry : w.stored? i s k = Touch.applyAll touches none := by
    rw [stored?_run linked_initial, stored?_initial]
  constructor
  · obtain ⟨hget, hcontains⟩ := reply_get? hw hh s k
    rw [hentry] at hget hcontains
    exact ⟨_, Touch.settles_applyAll touches, fun _ ho => ho.eq_applyAll, hget, hcontains⟩
  · rintro st (ht | ⟨m, hm⟩)
    · rw [stored?_step hw, ht]
      rfl
    · exact stored?_step_of_missing hw hm i s k

/-- A context that is filed, taken away, missed once, and filed again, with a variable added later,
while a namesake comes into another cache. -/
def refiled : List Step :=
  [.share 0, .on 0 (.fileContext (.extend (.named "deploy") ["A", "B"])),
    .on 1 (.on .contexts (.erase "deploy")), .on 0 (.addContextVariable "deploy" "C"),
    .on 0 (.on .contexts (.insert "deploy" (.extend (.named "other") ["D"]))), .newCache,
    .on 2 (.fileContext (.named "deploy")), .on 1 (.addContextVariable "deploy" "E"),
    .on 1 (.addContextVariable "other" "F")]

theorem last_write_wins_refiled :
    let w := (initial.run refiled).1
    w.handles[1]? = some 0 ∧
      (w.step (.on 1 (.on .contexts (.get? "deploy")))).2.1 =
        .answer (.on .contexts (.found (some (.extend (.named "other") ["D", "E"])))) := by
  intro w
  have hh : w.handles[1]? = some 0 := rfl
  obtain ⟨⟨entry, -, hentry, hget, -⟩, -⟩ := last_write_wins refiled 1 0 .contexts "deploy" hh
  have hset : Touch.Settles (initial.touches 0 .contexts "deploy" refiled)
      (some (.extend (.named "other") ["D", "E"])) :=
    .set
      [.set (Context.extend (.named "deploy") ["A", "B"]), .remove,
        .edit fun c => { c with vars := c.vars.insert "C" }]
      (Context.extend (.named "other") ["D"]) [fun c => { c with vars := c.vars.insert "E" }]
  exact ⟨hh, hentry _ hset ▸ hget⟩

end World
end PipelineCache

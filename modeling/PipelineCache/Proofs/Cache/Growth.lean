import PipelineCache.Proofs.Cache.History
import PipelineCache.Proofs.Store.Race

/-! Variables only grow. While the record under a key is not set or removed, its variables keep their
order, and the names that were answered to be new come behind them. -/
namespace PipelineCache

/-- The variables of a record, where its kind has any. -/
def Shelf.vars? : (s : Shelf) → s.Record → Option Variables
  | contexts, c => some c.vars
  | projects, p => some p.vars
  | documents, _ => none
  | orbs, _ => none
  | images, _ => none

/-- The name that an operation adds to the variables under a key. -/
def Cache.Op.called? : (s : Shelf) → s.Key → Cache.Op → Option String
  | .contexts, k, .addContextVariable key name => if key = k then some name else none
  | .projects, k, .addProjectVariable key name => if key = k then some name else none
  | _, _, _ => none

namespace Variables

theorem insertAll_append (v : Variables) (names others : List String) :
    v.insertAll (names ++ others) = (v.insertAll names).insertAll others :=
  List.foldl_append

theorem ofList_names (v : Variables) : ofList v.names = v :=
  ext ((names_ofList v.names).trans (eraseDups_of_nodup v.nodup))

theorem fresh_append (v : Variables) (names others : List String) :
    v.fresh (names ++ others) = v.fresh names ++ (v.insertAll names).fresh others := by
  apply (List.append_right_inj v.names).1
  rw [← names_insertAll_fresh, insertAll_append, names_insertAll_fresh, names_insertAll_fresh,
    List.append_assoc]

theorem fresh_toList (v : Variables) (name : Option String) :
    v.fresh name.toList = (name.filter fun name => !v.contains name).toList := by
  cases name with
  | none => rfl
  | some name =>
    by_cases h : name ∈ v.names <;>
      simp [fresh, contains, h, Option.filter, List.eraseDups_cons]

end Variables

/-- Whether a reply tells that a name was new. -/
def Reply.isTrue : Reply → Bool
  | .answer (.on _ (.flag value)) => value
  | _ => false

theorem Shelf.exists_of_only {shelf s : Shelf} {touch? : shelf.Key → Option (Touch shelf.Record)}
    {k : s.Key} {change : s.Record → s.Record} (h : shelf.only touch? s k = some (.edit change)) :
    ∃ k change, touch? k = some (.edit change) := by
  by_cases hs : shelf = s
  · subst hs
    exact ⟨k, change, by simpa [only] using h⟩
  · simp [only, hs] at h

theorem Touch.under_edit {κ α : Type} [DecidableEq κ] {key k : κ} {f change : α → α}
    (h : Touch.under key (.edit f) k = some (.edit change)) : key = k ∧ change = f := by
  by_cases hk : key = k
  · simp only [under, hk, if_true, Option.some.injEq, edit.injEq] at h
    exact ⟨hk, h.symm⟩
  · simp [under, hk] at h

theorem Touch.ne_of_under_eq_none {κ α : Type} [DecidableEq κ] {key k : κ} {t : Touch α}
    (h : Touch.under key t k = none) : key ≠ k := by
  rintro rfl
  simp [under] at h

theorem Store.Op.touch?_ne_edit {κ α : Type} [DecidableEq κ] (op : Store.Op κ α) (k : κ)
    (change : α → α) : op.touch? k ≠ some (.edit change) := by
  cases op <;> simp [touch?, Touch.under]

namespace Cache

theorem vars?_of_edit {op : Op} {s : Shelf} {k : s.Key} {change : s.Record → s.Record}
    (h : op.touch? s k = some (.edit change)) (r : s.Record) :
    s.vars? (change r) = (s.vars? r).map fun v => v.insertAll (op.called? s k).toList := by
  cases op with
  | addContextVariable key name =>
    cases s with
    | contexts =>
      obtain ⟨rfl, rfl⟩ := Touch.under_edit h
      simp [Shelf.vars?, Op.called?, Variables.insertAll]
    | _ => cases h
  | addProjectVariable key name =>
    cases s with
    | projects =>
      obtain ⟨rfl, rfl⟩ := Touch.under_edit h
      simp [Shelf.vars?, Op.called?, Variables.insertAll]
    | _ => cases h
  | attach id i =>
    cases s with
    | orbs => rfl
    | _ => cases h
  | on shelf op =>
    obtain ⟨k, change, h⟩ := Shelf.exists_of_only h
    exact absurd h (op.touch?_ne_edit k change)
  | describe wide => cases h
  | _ =>
    obtain ⟨k, change, h⟩ := Shelf.exists_of_only h
    simp [Touch.under] at h

theorem called?_of_untouched {op : Op} {s : Shelf} {k : s.Key} (h : op.touch? s k = none) :
    op.called? s k = none := by
  cases op with
  | addContextVariable key name =>
    cases s with
    | contexts => exact if_neg (Touch.ne_of_under_eq_none h)
    | _ => rfl
  | addProjectVariable key name =>
    cases s with
    | projects => exact if_neg (Touch.ne_of_under_eq_none h)
    | _ => rfl
  | _ => cases s <;> rfl

def variables? (c : Cache) (s : Shelf) (k : s.Key) : Option Variables :=
  (c.stored? s k).bind s.vars?

/-- A call that adds a name tells whether it was new. -/
theorem isTrue_of_called {op : Op} {s : Shelf} {k : s.Key} {name : String}
    (h : op.called? s k = some name) (c : Cache) :
    (((c.perform op).answer.map Reply.answer).getD .crashed).isTrue =
      (c.variables? s k).any fun v => !v.contains name := by
  cases op with
  | addContextVariable key name =>
    cases s with
    | contexts =>
      obtain ⟨rfl, he⟩ := Option.ite_none_right_eq_some.1 h
      cases he
      simp only [perform, Outcome.map, on, Store.answer_addVariable, variables?, stored?, store]
      cases c.contexts.table.get? key <;> rfl
    | _ => cases h
  | addProjectVariable key name =>
    cases s with
    | projects =>
      obtain ⟨rfl, he⟩ := Option.ite_none_right_eq_some.1 h
      cases he
      simp only [perform, Outcome.map, on, Store.answer_addVariable, variables?, stored?, store]
      cases c.projects.table.get? key <;> rfl
    | _ => cases h
  | _ => cases s <;> cases h

end Cache

namespace World

/-- The variables under a key of one of the stores of the cache with a number. -/
def variables? (w : World) (i : Nat) (s : Shelf) (k : s.Key) : Option Variables :=
  (w.stored? i s k).bind s.vars?

/-- The name that a step adds to those variables. -/
def called? (w : World) (i : Nat) (s : Shelf) (k : s.Key) : Step → Option String
  | .on h op => if w.handles[h]? = some i then op.called? s k else none
  | _ => none

/-- What a step makes of the names that the record under a key was given, repeats and all. -/
def give (w : World) (i : Nat) (s : Shelf) (k : s.Key) (st : Step) (names : Option (List String)) :
    Option (List String) :=
  match w.touch? i s k st with
  | some (.set r) => (s.vars? r).map Variables.names
  | some .remove => none
  | _ => names.map fun names => names ++ (w.called? i s k st).toList

/-- The names that the record under a key has been given after some steps. -/
def given (w : World) (i : Nat) (s : Shelf) (k : s.Key) (names : Option (List String)) :
    List Step → Option (List String)
  | [] => names
  | st :: steps => given (w.step st).1 i s k (w.give i s k st names) steps

/-- The names that some steps add to those variables, in their order. -/
def calls (w : World) (i : Nat) (s : Shelf) (k : s.Key) : List Step → List String
  | [] => []
  | st :: steps => (w.called? i s k st).toList ++ calls (w.step st).1 i s k steps

/-- The names among them that were answered to be new. -/
def additions (w : World) (i : Nat) (s : Shelf) (k : s.Key) : List Step → List String
  | [] => []
  | st :: steps =>
    ((w.called? i s k st).filter fun _ => (w.step st).2.1.isTrue).toList ++
      additions (w.step st).1 i s k steps

section
variable {w : World} (hw : w.Linked) {i : Nat} {s : Shelf} {k : s.Key} {st : Step}

include hw in
theorem isTrue_step {name : String} (h : w.called? i s k st = some name) :
    (w.step st).2.1.isTrue = (w.variables? i s k).any fun v => !v.contains name := by
  cases st with
  | on handle op =>
    simp only [called?] at h
    split at h
    · next hh =>
      obtain ⟨c, hc⟩ := exists_cache hw hh
      rw [reply_on hh hc, Cache.isTrue_of_called h, variables?, stored?, hc]
      rfl
    · cases h
  | _ => cases h

theorem called?_of_untouched (h : w.touch? i s k st = none) : w.called? i s k st = none := by
  cases st with
  | on handle op =>
    simp only [touch?, called?] at h ⊢
    split at h
    · next hh => rw [if_pos hh, Cache.called?_of_untouched h]
    · next hh => rw [if_neg hh]
  | _ => rfl

theorem vars?_of_edit {change : s.Record → s.Record} (h : w.touch? i s k st = some (.edit change))
    (r : s.Record) :
    s.vars? (change r) = (s.vars? r).map fun v => v.insertAll (w.called? i s k st).toList := by
  cases st with
  | on handle op =>
    simp only [touch?, called?] at h ⊢
    split at h
    · next hh => rw [if_pos hh, Cache.vars?_of_edit h]
    · cases h
  | teardown handle =>
    simp only [touch?] at h
    split at h
    · obtain ⟨k, change, h⟩ := Shelf.exists_of_only h
      cases h
    · cases h
  | _ => cases h

include hw in
theorem variables?_step : (w.step st).1.variables? i s k =
    match w.touch? i s k st with
    | some (.set r) => s.vars? r
    | some .remove => none
    | _ => (w.variables? i s k).map fun v => v.insertAll (w.called? i s k st).toList := by
  rw [variables?, variables?, stored?_step hw]
  cases ht : w.touch? i s k st with
  | none =>
    rw [called?_of_untouched ht]
    exact Option.map_id'.symm
  | some t =>
    cases t with
    | set r => rfl
    | remove => rfl
    | edit change =>
      rw [Touch.after, Touch.apply]
      cases w.stored? i s k with
      | none => rfl
      | some r => exact vars?_of_edit ht r

include hw in
/-- A record holds each name that it was given once. -/
theorem variables?_give {names : Option (List String)}
    (h : w.variables? i s k = names.map .ofList) :
    (w.step st).1.variables? i s k = (w.give i s k st names).map .ofList := by
  have added : ((w.variables? i s k).map fun v => v.insertAll (w.called? i s k st).toList) =
      (names.map fun names => names ++ (w.called? i s k st).toList).map .ofList := by
    rw [h, Option.map_map, Option.map_map]
    exact congrArg (names.map ·) (funext fun names => (Variables.insertAll_append _ names _).symm)
  rw [variables?_step hw, give]
  cases w.touch? i s k st with
  | none => exact added
  | some t =>
    cases t with
    | set r =>
      change s.vars? r = ((s.vars? r).map Variables.names).map .ofList
      rw [Option.map_map]
      exact (Option.map_id'.symm.trans (congrArg ((s.vars? r).map ·)
        (funext fun v => v.ofList_names.symm)))
    | remove => rfl
    | edit change => exact added

include hw in
theorem variables?_given {names : Option (List String)}
    (h : w.variables? i s k = names.map .ofList) (steps : List Step) :
    (w.run steps).1.variables? i s k = (w.given i s k names steps).map .ofList := by
  induction steps generalizing w names with
  | nil => exact h
  | cons st steps ih => exact ih (linked_step hw st) (variables?_give hw h)

include hw in
/-- A step that at most edits a record adds the name that it calls to the record's variables. -/
theorem variables?_edit (h : ∀ t ∈ w.touch? i s k st, ∃ change, t = .edit change) :
    (w.step st).1.variables? i s k =
      (w.variables? i s k).map fun v => v.insertAll (w.called? i s k st).toList := by
  rw [variables?_step hw]
  cases ht : w.touch? i s k st with
  | none => rfl
  | some t =>
    obtain ⟨change, rfl⟩ := h t ht
    rfl

include hw in
/-- While a record is at most edited, the names that are called come to its variables. -/
theorem variables?_run {steps : List Step}
    (h : ∀ t ∈ w.touches i s k steps, ∃ change, t = .edit change) :
    (w.run steps).1.variables? i s k =
      (w.variables? i s k).map fun v => v.insertAll (w.calls i s k steps) := by
  induction steps generalizing w with
  | nil => exact Option.map_id'.symm
  | cons st steps ih =>
    obtain ⟨hst, hsteps⟩ := List.forall_mem_append.1 h
    simp only [run, ih (linked_step hw st) hsteps,
      variables?_edit hw fun t ht => hst t (Option.mem_toList.2 ht), Option.map_map, calls,
      Variables.insertAll_append]
    rfl

include hw in
/-- Of the names that are called, those that are new are answered to be. -/
theorem additions_eq {steps : List Step}
    (h : ∀ t ∈ w.touches i s k steps, ∃ change, t = .edit change) :
    w.additions i s k steps =
      (w.variables? i s k).elim [] fun v => v.fresh (w.calls i s k steps) := by
  induction steps generalizing w with
  | nil => cases w.variables? i s k <;> rfl
  | cons st steps ih =>
    obtain ⟨hst, hsteps⟩ := List.forall_mem_append.1 h
    have hreply : ((w.called? i s k st).filter fun _ => (w.step st).2.1.isTrue) =
        (w.called? i s k st).filter fun name =>
          (w.variables? i s k).any fun v => !v.contains name := by
      cases hc : w.called? i s k st with
      | none => rfl
      | some name => simp only [Option.filter, isTrue_step hw hc]
    rw [additions, calls, hreply, ih (linked_step hw st) hsteps,
      variables?_edit hw fun t ht => hst t (Option.mem_toList.2 ht)]
    cases w.variables? i s k with
    | none => cases w.called? i s k st <;> rfl
    | some v =>
      simp only [Option.map_some, Option.elim_some, Option.any_some, Variables.fresh_append,
        Variables.fresh_toList]

end

/-- After any history, no list of variables in a context or a project has a repeat: the list under a
key, as every handle of the cache shows it, has each name once that the record was set with or that
was called since. From then on, while the record is not set or removed, its list grows by the names
whose calls are answered with true, in the order of the calls; they are the first occurrences behind
the old list. -/
theorem variables_grow (before between : List Step) :
    let w := (initial.run before).1
    (∀ c ∈ w.caches, (∀ r ∈ c.contexts.table.values, r.vars.names.Nodup) ∧
      ∀ r ∈ c.projects.table.values, r.vars.names.Nodup) ∧
    ∀ (i : Nat) (s : Shelf) (k : s.Key),
      (w.variables? i s k).map Variables.names =
        (initial.given i s k none before).map List.eraseDups ∧
      (∀ h, w.handles[h]? = some i → ∃ entry : Option s.Record,
        (w.step (.on h (.on s (.get? k)))).2.1 = .answer (.on s (.found entry)) ∧
          entry.bind s.vars? = w.variables? i s k) ∧
      ((∀ t ∈ w.touches i s k between, ∃ change, t = .edit change) →
      let w' := (w.run between).1
      (w.variables? i s k = none → w'.variables? i s k = none ∧ w.additions i s k between = []) ∧
      ∀ v, w.variables? i s k = some v → ∃ v', w'.variables? i s k = some v' ∧
        v'.names = v.names ++ w.additions i s k between ∧
        v'.names = (v.names ++ w.calls i s k between).eraseDups) := by
  intro w
  have hw : w.Linked := linked_run linked_initial before
  refine ⟨fun c _ => ⟨fun r _ => r.vars.nodup, fun r _ => r.vars.nodup⟩, fun i s k =>
    ⟨?_, fun h hh => ⟨_, (reply_get? hw hh s k).1, rfl⟩, fun h => ⟨?_, ?_⟩⟩⟩
  · have hnone : initial.variables? i s k = (none : Option (List String)).map .ofList := by
      rw [variables?, stored?_initial]
      rfl
    rw [variables?_given linked_initial hnone before, Option.map_map]
    exact congrArg ((initial.given i s k none before).map ·) (funext Variables.names_ofList)
  · intro hv
    rw [variables?_run hw h, additions_eq hw h, hv]
    exact ⟨rfl, rfl⟩
  · intro v hv
    rw [variables?_run hw h, additions_eq hw h, hv]
    exact ⟨_, rfl, v.names_insertAll_fresh _, v.names_insertAll _⟩

def filed : List Step := [.share 0, .on 0 (.fileContext (.extend (.named "deploy") ["A", "A"]))]

/-- Two names come to a context and one comes again, while a namesake in another cache is called and
other entries are taken away. -/
def extended : List Step :=
  [.on 1 (.addContextVariable "deploy" "B"), .on 0 (.addContextVariable "deploy" "A"), .newCache,
    .on 2 (.addContextVariable "deploy" "D"), .on 0 (.on .contexts (.erase "other")),
    .on 1 (.on .projects .clear), .on 0 (.addContextVariable "deploy" "C")]

theorem touches_extended : (initial.run filed).1.touches 0 .contexts "deploy" extended =
    [.edit fun c => { c with vars := c.vars.insert "B" },
      .edit fun c => { c with vars := c.vars.insert "A" },
      .edit fun c => { c with vars := c.vars.insert "C" }] := rfl

theorem additions_extended :
    (initial.run filed).1.additions 0 .contexts "deploy" extended = ["B", "C"] := rfl

theorem stored_filed : ∃ c ∈ (initial.run filed).1.caches,
    Context.extend (.named "deploy") ["A", "A"] ∈ c.contexts.table.values :=
  ⟨_, List.mem_cons_self, List.mem_cons_self⟩

theorem variables?_filed :
    (initial.run filed).1.variables? 0 .contexts "deploy" = some (.ofList ["A"]) := rfl

theorem variables_grow_extended :
    let w := (initial.run filed).1
    (∃ c ∈ w.caches, ∃ r ∈ c.contexts.table.values, r.vars.names.Nodup) ∧
      (∀ t ∈ w.touches 0 .contexts "deploy" extended, ∃ change, t = .edit change) ∧
      ∃ v', (w.run extended).1.variables? 0 .contexts "deploy" = some v' ∧
        v'.names = ["A", "B", "C"] := by
  intro w
  have hedits : ∀ t ∈ w.touches 0 .contexts "deploy" extended, ∃ change, t = .edit change := by
    rw [touches_extended]
    simp
  obtain ⟨hnodup, hgrow⟩ := variables_grow filed extended
  obtain ⟨c, hc, hr⟩ := stored_filed
  obtain ⟨-, -, hlater⟩ := hgrow 0 .contexts "deploy"
  obtain ⟨v', hv', hnames, -⟩ := (hlater hedits).2 _ variables?_filed
  rw [additions_extended] at hnames
  exact ⟨⟨c, hc, _, hr, (hnodup c hc).1 _ hr⟩, hedits, v', hv', hnames⟩

end World
end PipelineCache

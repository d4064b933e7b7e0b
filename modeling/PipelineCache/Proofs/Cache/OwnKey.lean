import PipelineCache.Proofs.Cache.History
import PipelineCache.Proofs.Cache.Views

/-! Entries under their own keys. While callers choose no keys in a store, each of its records
stands under the key that it bears itself, whatever is changed in its place, taken away, or renamed
and filed again. An image shows the last of its checks. -/
namespace PipelineCache
variable {α : Type}

/-- What a touch leaves has the property, if what it finds has it. -/
def Touch.Keeps (P : α → Prop) : Touch α → Prop
  | set v => P v
  | remove => True
  | edit change => ∀ r, P r → P (change r)

theorem Touch.Keeps.after {P : α → Prop} {t : Option (Touch α)} (h : ∀ t' ∈ t, t'.Keeps P)
    {entry : Option α} (he : ∀ r ∈ entry, P r) : ∀ r ∈ Touch.after t entry, P r := by
  intro r hr
  cases t with
  | none => exact he r hr
  | some t =>
    have ht := h t rfl
    cases t with
    | set v =>
      cases hr
      exact ht
    | remove => cases hr
    | edit change =>
      obtain ⟨v, hv, rfl⟩ := Option.map_eq_some_iff.1 hr
      exact ht v (he v hv)

namespace Shelf

/-- The key that a record bears itself, where its kind has one. -/
def ownKey? : (s : Shelf) → s.Record → Option s.Key
  | documents, d => some d.uri
  | contexts, c => some c.name
  | projects, p => some p.slug
  | orbs, _ => none
  | images, _ => none

/-- The record bears no other key than this one. -/
def Bears (s : Shelf) (k : s.Key) (r : s.Record) : Prop := ∀ own ∈ s.ownKey? r, own = k

theorem bears_of_ownKey? {s : Shelf} {k : s.Key} {r : s.Record} (h : s.ownKey? r = some k) :
    s.Bears k r :=
  fun _ hown => Option.some.inj (hown.symm.trans h)

/-- A touch of one key of one shelf keeps the keys of all records, if it does of those there. -/
theorem keeps_bears_only (shelf : Shelf) (key : shelf.Key) (t : Touch shelf.Record)
    (h : t.Keeps (shelf.Bears key)) (s : Shelf) (k : s.Key) :
    ∀ t' ∈ shelf.only (Touch.under key t) s k, t'.Keeps (s.Bears k) := by
  intro t' ht
  by_cases hs : shelf = s
  · subst hs
    rw [only_self] at ht
    obtain ⟨hk, he⟩ := Option.ite_none_right_eq_some.1 ht
    subst hk
    cases he
    exact h
  · rw [only, dif_neg hs] at ht
    cases ht

end Shelf

namespace Cache

/-- Whether the caller of an operation chooses the key of the record that it sets in a store. -/
def Op.choosesKey (s : Shelf) : Op → Bool
  | .on shelf (.insert _ _) => shelf = s
  | _ => false

/-- What an operation notes of the image with a name. -/
def Op.noted? (name : String) : Op → Option Bool
  | .noteImage image found => if image = name then some found else none
  | _ => none

/-- An operation that takes no key from its caller sets a record under the key that the record
bears, and what it changes in a record's place is not the key. -/
theorem Op.keeps_bears {op : Op} {s : Shelf} (hop : op.choosesKey s = false) (k : s.Key) :
    ∀ t ∈ op.touch? s k, t.Keeps (s.Bears k) := by
  cases op with
  | on shelf op =>
    by_cases hs : shelf = s
    · subst hs
      rw [touch?, Shelf.only_self]
      -- Of the operations of the store itself only a set brings a record.
      cases op with
      | insert key v => simp [choosesKey] at hop
      | erase key =>
        intro t ht
        obtain ⟨-, he⟩ := Option.ite_none_right_eq_some.1 ht
        cases he
        trivial
      | clear =>
        rintro t ⟨⟩
        trivial
      | _ => rintro t ⟨⟩
    · rw [touch?, Shelf.only, dif_neg hs]
      rintro t ⟨⟩
  | fileDocument d =>
    exact Shelf.keeps_bears_only .documents d.uri (.set d) (Shelf.bears_of_ownKey? rfl) s k
  | fileContext v =>
    exact Shelf.keeps_bears_only .contexts v.name (.set v) (Shelf.bears_of_ownKey? rfl) s k
  | fileProject v =>
    exact Shelf.keeps_bears_only .projects v.slug (.set v) (Shelf.bears_of_ownKey? rfl) s k
  | noteImage name found =>
    refine Shelf.keeps_bears_only .images name (.set (.made found)) ?_ s k
    rintro own ⟨⟩
  | addContextVariable key name =>
    exact Shelf.keeps_bears_only .contexts key
      (.edit fun c => { c with vars := c.vars.insert name }) (fun _ hr => hr) s k
  | addProjectVariable key name =>
    exact Shelf.keeps_bears_only .projects key
      (.edit fun p => { p with vars := p.vars.insert name }) (fun _ hr => hr) s k
  | attach id i =>
    exact Shelf.keeps_bears_only .orbs id (.edit fun o => { o with interface := some i })
      (fun _ hr => hr) s k
  | describe wide => rintro t ⟨⟩

/-- An operation that takes no key from its caller takes an image away, or does to it what it notes.
-/
theorem Op.touch?_images {op : Op} (hop : op.choosesKey .images = false) (name : String) :
    op.touch? .images name = (op.noted? name).map (fun found => .set (.made found)) ∨
      op.touch? .images name = some .remove ∧ op.noted? name = none := by
  cases op with
  | on shelf op =>
    cases shelf with
    | images =>
      cases op with
      | insert key v => simp [choosesKey] at hop
      | erase key =>
        by_cases hk : key = name
        · exact .inr ⟨if_pos hk, rfl⟩
        · exact .inl (if_neg hk)
      | clear => exact .inr ⟨rfl, rfl⟩
      | _ => exact .inl rfl
    | _ => exact .inl rfl
  | noteImage image found =>
    left
    change Touch.under image _ name = _
    rw [noted?, Touch.under]
    split <;> rfl
  | _ => exact .inl rfl

end Cache

namespace World

/-- Whether a step's caller chooses the key of the record that it sets in a store of the cache with
a number. -/
def choosesKey (w : World) (i : Nat) (s : Shelf) : Step → Bool
  | .on h op => if w.handles[h]? = some i then op.choosesKey s else false
  | _ => false

/-- No key is chosen in that store, whatever else is done to it and elsewhere. -/
def NeverChooses (w : World) (i : Nat) (s : Shelf) : List Step → Prop
  | [] => True
  | st :: steps => w.choosesKey i s st = false ∧ (w.step st).1.NeverChooses i s steps

instance decidableNeverChooses (w : World) (i : Nat) (s : Shelf) :
    (steps : List Step) → Decidable (w.NeverChooses i s steps)
  | [] => inferInstanceAs (Decidable True)
  | st :: steps =>
    have := decidableNeverChooses (w.step st).1 i s steps
    inferInstanceAs (Decidable (_ ∧ _))

/-- What a step notes of an image in that cache. -/
def noted? (w : World) (i : Nat) (name : String) : Step → Option Bool
  | .on h op => if w.handles[h]? = some i then op.noted? name else none
  | _ => none

/-- What some steps note of that image, in their order. -/
def notes (w : World) (i : Nat) (name : String) : List Step → List Bool
  | [] => []
  | st :: steps => (w.noted? i name st).toList ++ notes (w.step st).1 i name steps

section
variable {w : World} {i : Nat}

theorem keeps_bears {s : Shelf} {st : Step} (hst : w.choosesKey i s st = false) (k : s.Key) :
    ∀ t ∈ w.touch? i s k st, t.Keeps (s.Bears k) := by
  cases st with
  | on h op =>
    simp only [choosesKey, touch?] at hst ⊢
    split at hst
    · next hh =>
      rw [if_pos hh]
      exact op.keeps_bears hst k
    · next hh =>
      rw [if_neg hh]
      rintro t ⟨⟩
  | teardown h =>
    rw [touch?]
    split
    · cases s with
      | orbs =>
        rintro t ⟨⟩
        trivial
      | _ => rintro t ⟨⟩
    · rintro t ⟨⟩
  | _ => rintro t ⟨⟩

theorem touch?_images {st : Step} (hst : w.choosesKey i .images st = false) (name : String) :
    w.touch? i .images name st =
        (w.noted? i name st).map (fun found => .set (.made found)) ∨
      w.touch? i .images name st = some .remove ∧ w.noted? i name st = none := by
  cases st with
  | on h op =>
    simp only [choosesKey, touch?, noted?] at hst ⊢
    split at hst
    · next hh =>
      simp only [if_pos hh]
      exact Cache.Op.touch?_images hst name
    · next hh =>
      simp only [if_neg hh]
      exact .inl rfl
  | teardown h => exact .inl (ite_self _)
  | _ => exact .inl rfl

variable (hw : w.Linked)
include hw

theorem bears_step {s : Shelf} {k : s.Key} {st : Step} (hst : w.choosesKey i s st = false)
    (h : ∀ r ∈ w.stored? i s k, s.Bears k r) :
    ∀ r ∈ (w.step st).1.stored? i s k, s.Bears k r := by
  rw [stored?_step hw]
  exact Touch.Keeps.after (keeps_bears hst k) h

theorem bears_run {s : Shelf} {k : s.Key} {steps : List Step} (hsteps : w.NeverChooses i s steps)
    (h : ∀ r ∈ w.stored? i s k, s.Bears k r) :
    ∀ r ∈ (w.run steps).1.stored? i s k, s.Bears k r := by
  induction steps generalizing w with
  | nil => exact h
  | cons st steps ih => exact ih (linked_step hw st) hsteps.2 (bears_step hw hsteps.1 h)

/-- An image that shows its last note shows the next one. -/
theorem last_note_step {name : String} {st : Step} (hst : w.choosesKey i .images st = false)
    {last : Option Bool} (h : ∀ r ∈ w.stored? i .images name, last.map .made = some r) :
    ∀ r ∈ (w.step st).1.stored? i .images name,
      ((w.noted? i name st).or last).map .made = some r := by
  rw [stored?_step hw]
  obtain ht | ⟨ht, -⟩ := touch?_images hst name
  · rw [ht]
    cases w.noted? i name st with
    | none => exact h
    | some found => exact fun r hr => hr
  · rw [ht]
    nofun

theorem last_note_run {name : String} {steps : List Step}
    (hsteps : w.NeverChooses i .images steps) {last : Option Bool}
    (h : ∀ r ∈ w.stored? i .images name, last.map .made = some r) :
    ∀ r ∈ (w.run steps).1.stored? i .images name,
      ((w.notes i name steps).getLast?.or last).map .made = some r := by
  -- What was noted last before the run counts where the run itself notes nothing.
  induction steps generalizing w last with
  | nil => exact h
  | cons st steps ih =>
    have hlast : (w.notes i name (st :: steps)).getLast?.or last =
        ((w.step st).1.notes i name steps).getLast?.or ((w.noted? i name st).or last) := by
      rw [notes, List.getLast?_append, Option.or_assoc]
      cases w.noted? i name st <;> rfl
    rw [hlast]
    exact ih (linked_step hw st) hsteps.2 (last_note_step hw hsteps.1 h)

end

section
variable {steps : List Step} {i : Nat} {c : Cache}
  (hc : (initial.run steps).1.caches[i]? = some c)
include hc

theorem stored?_of_mem {s : Shelf} {k : s.Key} {r : s.Record}
    (h : (k, r) ∈ (c.store s).table.entries) : (initial.run steps).1.stored? i s k = some r := by
  have hkeys := kept_run Cache.hasDistinctKeys_kept steps c (List.mem_of_getElem? hc)
  rw [stored?, hc]
  exact (Table.mem_entries_iff (hkeys s)).1 h

theorem bears_of_mem {s : Shelf} (hsteps : initial.NeverChooses i s steps) {k : s.Key}
    {r : s.Record} (h : (k, r) ∈ (c.store s).table.entries) : s.Bears k r := by
  have hnone : ∀ r ∈ initial.stored? i s k, s.Bears k r := by
    rw [stored?_initial]
    nofun
  exact bears_run linked_initial hsteps hnone r (stored?_of_mem hc h)

theorem last_note_of_mem (hsteps : initial.NeverChooses i .images steps) {name : String}
    {v : ImageCheck} (h : (name, v) ∈ c.images.table.entries) :
    ((initial.notes i name steps).getLast?).map .made = some v := by
  have hnone : ∀ v ∈ initial.stored? i .images name, none.map .made = some v := by
    rw [stored?_initial]
    nofun
  have hlast := last_note_run linked_initial hsteps hnone v (stored?_of_mem hc (s := .images) h)
  rwa [Option.or_none] at hlast

end

/-- After any history, in a store in which no caller has chosen a key, each document stands under
its own URI, each context under its own name and each project under its own slug; each image has
been checked, and shows what was found by the last check under its name. -/
theorem own_keys_kept (steps : List Step) (i : Nat) (c : Cache)
    (hc : (initial.run steps).1.caches[i]? = some c) :
    (initial.NeverChooses i .documents steps →
      ∀ e ∈ c.documents.table.entries, e.1 = e.2.uri) ∧
    (initial.NeverChooses i .contexts steps →
      ∀ e ∈ c.contexts.table.entries, e.1 = e.2.name) ∧
    (initial.NeverChooses i .projects steps →
      ∀ e ∈ c.projects.table.entries, e.1 = e.2.slug) ∧
    (initial.NeverChooses i .images steps → ∀ e ∈ c.images.table.entries,
      e.2.checked = true ∧ (initial.notes i e.1 steps).getLast? = some e.2.found) := by
  refine ⟨fun hsteps e he => ?_, fun hsteps e he => ?_, fun hsteps e he => ?_, ?_⟩
  · exact (bears_of_mem hc (s := .documents) hsteps he _ rfl).symm
  · exact (bears_of_mem hc (s := .contexts) hsteps he _ rfl).symm
  · exact (bears_of_mem hc (s := .projects) hsteps he _ rfl).symm
  · rintro hsteps ⟨name, v⟩ he
    obtain ⟨found, hfound, rfl⟩ := Option.map_eq_some_iff.1 (last_note_of_mem hc hsteps he)
    exact ⟨rfl, hfound⟩

/-- A key that a caller chooses may be another than the record's own. -/
example :
    let c := (Cache.empty.perform (.on .contexts (.insert "alias" (.named "deploy")))).state
    ∃ e ∈ c.contexts.table.entries, e.1 ≠ e.2.name :=
  ⟨_, List.mem_cons_self, by decide⟩

/-- A context is given a variable, renamed, filed again and taken away under its old name, while a
document, a project and images come in; keys are chosen for the orbs and in another cache. -/
def renamed : List Step :=
  [.share 0, .on 0 (.fileContext (.extend (.named "deploy") ["A"])),
    .on 1 (.addContextVariable "deploy" "B"),
    .on 1 (.fileContext (.extend (.named "release") ["A", "B"])),
    .on 0 (.on .contexts (.erase "deploy")), .on 0 (.addContextVariable "release" "C"),
    .on 0 (.on .orbs (.insert "go" (.unread "" .empty))), .newCache,
    .on 2 (.on .contexts (.insert "alias" (.named "deploy"))), .on 0 (.noteImage "cimg/go" true),
    .on 1 (.noteImage "cimg/go" false), .on 0 (.noteImage "cimg/rust" true),
    .on 0 (.fileDocument ⟨⟨"a.yml", by decide⟩, "yaml", 1, ""⟩),
    .on 0 (.fileProject (.named "gh/acme/api"))]

theorem stored_renamed : ∃ c, (initial.run renamed).1.caches[0]? = some c ∧
    c.documents.table.size = 1 ∧
    c.contexts.table.values = [.extend (.named "release") ["A", "B", "C"]] ∧
    c.projects.table.values = [.named "gh/acme/api"] ∧
    c.images.table.entries = [("cimg/go", .made false), ("cimg/rust", .made true)] :=
  ⟨_, rfl, rfl, rfl, rfl, rfl⟩

theorem own_keys_kept_renamed :
    ∃ c, (initial.run renamed).1.caches[0]? = some c ∧
      (∀ s ≠ .orbs, initial.NeverChooses 0 s renamed) ∧
      (c.documents.table.size = 1 ∧ ∀ e ∈ c.documents.table.entries, e.1 = e.2.uri) ∧
      (c.contexts.table.values = [.extend (.named "release") ["A", "B", "C"]] ∧
        ∀ e ∈ c.contexts.table.entries, e.1 = e.2.name) ∧
      (c.projects.table.values = [.named "gh/acme/api"] ∧
        ∀ e ∈ c.projects.table.entries, e.1 = e.2.slug) ∧
      (c.images.table.entries = [("cimg/go", .made false), ("cimg/rust", .made true)] ∧
        (initial.notes 0 "cimg/go" renamed).getLast? = some false ∧
        (initial.notes 0 "cimg/rust" renamed).getLast? = some true) := by
  have hnever : ∀ s ≠ .orbs, initial.NeverChooses 0 s renamed := by
    intro s hs
    cases s with
    | orbs => exact absurd rfl hs
    | _ => decide
  obtain ⟨c, hc, documents, contexts, projects, images⟩ := stored_renamed
  obtain ⟨hdocuments, hcontexts, hprojects, himages⟩ := own_keys_kept renamed 0 c hc
  have hnotes := himages (hnever _ nofun)
  rw [images] at hnotes
  exact ⟨c, hc, hnever, ⟨documents, hdocuments (hnever _ nofun)⟩,
    ⟨contexts, hcontexts (hnever _ nofun)⟩, ⟨projects, hprojects (hnever _ nofun)⟩, images,
    (hnotes _ List.mem_cons_self).2, (hnotes _ (List.mem_cons_of_mem _ List.mem_cons_self)).2⟩

end World
end PipelineCache

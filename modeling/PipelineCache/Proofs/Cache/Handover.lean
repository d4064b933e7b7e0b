import PipelineCache.Cache.Teardown
import PipelineCache.Proofs.Files.Removal

/-! One client writes a file and then stores the orb that names it, while another tears the cache
down, turn by turn. The lock keeps the store out of the teardown, but not the file: a removal on
behalf of an orb that was stored before can take it, and then the new orb is kept without it. -/
namespace PipelineCache

/-- An order for the orbs of a teardown. -/
structure Enumeration where
  arrange : List Orb → List Orb
  perm : ∀ orbs, (arrange orbs).Perm orbs

/-- An orb, the path that it names, and the key it is to be stored under. -/
structure Delivery where
  key : String
  orb : Orb
  path : Path
  names : orb.file? = some path

namespace Handover

/-- How far the client with the orb is; it gives up where its write leaves no plain file. -/
inductive Client where
  | writing | storing | done | refused

/-- How far the teardown is. It holds the lock until it is done. -/
inductive Sweeper where
  | waiting
  | removing (left : List Path)
  | done

structure State where
  cache : Cache
  files : Files
  client : Client
  sweeper : Sweeper

inductive Turn where
  | client | sweeper

def start (c : Cache) (fs : Files) : State := ⟨c, fs, .writing, .waiting⟩

section
variable (order : Enumeration) (d : Delivery)

/-- The store waits while the lock is held, the write does not. -/
def moveClient (s : State) : State :=
  match s.client with
  | .writing =>
    match s.files.write d.path with
    | none => { s with client := .refused }
    | some files =>
      { s with files, client := if files.isPlain d.path then .storing else .refused }
  | .storing =>
    match s.sweeper with
    | .removing _ => s
    | _ =>
      { s with
        cache := (s.cache.on .orbs (s.cache.orbs.insert .none d.key d.orb)).state, client := .done }
  | _ => s

def moveSweeper (s : State) : State :=
  match s.sweeper with
  | .waiting =>
    { s with
      cache := s.cache.lockForSweep.1
      sweeper := .removing ((order.arrange s.cache.orbs.table.values).filterMap Orb.file?) }
  -- Look and removal are one turn: a write between them is as good as one before or after both.
  | .removing (q :: left) => { s with files := (s.files.remove q).1, sweeper := .removing left }
  | .removing [] =>
    { s with
      cache := { s.cache with orbs := { s.cache.orbs with table := .empty } }, sweeper := .done }
  | .done => s

def move (s : State) : Turn → State
  | .client => moveClient d s
  | .sweeper => moveSweeper order s

def run (s : State) : List Turn → State
  | [] => s
  | t :: turns => run (move order d s t) turns

theorem run_removing (c : Cache) (client : Client) (left : List Path) (swept : Swept) :
    run order d ⟨c, swept.files, client, .removing left⟩
        (List.replicate (left.length + 1) .sweeper) =
      ⟨{ c with orbs := { c.orbs with table := .empty } }, (left.foldl Swept.step swept).files,
        client, .done⟩ := by
  induction left generalizing swept with
  | nil => rfl
  | cons q left ih =>
    rw [List.length_cons, List.replicate_succ, run, List.foldl_cons]
    exact ih (swept.step q)

/-- Turns of the teardown alone are the teardown as a whole. -/
theorem run_sweeper (c : Cache) (fs : Files) (client : Client) :
    let orbs := order.arrange c.orbs.table.values
    run order d ⟨c, fs, client, .waiting⟩
        (List.replicate ((orbs.filterMap Orb.file?).length + 2) .sweeper) =
      ⟨(c.teardown fs orbs).state.1, (c.teardown fs orbs).state.2, client, .done⟩ := by
  intro orbs
  rw [List.replicate_succ, run]
  exact run_removing order d c.lockForSweep.1 client (orbs.filterMap Orb.file?) ⟨fs, 0, []⟩

/-- The turn is a removal that takes the file between its write and the store. -/
def LosesAt (s : State) : Turn → Prop
  | .client => False
  | .sweeper =>
    match s.client, s.sweeper with
    | .storing, .removing (q :: _) => s.files.Takes q d.path
    | _, _ => False

/-- Some turn loses the file. -/
def Loses (s : State) : List Turn → Prop
  | [] => False
  | t :: turns => LosesAt d s t ∨ Loses (move order d s t) turns

end
end Handover

namespace Delivery
variable (d : Delivery)

def IsStored (c : Cache) : Prop := c.orbs.table.get? d.key = some d.orb

/-- The orb is gone with its file, or is there with it. -/
def Settled (c : Cache) (fs : Files) : Prop :=
  (c.orbs.table.get? d.key = none ∧ fs.status d.path = none) ∨
    (d.IsStored c ∧ fs.status d.path = some .file)

/-- The file is there, unless it is lost. -/
def Kept (lost : Prop) (fs : Files) : Prop :=
  (¬ lost ∧ fs.isPlain d.path) ∨ (lost ∧ fs.status d.path = none)

theorem isStored_insert (c : Cache) :
    d.IsStored (c.on .orbs (c.orbs.insert .none d.key d.orb)).state := by
  simp [IsStored, Cache.on, Cache.put, Store.insert, Store.hold, Store.lock, Crashes.none]

theorem path_mem_sweep {d : Delivery} {c : Cache} (order : Enumeration) (h : d.IsStored c) :
    d.path ∈ (order.arrange c.orbs.table.values).filterMap Orb.file? :=
  List.mem_filterMap.2
    ⟨d.orb, (order.perm _).mem_iff.2 (Table.mem_values_of_get? h), d.names⟩

theorem Kept.remove {d : Delivery} {lost : Prop} {fs : Files} (q : Path) (h : d.Kept lost fs) :
    d.Kept (lost ∨ fs.Takes q d.path) (fs.remove q).1 := by
  obtain ⟨hl, hp⟩ | ⟨hl, hs⟩ := h
  · by_cases ht : fs.Takes q d.path
    · exact .inr ⟨.inr ht, Files.status_remove_of_takes ht⟩
    · exact .inl ⟨not_or.2 ⟨hl, ht⟩, Files.isPlain_remove hp ht⟩
  · exact .inr ⟨.inl hl, Files.status_remove_none q hs⟩

/-- A stored orb's file is taken at its own turn at the latest. -/
theorem remove_stored {d : Delivery} {fs : Files} {q : Path} {left : List Path}
    (h : (fs.isPlain d.path ∧ d.path ∈ q :: left) ∨ fs.status d.path = none) :
    ((fs.remove q).1.isPlain d.path ∧ d.path ∈ left) ∨ (fs.remove q).1.status d.path = none := by
  obtain ⟨hp, hm⟩ | hs := h
  · by_cases ht : fs.Takes q d.path
    · exact .inr (Files.status_remove_of_takes ht)
    · obtain rfl | hm := List.mem_cons.1 hm
      · exact absurd (Files.takes_self hp) ht
      · exact .inl ⟨Files.isPlain_remove hp ht, hm⟩
  · exact .inr (Files.status_remove_none q hs)

end Delivery

namespace Handover
section
variable {order : Enumeration} {d : Delivery}

/-- What holds after some turns, of which one has lost the file or not. -/
def Invariant (d : Delivery) (lost : Prop) (s : State) : Prop :=
  match s.client, s.sweeper with
  | .refused, _ => True
  | .writing, _ => ¬ lost
  | .storing, .waiting => ¬ lost ∧ s.files.isPlain d.path
  | .storing, _ => d.Kept lost s.files
  | .done, .waiting => ¬ lost ∧ d.IsStored s.cache ∧ s.files.isPlain d.path
  | .done, .removing left =>
    ¬ lost ∧ d.IsStored s.cache ∧
      ((s.files.isPlain d.path ∧ d.path ∈ left) ∨ s.files.status d.path = none)
  | .done, .done =>
    (¬ lost ∧ s.cache.orbs.table.get? d.key = none ∧ s.files.status d.path = none) ∨
      (d.IsStored s.cache ∧ d.Kept lost s.files)

theorem invariant_moveClient {lost : Prop} {s : State} (h : Invariant d lost s) :
    Invariant d lost (moveClient d s) := by
  obtain ⟨c, fs, client, sweeper⟩ := s
  cases client with
  | writing =>
    simp only [moveClient]
    cases hw : fs.write d.path with
    | none => trivial
    | some files =>
      by_cases hp : files.isPlain d.path
      · simp only [hp, if_true]
        cases sweeper with
        | waiting => exact ⟨h, hp⟩
        | removing left => exact .inl ⟨h, hp⟩
        | done => exact .inl ⟨h, hp⟩
      · simp only [hp]
        trivial
  | storing =>
    cases sweeper with
    | waiting => exact ⟨h.1, d.isStored_insert c, h.2⟩
    | removing left => exact h
    | done => exact .inr ⟨d.isStored_insert c, h⟩
  | done => exact h
  | refused => trivial

theorem invariant_or_false {lost : Prop} {s : State} (h : Invariant d lost s) :
    Invariant d (lost ∨ False) s := by
  rwa [or_false]

theorem invariant_moveSweeper {lost : Prop} {s : State} (h : Invariant d lost s) :
    Invariant d (lost ∨ LosesAt d s .sweeper) (moveSweeper order s) := by
  obtain ⟨c, fs, client, sweeper⟩ := s
  cases client with
  | writing =>
    have hl : ¬ (lost ∨ False) := not_or.2 ⟨h, id⟩
    cases sweeper with
    | waiting => exact hl
    | removing left => cases left <;> exact hl
    | done => exact hl
  | storing =>
    cases sweeper with
    | waiting => exact .inl ⟨not_or.2 ⟨h.1, id⟩, h.2⟩
    | removing left =>
      cases left with
      | nil => exact invariant_or_false h
      | cons q left => exact h.remove q
    | done => exact invariant_or_false h
  | done =>
    cases sweeper with
    | waiting =>
      obtain ⟨hl, hs, hp⟩ := h
      exact ⟨not_or.2 ⟨hl, id⟩, hs, .inl ⟨hp, Delivery.path_mem_sweep order hs⟩⟩
    | removing left =>
      obtain ⟨hl, hs, hf⟩ := h
      cases left with
      | nil =>
        have hf : fs.status d.path = none := hf.resolve_left fun hm => List.not_mem_nil hm.2
        exact .inl ⟨not_or.2 ⟨hl, id⟩, rfl, hf⟩
      | cons q left => exact ⟨not_or.2 ⟨hl, id⟩, hs, Delivery.remove_stored hf⟩
    | done => exact invariant_or_false h
  | refused =>
    cases sweeper with
    | waiting => trivial
    | removing left => cases left <;> trivial
    | done => trivial

theorem invariant_move {lost : Prop} {s : State} (t : Turn) (h : Invariant d lost s) :
    Invariant d (lost ∨ LosesAt d s t) (move order d s t) := by
  cases t with
  | client =>
    rw [LosesAt, or_false]
    exact invariant_moveClient h
  | sweeper => exact invariant_moveSweeper h

theorem invariant_run {lost : Prop} {s : State} (turns : List Turn) (h : Invariant d lost s) :
    Invariant d (lost ∨ Loses order d s turns) (run order d s turns) := by
  induction turns generalizing lost s with
  | nil => rwa [Loses, or_false]
  | cons t turns ih =>
    rw [Loses, ← or_assoc]
    exact ih (invariant_move t h)

theorem client_move_done {s : State} (t : Turn) (h : s.client = .done) :
    (move order d s t).client = .done := by
  obtain ⟨c, fs, client, sweeper⟩ := s
  subst h
  cases t with
  | client => rfl
  | sweeper =>
    cases sweeper with
    | waiting => rfl
    | removing left => cases left <;> rfl
    | done => rfl

/-- Nothing is lost behind the store. -/
theorem not_loses_of_done {s : State} (turns : List Turn) (h : s.client = .done) :
    ¬ Loses order d s turns := by
  induction turns generalizing s with
  | nil => exact id
  | cons t turns ih =>
    rw [Loses, not_or]
    refine ⟨?_, ih (client_move_done t h)⟩
    cases t with
    | client => exact id
    | sweeper => simp [LosesAt, h]

theorem settled_iff_of_invariant {lost : Prop} {s : State} (h : Invariant d lost s)
    (hc : s.client = .done) (hs : s.sweeper = .done) : d.Settled s.cache s.files ↔ ¬ lost := by
  obtain ⟨c, fs, client, sweeper⟩ := s
  subst hc hs
  obtain ⟨hl, hgone⟩ | ⟨hstored, ⟨hl, hp⟩ | ⟨hl, hf⟩⟩ := h
  · exact iff_of_true (.inl hgone) hl
  · exact iff_of_true (.inr ⟨hstored, Files.status_of_isPlain hp⟩) hl
  · refine iff_of_false ?_ (not_not_intro hl)
    intro hsettled
    obtain ⟨hn, -⟩ | ⟨-, hn⟩ := hsettled
    · cases hstored.symm.trans hn
    · cases hf.symm.trans hn

/-- When both are done, the orb is gone with its file or there with it, unless the file was lost
between its write and the store. -/
theorem settled_iff_not_loses (c : Cache) (fs : Files) (turns : List Turn)
    (hc : (run order d (start c fs) turns).client = .done)
    (hs : (run order d (start c fs) turns).sweeper = .done) :
    d.Settled (run order d (start c fs) turns).cache (run order d (start c fs) turns).files ↔
      ¬ Loses order d (start c fs) turns := by
  have h : Invariant d False (start c fs) := id
  have hrun : Invariant d _ (run order d (start c fs) turns) := invariant_run turns h
  rw [false_or] at hrun
  exact settled_iff_of_invariant hrun hc hs

end

def inOrder : Enumeration := ⟨id, fun _ => .rfl⟩

/-- An orb at the path of another one. -/
def late : Delivery := ⟨"k", .unread "" ⟨⟨"o.yml"⟩, "", ""⟩, ⟨"o.yml"⟩, rfl⟩

def shared : Cache := (Cache.empty.perform (.on .orbs (.insert "other" late.orb))).state

theorem write_late :
    ∃ fs, Files.initial.write late.path = some fs ∧ fs.isPlain late.path := by
  have hs : late.path.steps = ["o.yml"] := by decide +kernel
  have hl : isTooLong "o.yml" = false := by decide +kernel
  refine ⟨Files.initial.put ["", "o.yml"] .file, ?_, ?_⟩
  · have hf : Files.initial.enterParent late.path = some (.initial, [""], "o.yml") := by
      have ha : late.path.isAbsolute = false := by decide +kernel
      rw [Files.enterParent, hs]
      simp [isStay, hl, ha, Files.makeFolders, Files.origin, Files.initial]
    rw [Files.write, hf]
    rfl
  · have hw : (Files.initial.put ["", "o.yml"] .file).locate late.path = some ["", "o.yml"] := by
      rw [Files.locate, if_pos (by decide +kernel), hs]
      exact Files.walk_name_file (by decide) (by decide) (by simp [hl]) _ rfl
    exact Files.isPlain_iff.2 ⟨_, Files.taken?_eq_some.2 ⟨hw, rfl⟩, rfl⟩

theorem move_late :
    ∃ fs, fs.isPlain late.path ∧
      moveClient late (start shared .initial) = ⟨shared, fs, .storing, .waiting⟩ := by
  obtain ⟨fs, hw, hp⟩ := write_late
  refine ⟨fs, hp, ?_⟩
  simp only [moveClient, start, hw, hp, if_true]

/-- The teardown comes after the store, and finds the path twice. -/
def after : List Turn := [.client, .client, .sweeper, .sweeper, .sweeper, .sweeper]

theorem settled_after :
    (run inOrder late (start shared .initial) after).client = .done ∧
      (run inOrder late (start shared .initial) after).sweeper = .done ∧
      late.Settled (run inOrder late (start shared .initial) after).cache
        (run inOrder late (start shared .initial) after).files := by
  obtain ⟨fs, -, hm⟩ := move_late
  have hc : (run inOrder late (start shared .initial) after).client = .done := by
    rw [after, run, move, hm]
    rfl
  have hs : (run inOrder late (start shared .initial) after).sweeper = .done := by
    rw [after, run, move, hm]
    rfl
  have hl : ¬ Loses inOrder late (start shared .initial) after := by
    rw [after, Loses, Loses, move, hm]
    intro h
    exact not_loses_of_done _ rfl ((h.resolve_left id).resolve_left id)
  exact ⟨hc, hs, (settled_iff_not_loses shared .initial after hc hs).2 hl⟩

/-- The teardown falls between the write and the store. -/
def between : List Turn := [.client, .sweeper, .sweeper, .sweeper, .client]

/-- The orb is there at the end and its file is not. -/
theorem not_settled_between :
    (run inOrder late (start shared .initial) between).client = .done ∧
      (run inOrder late (start shared .initial) between).sweeper = .done ∧
      ¬ late.Settled (run inOrder late (start shared .initial) between).cache
        (run inOrder late (start shared .initial) between).files := by
  obtain ⟨fs, hp, hm⟩ := move_late
  let c := (shared.teardown fs []).state.1
  have hrun : run inOrder late (start shared .initial) between =
      ⟨(c.on .orbs (c.orbs.insert .none late.key late.orb)).state, (fs.remove late.path).1, .done,
        .done⟩ := by
    rw [between, run, move, hm]
    rfl
  have hstored := late.isStored_insert c
  have hnone := Files.status_remove_of_takes (Files.takes_self hp)
  rw [hrun]
  refine ⟨rfl, rfl, ?_⟩
  intro hsettled
  obtain ⟨hn, -⟩ | ⟨-, hfile⟩ := hsettled
  · cases hstored.symm.trans hn
  · cases hnone.symm.trans hfile

end Handover
end PipelineCache

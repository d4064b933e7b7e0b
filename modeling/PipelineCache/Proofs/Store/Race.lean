import Mathlib.Data.List.Nodup
import PipelineCache.Proofs.Store.Hold

/-! Several clients that add variables to one record. Each call has the lock to itself, so the calls
come one after another in some order, which the clients do not choose. -/
namespace PipelineCache
variable {α β : Type}

/-- Some clients' calls in one order, each client's in its own. -/
inductive Interleaving : List (List β) → List β → Prop
  | done {clients : List (List β)} (idle : ∀ calls ∈ clients, calls = []) :
      Interleaving clients []
  | call {clients : List (List β)} {i : Nat} {x : β} {left rest : List β}
      (next : clients[i]? = some (x :: left)) (others : Interleaving (clients.set i left) rest) :
      Interleaving clients (x :: rest)

theorem flatten_set_perm {clients : List (List β)} {i : Nat} {x : β} {left : List β}
    (h : clients[i]? = some (x :: left)) :
    clients.flatten.Perm (x :: (clients.set i left).flatten) := by
  induction clients generalizing i with
  | nil => cases h
  | cons calls clients ih =>
    cases i with
    | zero =>
      obtain rfl : calls = x :: left := by simpa using h
      exact .rfl
    | succ i =>
      have h : clients[i]? = some (x :: left) := by simpa using h
      exact ((ih h).append_left calls).trans List.perm_middle

/-- Every call is made once. -/
theorem Interleaving.perm {clients : List (List β)} {calls : List β}
    (h : Interleaving clients calls) : calls.Perm clients.flatten := by
  induction h with
  | done idle => rw [List.flatten_eq_nil_iff.2 idle]
  | call next _ ih => exact (ih.cons _).trans (flatten_set_perm next).symm

namespace Variables

/-- The names that are new to a list of variables, each at its first place. -/
def fresh (v : Variables) (names : List String) : List String :=
  (names.filter (· ∉ v.names)).eraseDups

theorem names_insertAll_fresh (v : Variables) (names : List String) :
    (v.insertAll names).names = v.names ++ v.fresh names := by
  rw [names_insertAll, List.eraseDups_append, eraseDups_of_nodup v.nodup, fresh, List.removeAll]
  simp

theorem length_insert (v : Variables) (name : String) :
    (v.insert name).names.length = v.names.length + if !v.contains name then 1 else 0 := by
  by_cases h : name ∈ v.names
  · simp [names_insert_of_mem h, contains, h]
  · simp [names_insert_of_not_mem h, contains, h]

theorem mem_fresh {v : Variables} {names : List String} {x : String} :
    x ∈ v.fresh names ↔ x ∈ names ∧ x ∉ v.names := by
  simp [fresh]

theorem nodup_fresh (v : Variables) (names : List String) : (v.fresh names).Nodup := by
  have h := (v.insertAll names).nodup
  rw [names_insertAll_fresh] at h
  exact h.of_append_right

theorem fresh_perm (v : Variables) {names others : List String} (h : names.Perm others) :
    (v.fresh names).Perm (v.fresh others) := by
  rw [List.perm_ext_iff_of_nodup (v.nodup_fresh names) (v.nodup_fresh others)]
  intro x
  rw [mem_fresh, mem_fresh, h.mem_iff]

end Variables

namespace Store

/-- A call that adds a variable, and its answer. -/
structure Added where
  name : String
  answer : Option (Except MissingEntry Bool)

/-- Whether a call has answered that the name was new. -/
def Added.isNew (a : Added) : Bool :=
  match a.answer with
  | some (.ok isNew) => isNew
  | _ => false

/-- Adds variables to one record call by call. -/
def addAll [Owner α] (s : Store String α) (key : String) :
    List String → Store String α × List Added
  | [] => (s, [])
  | name :: names =>
    let o := s.addVariable .none key name
    let (last, log) := addAll o.state key names
    (last, ⟨name, o.answer⟩ :: log)

def variables? [Owner α] (s : Store String α) (key : String) : Option Variables :=
  (s.table.get? key).map Owner.vars

section
variable [Owner α] [LawfulOwner α] {s : Store String α} {key : String} {v : Variables}

theorem addVariable_spec (name : String) (h : s.variables? key = some v) :
    (s.addVariable .none key name).answer = some (.ok (!v.contains name)) ∧
      (s.addVariable .none key name).state.variables? key = some (v.insert name) := by
  obtain ⟨r, hr, rfl⟩ := Option.map_eq_some_iff.1 h
  rw [answer_addVariable, variables?, get?_addVariable, if_pos rfl, hr]
  exact ⟨rfl, congrArg some (LawfulOwner.vars_setVars r _)⟩

theorem isNew_addVariable (name : String) (h : s.variables? key = some v) :
    Added.isNew ⟨name, (s.addVariable .none key name).answer⟩ = !v.contains name := by
  rw [Added.isNew, (addVariable_spec name h).1]

/-- Each call adds its name to what the calls before it have left. -/
theorem variables?_addAll (names : List String) (h : s.variables? key = some v) :
    (s.addAll key names).1.variables? key = some (v.insertAll names) := by
  induction names generalizing s v with
  | nil => exact h
  | cons name names ih => exact ih (addVariable_spec name h).2

omit [LawfulOwner α] in
theorem names_addAll (s : Store String α) (key : String) (names : List String) :
    (s.addAll key names).2.map Added.name = names := by
  induction names generalizing s with
  | nil => rfl
  | cons name names ih => exact congrArg (name :: ·) (ih _)

theorem answers_addAll (names : List String) (h : s.variables? key = some v) :
    ∀ a ∈ (s.addAll key names).2, ∃ isNew, a.answer = some (.ok isNew) := by
  induction names generalizing s v with
  | nil => simp [addAll]
  | cons name names ih =>
    obtain ⟨ha, hs⟩ := addVariable_spec name h
    intro a hm
    obtain rfl | hm := List.mem_cons.1 hm
    · exact ⟨_, ha⟩
    · exact ih hs a hm

/-- A name is answered to be new once if it is called and was not there, and never else. -/
theorem count_isNew_addAll (names : List String) (x : String) (h : s.variables? key = some v) :
    (s.addAll key names).2.countP (fun a => a.name = x ∧ a.isNew) =
      if x ∈ names ∧ x ∉ v.names then 1 else 0 := by
  induction names generalizing s v with
  | nil => simp [addAll]
  | cons name names ih =>
    have hs := (addVariable_spec name h).2
    simp only [addAll, List.countP_cons, isNew_addVariable name h, ih hs]
    by_cases hx : name = x
    · subst hx
      by_cases hm : name ∈ v.names <;> simp [Variables.mem_insert, Variables.contains, hm]
    · simp [Variables.mem_insert, hx, Ne.symm hx]

/-- As many calls are answered to be new as names are new. -/
theorem total_isNew_addAll (names : List String) (h : s.variables? key = some v) :
    (s.addAll key names).2.countP Added.isNew = (v.fresh names).length := by
  have hlength : v.names.length + (s.addAll key names).2.countP Added.isNew =
      (v.insertAll names).names.length := by
    induction names generalizing s v with
    | nil => rfl
    | cons name names ih =>
      have ih := ih (addVariable_spec name h).2
      rw [Variables.length_insert] at ih
      simp only [addAll, List.countP_cons, isNew_addVariable name h]
      change _ = ((v.insert name).insertAll names).names.length
      omega
  rw [Variables.names_insertAll_fresh, List.length_append] at hlength
  omega

/-- Whatever the order in which the calls of some clients come: none fails, each name that was not
there is answered to be new just once and the others never, and the names end up behind those that
were there, in the order of their first calls. So two orders end with the same names behind the same
first ones, and with as many new ones. -/
theorem interleaved_additions (clients : List (List String)) (h : s.variables? key = some v) :
    (∀ calls, Interleaving clients calls →
      (s.addAll key calls).2.map Added.name = calls ∧
      (∀ a ∈ (s.addAll key calls).2, ∃ isNew, a.answer = some (.ok isNew)) ∧
      (∀ x, (s.addAll key calls).2.countP (fun a => a.name = x ∧ a.isNew) =
        if x ∈ clients.flatten ∧ x ∉ v.names then 1 else 0) ∧
      ((s.addAll key calls).1.variables? key).map Variables.names =
        some (v.names ++ (calls.filter (· ∉ v.names)).eraseDups)) ∧
    ∀ calls others, Interleaving clients calls → Interleaving clients others →
      ∃ new new', ((s.addAll key calls).1.variables? key).map Variables.names =
          some (v.names ++ new) ∧
        ((s.addAll key others).1.variables? key).map Variables.names = some (v.names ++ new') ∧
        new.Perm new' ∧
        (s.addAll key calls).2.countP Added.isNew = (s.addAll key others).2.countP Added.isNew := by
  have hnames (calls : List String) :
      ((s.addAll key calls).1.variables? key).map Variables.names =
        some (v.names ++ v.fresh calls) := by
    rw [variables?_addAll calls h, Option.map_some, Variables.names_insertAll_fresh]
  constructor
  · intro calls hi
    refine ⟨names_addAll s key calls, answers_addAll calls h, fun x => ?_, hnames calls⟩
    rw [count_isNew_addAll calls x h]
    simp only [hi.perm.mem_iff]
  · intro calls others hi ho
    have hp : (v.fresh calls).Perm (v.fresh others) := v.fresh_perm (hi.perm.trans ho.perm.symm)
    refine ⟨v.fresh calls, v.fresh others, hnames calls, hnames others, hp, ?_⟩
    rw [total_isNew_addAll calls h, total_isNew_addAll others h, hp.length_eq]

end

def crew : List (List String) := [["B", "A"], ["B", "C"]]

theorem interleaving_crew : Interleaving crew ["B", "B", "A", "C"] :=
  .call (i := 1) rfl (.call (i := 0) rfl (.call (i := 0) rfl (.call (i := 1) rfl
    (.done (by decide)))))

/-- One context and one project, each with a variable that a client adds again. -/
theorem interleaved_additions_crew :
    let c : Store String Context :=
      ⟨"contexts", ⟨[("deploy", .extend (.named "deploy") ["A"])]⟩, false⟩
    let p : Store String Project :=
      ⟨"projects", ⟨[("gh/acme/api", .extend (.named "gh/acme/api") ["A"])]⟩, true⟩
    (c.variables? "deploy" = some (.ofList ["A"]) ∧
      ((c.addAll "deploy" ["B", "B", "A", "C"]).1.variables? "deploy").map Variables.names =
        some ["A", "B", "C"]) ∧
    p.variables? "gh/acme/api" = some (.ofList ["A"]) ∧
      (p.addAll "gh/acme/api" ["B", "B", "A", "C"]).2.countP
        (fun a => a.name = "B" ∧ a.isNew) = 1 := by
  intro c p
  have hc : c.variables? "deploy" = some (.ofList ["A"]) := by decide
  have hp : p.variables? "gh/acme/api" = some (.ofList ["A"]) := by decide
  obtain ⟨-, -, -, hnames⟩ := (interleaved_additions crew hc).1 _ interleaving_crew
  obtain ⟨-, -, hcount, -⟩ := (interleaved_additions crew hp).1 _ interleaving_crew
  exact ⟨⟨hc, hnames.trans (by decide)⟩, hp, (hcount "B").trans (by decide)⟩

end Store
end PipelineCache

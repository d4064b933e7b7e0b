import PipelineCache.Proofs.Store.Race
import PipelineCache.Proofs.Record.Spelling
import PipelineCache.Proofs.Record.Forms

/-! All ways to build a list of variables agree: name by name, from a list, by a record's builder,
in a store, and from a text. They keep the first occurrence of each name. -/
namespace PipelineCache
open Json

namespace Variables

/-- Adds names one after another, and keeps the answers. -/
def addEach (v : Variables) : List String → List Bool × Variables
  | [] => ([], v)
  | name :: names =>
    let (isNew, v) := v.add name
    let (answers, last) := v.addEach names
    (isNew :: answers, last)

/-- Which names are new: not among the variables, and not among the names before. -/
def news (v : Variables) (names : List String) : List Bool :=
  names.mapIdx fun i name => name ∉ v.names ∧ name ∉ names.take i

theorem news_cons (v : Variables) (name : String) (names : List String) :
    v.news (name :: names) = (!v.contains name) :: (v.insert name).news names := by
  simp [news, List.mapIdx_cons, contains, mem_insert, and_assoc]

theorem addEach_eq (v : Variables) (names : List String) :
    v.addEach names = (v.news names, v.insertAll names) := by
  induction names generalizing v with
  | nil => rfl
  | cons name names ih =>
    rw [news_cons, addEach, add]
    simp only [ih]
    rfl

theorem size_insertAll (v : Variables) (names : List String) :
    (v.insertAll names).size = v.size + (v.news names).count true := by
  induction names generalizing v with
  | nil => rfl
  | cons name names ih =>
    change ((v.insert name).insertAll names).size = _
    have hs : (v.insert name).size = v.size + if !v.contains name then 1 else 0 :=
      v.length_insert name
    rw [ih, hs, news_cons, List.count_cons]
    simp only [beq_true]
    omega

end Variables

theorem Store.answers_addAll_eq {α : Type} [Owner α] [LawfulOwner α] {s : Store String α}
    {key : String} {v : Variables} (names : List String) (h : s.variables? key = some v) :
    (s.addAll key names).2.map Added.answer =
      (v.news names).map fun isNew => some (.ok isNew) := by
  induction names generalizing s v with
  | nil => rfl
  | cons name names ih =>
    obtain ⟨ha, hs⟩ := addVariable_spec name h
    rw [Variables.news_cons, List.map_cons, ← ih hs, ← ha]
    rfl

/-- The texts of a record that lists names as its variables, behind other fields: an object with its
members in any order, or an array. -/
inductive Json.Grammar.listing (fs : List Field) (gs : Grammars fs) :
    Grammar (Row fs × List String)
  | object {t e : List Char} {ms : List Member} {row : Row fs} {xs : List String} (ho : Object t ms)
      (hr : Row.Given fs gs ms row) (he : ms.filter (·.1 = "envVariables") = [("envVariables", e)])
      (hx : Grammar.text.list e xs)
      (hm : ∀ m ∈ ms, m.1 ∈ names fs ∨ m.1 = "envVariables" ∨ WellFormed none m.2) :
      listing fs gs t (row, xs)
  | array {t e : List Char} {ts : List (List Char)} {row : Row fs} {xs : List String}
      (ht : Listing t (ts ++ [e])) (hr : Row.Texts fs gs ts row) (hx : Grammar.text.list e xs) :
      listing fs gs t (row, xs)

/-- The field of a record's variables. -/
abbrev Variables.field : Field := .withDefault "envVariables" Variables.format .empty

/-- The fields of a context in front of its variables. -/
def Context.others : List Field :=
  [.optional "id" (.text "a string"), .required "name" (.text "a string")]

/-- The fields of a project in front of its variables. -/
def Project.others : List Field :=
  [.required "slug" (.text "a string"), .optional "name" (.text "a string")]

theorem Variables.grammar_ofList {t : List Char} {xs : List String} (h : Grammar.text.list t xs) :
    Variables.grammar t (.ofList xs) :=
  ⟨xs, h, (Variables.names_ofList xs).symm⟩

theorem Variables.decode_list {t : String} {xs : List String}
    (h : Grammar.text.list.padded t.toList xs) : Kind.vars.decode t = .ok (.ofList xs) := by
  obtain ⟨b, u, b', hb, hb', hu, he⟩ := h
  exact Variables.follows.decode ⟨b, u, b', hb, hb', Variables.grammar_ofList hu, he⟩

section
variable {α : Type} {title : String} {f f' : Field} {g : Grammar f.Value} {g' : Grammar f'.Value}

/-- A record whose variables stand behind two other fields. -/
theorem decode_listing_vars {ofRow : Row [f, f', Variables.field] → α}
    {toRow : α → Row [f, f', Variables.field]} (hs : f.format.Steady ∧ f'.format.Steady)
    (hf : f.Follows g ∧ f'.Follows g') (hn : (names [f, f', Variables.field]).Nodup) {t : String}
    {v : f.Value} {v' : f'.Value} {xs : List String}
    (h : (Grammar.listing [f, f'] (g, g', ())).padded t.toList ((v, v', ()), xs)) :
    (Format.record title [f, f', Variables.field] ofRow toRow).decode t =
      .ok (ofRow (v, v', .ofList xs, ())) := by
  have hfs : Grammars.Follow [f, f', Variables.field] (g, g', Variables.grammar, ()) :=
    ⟨hf.1, hf.2, withDefault_follows _ _ Variables.follows, trivial⟩
  obtain ⟨b, u, b', hb, hb', hu, he⟩ := h
  cases hu with
  | @object _ e ms _ _ ho hr hm hx hall =>
    obtain ⟨hv, hv', -⟩ := hr
    refine decode_row hfs hn ⟨b, u, b', hb, hb', ⟨ms, ho,
      ⟨hv, hv', .inl ⟨e, hm, Variables.grammar_ofList hx⟩, trivial⟩, fun m h => ?_⟩, he⟩
    obtain h | h | h := hall m h
    · exact .inl (List.mem_append_left ["envVariables"] h)
    · exact .inl (h ▸ List.mem_append_right [f.name, f'.name] List.mem_cons_self)
    · exact .inr h
  | @array _ e ts _ _ ht hr hx =>
    -- One text for each of the two other fields stands in front of the list.
    obtain _ | ⟨i, _ | ⟨n, ts⟩⟩ := ts
    · cases hr
    · cases hr.2
    · obtain ⟨hi, hn, rfl⟩ := hr
      have hsteady : ∀ x ∈ [f, f', Variables.field], x.format.Steady := by
        simp only [List.forall_mem_cons]
        exact ⟨hs.1, hs.2, Variables.composed.steady, List.forall_mem_nil _⟩
      exact decode_listing_texts hsteady hfs ⟨b, _, b', hb, hb', ht, he⟩ (v, v', .ofList xs, ())
        ⟨hi, hn, Variables.grammar_ofList hx, rfl⟩

end

namespace Variables

/-- However some names are added to variables, the list that comes out has the first occurrences of
the old names and the added ones. Where each name has an answer, it tells whether that name was new,
and there are as many names more as answers tell so. -/
theorem ways_agree (v : Variables) (xs : List String) :
    let all := (v.names ++ xs).eraseDups
    let answers := xs.mapIdx fun i x => decide (x ∉ v.names ∧ x ∉ xs.take i)
    (v.addEach xs).1 = answers ∧ (v.addEach xs).2.names = all ∧
    (ofList (v.names ++ xs)).names = all ∧
    (∀ c : Context, c.vars = v → (c.extend xs).vars.names = all) ∧
    (∀ p : Project, p.vars = v → (p.extend xs).vars.names = all) ∧
    (∀ (s : Store String Context) (key : String), s.variables? key = some v →
      (s.addAll key xs).2.map Store.Added.answer = answers.map (fun isNew => some (.ok isNew)) ∧
      ((s.addAll key xs).1.variables? key).map names = some all) ∧
    (∀ (s : Store String Project) (key : String), s.variables? key = some v →
      (s.addAll key xs).2.map Store.Added.answer = answers.map (fun isNew => some (.ok isNew)) ∧
      ((s.addAll key xs).1.variables? key).map names = some all) ∧
    (∀ t : String, Grammar.text.list.padded t.toList (v.names ++ xs) →
      ∃ w, Kind.vars.decode t = .ok w ∧ w.names = all) ∧
    (∀ (t name : String) (id : Option String),
      (Grammar.listing Context.others (Grammar.text.optional, Grammar.text, ())).padded t.toList
        ((id, name, ()), v.names ++ xs) →
      ∃ w, Kind.context.decode t = .ok ⟨id, name, w⟩ ∧ w.names = all) ∧
    (∀ (t slug : String) (name : Option String),
      (Grammar.listing Project.others (Grammar.text, Grammar.text.optional, ())).padded t.toList
        ((slug, name, ()), v.names ++ xs) →
      ∃ w, Kind.project.decode t = .ok ⟨slug, name, w⟩ ∧ w.names = all) ∧
    ∀ w : Variables, w.names = all → (∀ n, w.contains n ↔ n ∈ v.names ++ xs) ∧
      w.size = v.size + answers.count true := by
  intro all answers
  have hall : (v.insertAll xs).names = all := v.names_insertAll xs
  have hlist : (ofList (v.names ++ xs)).names = all := names_ofList _
  have hstore {α : Type} [Owner α] [LawfulOwner α] (s : Store String α) (key : String)
      (h : s.variables? key = some v) :
      (s.addAll key xs).2.map Store.Added.answer = answers.map (fun isNew => some (.ok isNew)) ∧
        ((s.addAll key xs).1.variables? key).map names = some all := by
    rw [Store.variables?_addAll xs h, Option.map_some, hall]
    exact ⟨Store.answers_addAll_eq xs h, rfl⟩
  refine ⟨?_, ?_, hlist, ?_, ?_, hstore, hstore, ?_, ?_, ?_, ?_⟩
  · exact congrArg Prod.fst (v.addEach_eq xs)
  · rw [addEach_eq, hall]
  · rintro c rfl
    exact hall
  · rintro p rfl
    exact hall
  · intro t ht
    exact ⟨_, decode_list ht, hlist⟩
  · intro t name id ht
    exact ⟨_, decode_listing_vars ⟨optional_steady (text_steady _), text_steady _⟩
      ⟨fieldOptional_follows _ (text_follows _) text_head, required_follows _ (text_follows _)⟩
      (by decide) ht, hlist⟩
  · intro t slug name ht
    exact ⟨_, decode_listing_vars ⟨text_steady _, optional_steady (text_steady _)⟩
      ⟨required_follows _ (text_follows _), fieldOptional_follows _ (text_follows _) text_head⟩
      (by decide) ht, hlist⟩
  · intro w hw
    obtain rfl : w = v.insertAll xs := ext (hw.trans hall.symm)
    refine ⟨fun n => ?_, v.size_insertAll xs⟩
    rw [contains_iff, hall, List.mem_eraseDups]

def repeats : List String := ["B", "A", "A", "C", "C"]

def repeatsText : List Char := (Format.list (.text "a string")).write repeats

/-- The last three names come on top of the first two. -/
theorem ways_agree_repeats :
    let s : Store String Context :=
      ⟨"contexts", ⟨[("deploy", .extend (.named "deploy") ["B", "A"])]⟩, true⟩
    (s.variables? "deploy" = some (.ofList ["B", "A"]) ∧
      (s.addAll "deploy" ["A", "C", "C"]).2.map Store.Added.answer =
        [some (.ok false), some (.ok true), some (.ok false)]) ∧
    ((⟨"gh/acme/api", none, .ofList ["B", "A"]⟩ : Project).extend ["A", "C", "C"]).vars.names =
      ["B", "A", "C"] ∧
    (∃ w, Kind.vars.decode "[\"B\",\"A\",\"A\",\"C\",\"C\"]" = .ok w ∧
      w.names = ["B", "A", "C"]) ∧
    (∃ w, Kind.context.decode
        "\x7b\"envVariables\":[\"B\",\"A\",\"A\",\"C\",\"C\"],\"name\":\"deploy\"\x7d" =
      .ok ⟨none, "deploy", w⟩ ∧ w.names = ["B", "A", "C"]) ∧
    ∃ w, Kind.project.decode "[\"gh/acme/api\",null,[\"B\",\"A\",\"A\",\"C\",\"C\"]]" =
      .ok ⟨"gh/acme/api", none, w⟩ ∧ w.names = ["B", "A", "C"] := by
  intro s
  have hs : s.variables? "deploy" = some (.ofList ["B", "A"]) := by decide
  have htext := (text_follows "a string").writes
  have hlist : Grammar.text.list repeatsText repeats :=
    (list_follows (text_follows _)).writes repeats
  have item (t : List Char) : Grammar.padded Eq t t := padded_of_spelled rfl
  obtain ⟨-, -, -, -, hextend, hstored, -, halone, hcontext, hproject, -⟩ :=
    ways_agree (ofList ["B", "A"]) ["A", "C", "C"]
  have hobject := Object.full (.more (Member.spelled_write ("envVariables", repeatsText))
    (.last (Member.spelled_write ("name", Text.write "deploy"))))
  have harray : Listing _ ([Text.write "gh/acme/api", "null".toList] ++ [repeatsText]) :=
    .full (.more (item _) (.more (item _) (.last (item _))))
  have hmembers : ∀ m ∈ [("envVariables", repeatsText), ("name", Text.write "deploy")],
      m.1 ∈ Json.names Context.others ∨ m.1 = "envVariables" ∨ WellFormed none m.2 := by
    simp [Json.names, Context.others, Field.required]
  refine ⟨⟨hs, (hstored s _ hs).1⟩, hextend _ rfl, ?_, ?_, ?_⟩
  · exact halone _ ⟨[], _, [], blanks_nil, blanks_nil, hlist, by decide⟩
  · exact hcontext _ "deploy" none ⟨[], _, [], blanks_nil, blanks_nil,
      .object hobject ⟨.inr ⟨rfl, rfl⟩, .inl ⟨_, rfl, htext _⟩, trivial⟩ rfl hlist hmembers,
      by decide⟩
  · exact hproject _ "gh/acme/api" none ⟨[], _, [], blanks_nil, blanks_nil,
      .array harray ⟨htext _, rfl, rfl⟩ hlist, by decide⟩

end Variables
end PipelineCache

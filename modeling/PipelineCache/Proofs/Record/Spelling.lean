import PipelineCache.Record.Kind
import PipelineCache.Proofs.Json.Record
import Mathlib.Data.List.Sort

/-! The texts that spell each kind of record. Every such text is read as its record, whatever the
order of members, the blanks, the escapes and the unknown members; what is written for a record is
one of its spellings. -/
namespace PipelineCache
open Json

/-- A list of names that hold the same set. -/
def NameSet.grammar : Grammar NameSet := fun t s =>
  ∃ xs, Grammar.text.list t xs ∧ ∀ x, x ∈ xs ↔ x ∈ s.names

/-- A list of names that is the variables' own but for later repeats. -/
def Variables.grammar : Grammar Variables := fun t v =>
  ∃ xs, Grammar.text.list t xs ∧ xs.eraseDups = v.names

def Path.grammar : Grammar Path := fun t p => Grammar.text t p.text

def Uri.grammar : Grammar Uri := fun t u => Grammar.text t u.text

def Context.grammar : Grammar Context := fun t c =>
  Grammar.row Context.fields (Grammar.text.optional, Grammar.text, Variables.grammar, ()) t
    (c.id, c.name, c.vars, ())

def Project.grammar : Grammar Project := fun t p =>
  Grammar.row Project.fields (Grammar.text, Grammar.text.optional, Variables.grammar, ()) t
    (p.slug, p.name, p.vars, ())

def OrbOrigin.grammar : Grammar OrbOrigin := fun t o =>
  Grammar.row OrbOrigin.fields (Path.grammar, Grammar.text, Grammar.text, ()) t
    (o.file, o.version, o.description, ())

def OrbInterface.grammar : Grammar OrbInterface := fun t i =>
  Grammar.row OrbInterface.fields
    (NameSet.grammar, NameSet.grammar, NameSet.grammar, NameSet.grammar, ()) t
    (i.commands, i.jobs, i.executors, i.parameters, ())

def Orb.grammar : Grammar Orb := fun t o =>
  Grammar.row Orb.fields (Grammar.text, OrbOrigin.grammar, OrbInterface.grammar.optional, ()) t
    (o.source, o.origin, o.interface, ())

def ImageCheck.grammar : Grammar ImageCheck := fun t i =>
  Grammar.row ImageCheck.fields (Grammar.flag, Grammar.flag, ()) t (i.checked, i.found, ())

def Document.grammar : Grammar Document := fun t d =>
  Grammar.row Document.fields (Uri.grammar, Grammar.text, Grammar.int32, Grammar.text, ()) t
    (d.uri, d.language, d.version, d.text, ())

theorem NameSet.ext {s s' : NameSet} (h : s.names = s'.names) : s = s' := by
  cases s
  cases s'
  simp_all

theorem NameSet.ofList_eq {xs : List String} {s : NameSet} (h : ∀ x, x ∈ xs ↔ x ∈ s.names) :
    NameSet.ofList xs = s := by
  apply NameSet.ext
  apply List.Pairwise.eq_of_mem_iff (NameSet.ofList xs).rising s.rising
  intro x
  rw [NameSet.mem_ofList, h x]

theorem NameSet.follows : NameSet.format.Follows NameSet.grammar := by
  refine (list_follows (text_follows _)).map ?_ ?_
  · rintro t s ⟨xs, hx, hs⟩
    exact ⟨xs, hx, NameSet.ofList_eq hs⟩
  · intro t s ht
    exact ⟨_, ht, fun _ => Iff.rfl⟩

theorem Variables.follows : Variables.format.Follows Variables.grammar := by
  refine (list_follows (text_follows _)).map ?_ ?_
  · rintro t v ⟨xs, hx, hv⟩
    exact ⟨xs, hx, Variables.ext ((Variables.names_ofList xs).trans hv)⟩
  · intro t v ht
    exact ⟨_, ht, Variables.eraseDups_of_nodup v.nodup⟩

theorem Path.follows : Path.format.Follows Path.grammar := by
  refine (text_follows _).map ?_ id
  intro t p ht
  exact ⟨p.text, ht, rfl⟩

theorem Uri.follows : Uri.format.Follows Uri.grammar := by
  refine (text_follows _).refine ?_ id
  intro t u ht
  refine ⟨u.text, ht, ?_⟩
  rw [Uri.ofText, Uri.parse_text]

theorem text_head {t : List Char} {s : String} (h : Grammar.text t s) : t.head? ≠ some 'n' := by
  obtain ⟨u, _, rfl⟩ := h
  simp

theorem row_head {fs : List Field} {gs : Grammars fs} {t : List Char} {row : Row fs}
    (h : Grammar.row fs gs t row) : t.head? ≠ some 'n' := by
  obtain ⟨ms, ho, _⟩ := h
  cases ho <;> simp

theorem Context.fields_follow :
    Grammars.Follow Context.fields (Grammar.text.optional, Grammar.text, Variables.grammar, ()) :=
  ⟨fieldOptional_follows _ (text_follows _) text_head, required_follows _ (text_follows _),
    withDefault_follows _ _ Variables.follows, trivial⟩

theorem Context.follows : Context.format.Follows Context.grammar :=
  record_follows _ Context.fields_follow (by decide) fun _ => rfl

theorem Project.fields_follow :
    Grammars.Follow Project.fields (Grammar.text, Grammar.text.optional, Variables.grammar, ()) :=
  ⟨required_follows _ (text_follows _), fieldOptional_follows _ (text_follows _) text_head,
    withDefault_follows _ _ Variables.follows, trivial⟩

theorem Project.follows : Project.format.Follows Project.grammar :=
  record_follows _ Project.fields_follow (by decide) fun _ => rfl

theorem OrbOrigin.follows : OrbOrigin.format.Follows OrbOrigin.grammar :=
  record_follows _
    ⟨withDefault_follows _ _ Path.follows, withDefault_follows _ _ (text_follows _),
      withDefault_follows _ _ (text_follows _), trivial⟩ (by decide) fun _ => rfl

theorem OrbInterface.follows : OrbInterface.format.Follows OrbInterface.grammar :=
  record_follows _
    ⟨withDefault_follows _ _ NameSet.follows, withDefault_follows _ _ NameSet.follows,
      withDefault_follows _ _ NameSet.follows, withDefault_follows _ _ NameSet.follows, trivial⟩
    (by decide) fun _ => rfl

theorem Orb.follows : Orb.format.Follows Orb.grammar :=
  record_follows _
    ⟨required_follows _ (text_follows _), withDefault_follows _ _ OrbOrigin.follows,
      fieldOptional_follows _ OrbInterface.follows row_head, trivial⟩ (by decide) fun _ => rfl

theorem ImageCheck.follows : ImageCheck.format.Follows ImageCheck.grammar :=
  record_follows _
    ⟨required_follows _ flag_follows, required_follows _ flag_follows, trivial⟩ (by decide)
    fun _ => rfl

theorem Document.follows : Document.format.Follows Document.grammar :=
  record_follows _
    ⟨required_follows _ Uri.follows, required_follows _ (text_follows _),
      required_follows _ int32_follows, required_follows _ (text_follows _), trivial⟩ (by decide)
    fun _ => rfl

namespace Kind

def grammar : (k : Kind) → Grammar k.Record
  | vars => Variables.grammar
  | context => Context.grammar
  | project => Project.grammar
  | orbOrigin => OrbOrigin.grammar
  | orbInterface => OrbInterface.grammar
  | orb => Orb.grammar
  | image => ImageCheck.grammar
  | document => Document.grammar

theorem follows : (k : Kind) → k.format.Follows k.grammar
  | vars => Variables.follows
  | context => Context.follows
  | project => Project.follows
  | orbOrigin => OrbOrigin.follows
  | orbInterface => OrbInterface.follows
  | orb => Orb.follows
  | image => ImageCheck.follows
  | document => Document.follows

/-- A text is a spelling of a record, with blanks around it. -/
def Spells (k : Kind) (t : String) (r : k.Record) : Prop := k.grammar.padded t.toList r

/-- Every record is read back from what is written for it. -/
theorem decode_encode (k : Kind) (r : k.Record) : k.decode (k.encode r) = .ok r :=
  k.follows.decode_written r

/-- Every spelling of a record is read as that record. -/
theorem decode_of_spells (k : Kind) {t : String} {r : k.Record} (h : k.Spells t r) :
    k.decode t = .ok r :=
  k.follows.decode h

/-- The members are out of order, one name is in escapes and one in a set twice, the origin is left
out, and an unknown member holds a number beyond all doubles and a surrogate that stands alone. -/
def scrambled : String :=
  "\x7b\"parsedAttributes\":\x7b\"jobs\":[\"b\",\"a\",\"b\"]\x7d,\"x\":[1e999,\"\\udc00\"]," ++
    " \"\\u0073ource\":\"\"\x7d\n"

def scrambledOrb : Orb := ⟨"", .empty, some ⟨.empty, .ofList ["a", "b"], .empty, .empty⟩⟩

theorem spells_scrambled : orb.Spells scrambled scrambledOrb := by
  have text : ∀ s, Grammar.text (Text.write s) s := (text_follows "").writes
  have hset : NameSet.grammar _ (.ofList ["a", "b"]) :=
    ⟨["b", "a", "b"], .full (.more (padded_of_spelled (text "b"))
      (.more (padded_of_spelled (text "a")) (.last (padded_of_spelled (text "b"))))),
      fun x => by rw [NameSet.mem_ofList]; simp; tauto⟩
  have hi : OrbInterface.grammar _ ⟨.empty, .ofList ["a", "b"], .empty, .empty⟩ :=
    ⟨[("jobs", _)], .full (.last (Member.spelled_write _)),
      ⟨.inr ⟨rfl, rfl⟩, .inl ⟨_, rfl, hset⟩, .inr ⟨rfl, rfl⟩, .inr ⟨rfl, rfl⟩, trivial⟩,
      by simp [names, OrbInterface.fields, Field.withDefault]⟩
  have hn : WellFormed none ['1', 'e', '9', '9', '9'] :=
    .number (.mk (n := ⟨false, ['1'], [], some (false, ['9', '9', '9'])⟩)
      (.positive (by simp [Numeral.AllDigits]) (by decide)) (by simp [Numeral.AllDigits])
      (.some (.inl rfl) .none (by simp [Numeral.AllDigits]) (by simp)))
  have hs : WellFormed none ['"', '\\', 'u', 'd', 'c', '0', '0', '"'] :=
    .string (.cons (.number (.mk rfl rfl rfl rfl)) .nil)
  have hx : WellFormed none
      ['[', '1', 'e', '9', '9', '9', ',', '"', '\\', 'u', 'd', 'c', '0', '0', '"', ']'] :=
    WellFormed.full (k := .square) (.more .item blanks_nil hn blanks_nil
      (.last .item blanks_nil hs blanks_nil))
  have hd : Text.Digits ['0', '0', '7', '3'] 115 :=
    .mk (i := 0) (j := 0) (k := 7) (l := 3) rfl rfl rfl rfl
  have hsource : Text.Spelled _ ['s', 'o', 'u', 'r', 'c', 'e'] :=
    .cons (.number (c := 's') hd) (Text.spelled_flatMap_escape ['o', 'u', 'r', 'c', 'e'])
  have hm : Member.Spelled _ ("source", Text.write "") :=
    .mk (b := [' ']) (by simp [Blanks, isBlank]) hsource blanks_nil blanks_nil blanks_nil
  refine ⟨[], _, ['\n'], blanks_nil, by simp [Blanks, isBlank],
    ⟨[("parsedAttributes", _), ("x", _), _],
      .full (.more (Member.spelled_write _) (.more (Member.spelled_write _) (.last hm))),
      ⟨.inl ⟨_, rfl, text ""⟩, .inr ⟨rfl, rfl⟩, .inl ⟨_, rfl, hi⟩, trivial⟩,
      List.forall_mem_cons.2 ⟨.inl (by decide), List.forall_mem_cons.2 ⟨.inr hx,
        List.forall_mem_singleton.2 (.inl (by decide))⟩⟩⟩, by decide⟩

theorem decode_scrambled :
    orb.Spells scrambled scrambledOrb ∧ orb.decode scrambled = .ok scrambledOrb :=
  ⟨spells_scrambled, decode_of_spells orb spells_scrambled⟩

end Kind
end PipelineCache

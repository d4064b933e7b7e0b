import PipelineCache.Proofs.Record.Composed
import PipelineCache.Proofs.Json.Offence

/-! What is wrong with the text of a record, when several things are: the first in the order of the
text. Fields that are missed come last, since only the closing brace tells that they are. -/
namespace PipelineCache
open Json

theorem Json.Format.decode_error {α : Type} {f : Format α} {t : String} {e : Fault}
    (h : f.reader.run t.toList = .error e) : f.decode t = .error e := by
  rw [Format.decode, h]

/-- What reads as another format, up to the value, is wrong as that one is. -/
theorem Json.fault?_decode_congr {α β : Type} {f : Format α} {g : Format β} {t : String} {h : β → α}
    (hr : f.reader.run t.toList = (g.reader.run t.toList).map fun x => (h x.1, x.2)) :
    fault? (f.decode t) = fault? (g.decode t) := by
  rw [Format.decode, Format.decode, hr]
  cases g.reader.run t.toList with
  | error e => rfl
  | ok x =>
    change fault? (if (afterBlanks x.2).isEmpty then _ else _) =
      fault? (if (afterBlanks x.2).isEmpty then _ else _)
    split <;> rfl

namespace Kind

/-- The kind of record that a field holds, if it holds one. -/
def inner : Kind → String → Option Kind
  | orb, "remoteInfo" => some orbOrigin
  | orb, "parsedAttributes" => some orbInterface
  | _, _ => none

/-- An object in which nothing offends up to an unknown name that no value follows. A record in one
of its fields may be that object. -/
inductive LacksValue : Kind → List Char → Prop
  | here {k : Kind} {ms : List Member} {name : String} {t u s : List Char}
      (ht : Object.Front ms t) (hw : ∀ m ∈ ms, WellFormed none m.2)
      (ho : firstOffence? k.fields [] ms = none) (hu : Member.Named name u)
      (hk : name ∉ names k.fields) (hs : ¬ HoldsValue s) : LacksValue k (t ++ (u ++ s))
  | inner {k j : Kind} {ms : List Member} {name : String} {t u s : List Char}
      (ht : Object.Front ms t) (hw : ∀ m ∈ ms, WellFormed none m.2)
      (ho : firstOffence? k.fields [] ms = none) (hu : Member.Named name u)
      (hj : k.inner name = some j) (hg : name ∉ ms.map Prod.fst) (hs : LacksValue j s) :
      LacksValue k (t ++ (u ++ s))

theorem fields_judge (k : Kind) : ∀ f ∈ k.fields, f.format.Judges := fun f hf =>
  (k.fields_composed f hf).format.judges

/-- What a kind's format reads is what its row reads. -/
theorem run_eq {k : Kind} (hk : k ≠ vars) : ∃ ofRow : Row k.fields → k.Record, ∀ t,
    k.format.reader.run t = (rowRun k.title k.fields t).map fun x => (ofRow x.1, x.2) := by
  obtain ⟨ofRow, toRow, -, he⟩ := format_eq_record hk
  rw [he]
  exact ⟨ofRow, fun t => Reader.map_run ⟨rowRun k.title k.fields, length_rowRun⟩ ofRow t⟩

theorem run_error {k : Kind} (hk : k ≠ vars) {t : List Char} {e : Fault}
    (h : rowRun k.title k.fields t = .error e) : k.format.reader.run t = .error e := by
  obtain ⟨ofRow, hr⟩ := run_eq hk
  rw [hr, h]
  rfl

/-- A field that holds a record reads the object as that record does. -/
theorem inner_run {k j : Kind} {f : Field} (hf : f ∈ k.fields) (hj : k.inner f.name = some j)
    {t u : List Char} (ht : afterBlanks t = '\x7b' :: u) : ∃ g : j.Record → f.Value,
      f.format.reader.run t = (j.format.reader.run t).map fun x => (g x.1, x.2) := by
  cases k with
  | orb =>
    simp only [fields, Orb.fields, List.mem_cons, List.not_mem_nil, or_false] at hf
    obtain rfl | rfl | rfl := hf
    · simp [inner, Field.required] at hj
    · obtain rfl : orbOrigin = j := by simpa [inner, Field.withDefault] using hj
      refine ⟨id, ?_⟩
      change OrbOrigin.format.reader.run t = (OrbOrigin.format.reader.run t).map _
      cases OrbOrigin.format.reader.run t <;> rfl
    · obtain rfl : orbInterface = j := by simpa [inner, Field.optional] using hj
      exact ⟨some, (optionalRun_other ht (by decide)).trans
        (Reader.map_run OrbInterface.format.reader some t)⟩
  | _ => simp [inner] at hj

theorem inner_ne_vars {k j : Kind} {name : String} (hj : k.inner name = some j) : j ≠ vars := by
  rintro rfl
  unfold inner at hj
  split at hj <;> cases hj

theorem exists_inner {k j : Kind} {name : String} (hj : k.inner name = some j) :
    ∃ f ∈ k.fields, f.name = name := by
  unfold inner at hj
  split at hj
  · exact ⟨_, List.mem_cons_of_mem _ List.mem_cons_self, rfl⟩
  · exact ⟨_, List.mem_cons_of_mem _ (List.mem_cons_of_mem _ List.mem_cons_self), rfl⟩
  · cases hj

theorem fault?_decode_object {k : Kind} (hk : k ≠ vars) {t : String} {ms : List Member}
    (ht : Object.padded t.toList ms) (hw : ∀ m ∈ ms, WellFormed none m.2) :
    fault? (k.decode t) = firstProblem? k.fields ms := by
  obtain ⟨ofRow, toRow, -, he⟩ := format_eq_record hk
  obtain ⟨b, v, b', hb, hb', hv, ht⟩ := ht
  rw [decode, he, decode_record hb' (ht ▸ rowRun_object k.fields_judge hb hv hw b'), fault?_map]
  exact Draft.fault?_offerAll_complete k.nodup_names_fields ms

theorem LacksValue.opens {k : Kind} {t : List Char} (h : k.LacksValue t) :
    ∃ u, afterBlanks t = '\x7b' :: u := by
  cases h with
  | here ht => exact ht.opens _
  | inner ht => exact ht.opens _

/-- Where an unknown name has no value, nothing behind it matters. -/
theorem LacksValue.run {k : Kind} {t : List Char} (h : k.LacksValue t) (hk : k ≠ vars) :
    ∃ e, (e = .malformed ∨ e = .truncated) ∧ k.format.reader.run t = .error e := by
  induction h with
  | here ht hw ho hu hname hs =>
    obtain ⟨e, he, hm⟩ := repeated_member_unknown hu hname hs
    exact ⟨e, he, run_error hk (rowRun_next (fields_judge _) ht hw (nodup_names_fields _) ho
      fun d first l _ hl => hm d first l hl)⟩
  | inner ht hw ho hu hj hg hs ih =>
    obtain ⟨e, he, hx⟩ := ih (inner_ne_vars hj)
    obtain ⟨f, hf, rfl⟩ := exists_inner hj
    obtain ⟨w, hopen⟩ := hs.opens
    obtain ⟨g, hg'⟩ := inner_run hf hj hopen
    rw [hx] at hg'
    have hn := nodup_names_fields
    exact ⟨e, he, run_error hk (rowRun_next (fields_judge _) ht hw (hn _) ho
      fun d first l hd hl => repeated_member_field (hn _) hd hf hg hu hg' hl)⟩

/-- The decoder tells the first problem of an object in the order of its text: the first member that
offends, else the first field that is absent, else nothing. Fields that hold a record are wrong as
that record is. Whatever stands behind the comma of a member that offends, or of one in which
something does not fit, does not matter; and where an unknown name has no value, nothing behind it
does. -/
theorem first_problem {k : Kind} (hk : k ≠ vars) :
    (∀ (t : String) (ms : List Member), Object.padded t.toList ms →
      (∀ m ∈ ms, WellFormed none m.2) →
      (∀ e, firstOffence? k.fields [] ms = some e → k.decode t = .error e) ∧
      (firstOffence? k.fields [] ms = none →
        (∀ f, firstAbsent? k.fields (ms.map Prod.fst) = some f →
          ∃ c, k.decode t = .error (.misfit c) ∧ c.message = "missing field `" ++ f.name ++ "`") ∧
        (firstAbsent? k.fields (ms.map Prod.fst) = none → ∃ r, k.decode t = .ok r))) ∧
    (∀ f ∈ k.fields, ∀ j, k.inner f.name = some j → ∀ (t : String) (ms : List Member),
      Object.padded t.toList ms → fault? (f.format.decode t) = fault? (j.decode t)) ∧
    (∀ (t s : String) (ms : List Member) (e : Fault), Object.Front ms t.toList →
      (∀ m ∈ ms, WellFormed none m.2) → firstOffence? k.fields [] ms = some e →
      k.decode (t ++ s) = .error e) ∧
    (∀ (t s : String) (c : Misfit), k.decode t = .error (.misfit c) →
      k.decode (t ++ "," ++ s) = .error (.misfit c)) ∧
    ∀ t : String, k.LacksValue t.toList →
      k.decode t = .error .malformed ∨ k.decode t = .error .truncated := by
  refine ⟨?_, ?_, ?_, ?_, ?_⟩
  · intro t ms ht hw
    have h := fault?_decode_object hk ht hw
    refine ⟨fun e ho => ?_, fun ho => ⟨fun f ha => ?_, fun ha => ?_⟩⟩
    · rw [firstProblem?, ho] at h
      exact fault?_eq_some.1 h
    · rw [firstProblem?, ho, ha] at h
      exact ⟨_, fault?_eq_some.1 h, Misfit.message_missing f.name⟩
    · rw [firstProblem?, ho, ha] at h
      exact fault?_eq_none.1 h
  · intro f hf j hj t ms ht
    obtain ⟨u, hu⟩ := Object.opens ht
    obtain ⟨g, hr⟩ := inner_run hf hj hu
    exact fault?_decode_congr hr
  · intro t s ms e ht hw h
    apply Format.decode_error
    rw [String.toList_append]
    exact run_error hk (rowRun_offence k.fields_judge ht hw k.nodup_names_fields h s.toList)
  · intro t s c h
    rw [String.append_assoc]
    refine k.composed.firm.decode_append h ?_
    rw [String.toList_append]
    exact delimited_cons (.inr (.inl rfl))
  · intro t ht
    obtain ⟨e, rfl | rfl, hr⟩ := ht.run hk
    · exact .inl (Format.decode_error hr)
    · exact .inr (Format.decode_error hr)

def wrongNested : List Member :=
  [("u", "null".toList), ("remoteInfo", "[true]".toList), ("source", "true".toList)]

def sourceTwice : List Member := [("source", "\"s\"".toList), ("source", "null".toList)]

/-- A nested record that is wrong in front of a field that is, an unknown name alone, a record in an
optional field, a field twice in front of a bracket, a value of another type in front of an open
string, and a word that is cut in a nested record. -/
theorem first_problem_orb :
    orb ≠ vars ∧
    orb.decode "\x7b\"u\":null,\"remoteInfo\":[true],\"source\":true\x7d" =
      .error (.misfit (.wrongType (.boolean true) "path string")) ∧
    (∃ c, orb.decode "\x7b\"u\":null\x7d" = .error (.misfit c) ∧
      c.message = "missing field `" ++ "source" ++ "`") ∧
    fault? (OrbInterface.format.optional.decode "\x7b\"u\":null\x7d") =
      fault? (orbInterface.decode "\x7b\"u\":null\x7d") ∧
    orb.decode ("\x7b\"source\":\"s\",\"source\":null," ++ "]") =
      .error (.misfit (.duplicate "source")) ∧
    orb.decode ("\x7b\"source\":true" ++ "," ++ "\"") =
      .error (.misfit (.wrongType (.boolean true) "a string")) ∧
    (orb.decode "\x7b\"remoteInfo\":\x7b\"u\":tru,\"version\":1" = .error .malformed ∨
      orb.decode "\x7b\"remoteInfo\":\x7b\"u\":tru,\"version\":1" = .error .truncated) := by
  obtain ⟨hall, hinner, hfront, hafter, hlacks⟩ := first_problem (k := orb) (by decide)
  have hwrong : Object.padded
      "\x7b\"u\":null,\"remoteInfo\":[true],\"source\":true\x7d".toList wrongNested := by
    have hs : Separated Member.Spelled _ (wrongNested.map id) :=
      separated_commas _ id Member.spelled_write (by decide)
    rw [List.map_id] at hs
    exact ⟨[], _, [], blanks_nil, blanks_nil, .full hs, by decide⟩
  have hu : Object.padded "\x7b\"u\":null\x7d".toList [("u", "null".toList)] :=
    ⟨[], _, [], blanks_nil, blanks_nil, .full (.last (Member.spelled_write _)), by decide⟩
  refine ⟨by decide, (hall _ _ hwrong (by decide +kernel)).1 _ (by decide +kernel),
    ((hall _ _ hu (by decide +kernel)).2 (by decide +kernel)).1 (.required "source" (.text "a string"))
      (by rfl),
    hinner (.optional "parsedAttributes" OrbInterface.format) (by simp [fields, Orb.fields])
      orbInterface rfl _ _ hu,
    hfront _ _ sourceTwice _ ?_ (by decide +kernel) (by decide +kernel),
    hafter _ _ _ (fault?_eq_some.1 (by decide +kernel)), hlacks _ ?_⟩
  · have ht : "\x7b\"source\":\"s\",\"source\":null,".toList = [] ++ '\x7b' ::
        sourceTwice.flatMap fun m => Text.write m.1 ++ ':' :: m.2 ++ [','] := by decide
    rw [ht]
    exact .mk blanks_nil (leading_write _)
  · have named (name : String) := Member.Named.mk blanks_nil
      (Text.spelled_flatMap_escape name.toList) blanks_nil
    have hs : ¬ HoldsValue "tru,\"version\":1".toList := by decide +kernel
    have hi := LacksValue.here (k := orbOrigin) (.mk blanks_nil .nil) (by simp) rfl (named "u")
      (by decide) hs
    exact .inner (.mk blanks_nil .nil) (by simp) rfl (named "remoteInfo") rfl (by simp) hi

end Kind
end PipelineCache

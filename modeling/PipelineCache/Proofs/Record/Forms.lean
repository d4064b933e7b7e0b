import PipelineCache.Proofs.Record.Composed
import PipelineCache.Proofs.Json.Forms

/-! Each kind of record can be read in two forms, as an object of its members and as an array of its
fields' values in their order, and the two agree. -/
namespace PipelineCache
open Json

namespace Kind

theorem length_fields_ne_one (k : Kind) : k.fields.length ≠ 1 := by
  cases k <;> decide

/-- The values of the first fields, in either form and in any layout, give the same record where all
fields behind them have defaults; else the object misses a field by name that the array misses by
place. An array with more items than fields is malformed, whatever comes behind the next comma. -/
theorem forms_agree {k : Kind} (hk : k ≠ vars) {ts : List (List Char)}
    (h : TakesEach k.fields ts) :
    (∀ array object : String, Listing.padded array.toList ts →
      (Naming k.fields).padded object.toList ts →
      ((∀ f ∈ k.fields.drop ts.length, f.absent.isSome) →
        ∃ r, k.decode array = .ok r ∧ k.decode object = .ok r) ∧
      ((∃ f ∈ k.fields.drop ts.length, f.absent = none) →
        ∃ n f e e', k.fields[n]? = some f ∧ ts.length ≤ n ∧ f.absent = none ∧
          k.decode object = .error (.misfit e) ∧ k.decode array = .error (.misfit e') ∧
          e.message = "missing field `" ++ f.name ++ "`" ∧
          e'.message = "invalid length " ++ toString n ++ ", expected " ++ k.title ++ " with " ++
            toString k.fields.length ++ " elements")) ∧
    (ts.length = k.fields.length → ∀ (array : String) (b items more : List Char), Blanks b →
      Separated (Grammar.padded Eq) items ts →
      array.toList = b ++ '[' :: (items ++ ',' :: more) → k.decode array = .error .malformed) := by
  obtain ⟨ofRow, toRow, -, he⟩ := format_eq_record hk
  have hf := k.fields_steady
  simp only [decode, he]
  refine ⟨fun array object ha ho => ?_, fun hl array b items more hb hi ht =>
    decode_listing_further hf hb hi h hl ht⟩
  obtain ⟨hd, hr⟩ | ⟨n, f, hn, hle, hnone, hobject, harray⟩ :=
    decode_forms k.title ofRow toRow hf k.nodup_names_fields ha ho h
  · refine ⟨fun _ => hr, ?_⟩
    rintro ⟨f, hm, hnone⟩
    have hs := hd f hm
    rw [hnone] at hs
    cases hs
  · have hm : f ∈ k.fields.drop ts.length := by
      refine List.mem_of_getElem? (i := n - ts.length) ?_
      rw [List.getElem?_drop, Nat.add_sub_cancel' hle, hn]
    constructor
    · intro hd
      have hs := hd f hm
      rw [hnone] at hs
      cases hs
    · intro _
      exact ⟨n, f, _, _, hn, hle, hnone, hobject, harray, Misfit.message_missing _,
        Misfit.message_badLength k.length_fields_ne_one _ _⟩

theorem exists_of_isSome_toOption {α : Type} {x : Except Fault α} (h : x.toOption.isSome) :
    ∃ a, x = .ok a := by
  cases x with
  | error e => cases h
  | ok a => exact ⟨a, rfl⟩

/-- The values of an orb's first two fields, its origin in array form. -/
def nestedTexts : List (List Char) := ["\"s\"".toList, "[\"p\"]".toList]

theorem takesEach_nestedTexts : TakesEach orb.fields nestedTexts :=
  ⟨exists_of_isSome_toOption (by decide +kernel), exists_of_isSome_toOption (by decide +kernel),
    trivial⟩

def allTexts : List (List Char) := nestedTexts ++ ["null".toList]

theorem takesEach_allTexts : TakesEach orb.fields allTexts :=
  ⟨exists_of_isSome_toOption (by decide +kernel), exists_of_isSome_toOption (by decide +kernel),
    exists_of_isSome_toOption (by decide +kernel), trivial⟩

theorem takesEach_id : TakesEach context.fields ["null".toList] :=
  ⟨exists_of_isSome_toOption (by decide +kernel), trivial⟩

/-- Of an orb two fields of three, then all and one item more, and of a context only the first. -/
theorem forms_agree_nested :
    (TakesEach orb.fields nestedTexts ∧
      (∀ f ∈ orb.fields.drop nestedTexts.length, f.absent.isSome) ∧
      ∃ r, orb.decode "[\"s\",[\"p\"]]" = .ok r ∧
        orb.decode "\x7b\"source\":\"s\",\"remoteInfo\":[\"p\"]\x7d" = .ok r) ∧
    (TakesEach orb.fields allTexts ∧ orb.decode "[\"s\",[\"p\"],null,0]" = .error .malformed) ∧
    TakesEach context.fields ["null".toList] ∧
      ∃ n : Nat, ∃ f : Field, ∃ e e' : Misfit, context.fields[n]? = some f ∧
        context.decode "\x7b\"id\":null\x7d" = .error (.misfit e) ∧
        context.decode "[null]" = .error (.misfit e') ∧
        e.message = "missing field `" ++ f.name ++ "`" ∧
        e'.message = "invalid length " ++ toString n ++ ", expected " ++ context.title ++
          " with " ++ toString context.fields.length ++ " elements" := by
  have item (t : List Char) : Grammar.padded Eq t t := padded_of_spelled rfl
  have hmembers := Separated.more (Member.spelled_write ("source", "\"s\"".toList))
    (.last (Member.spelled_write ("remoteInfo", "[\"p\"]".toList)))
  have habsent : ∀ f ∈ orb.fields.drop nestedTexts.length, f.absent.isSome :=
    List.forall_mem_singleton.2 rfl
  obtain ⟨hboth, -⟩ := forms_agree (k := orb) (by decide) takesEach_nestedTexts
  obtain ⟨-, hmore⟩ := forms_agree (k := orb) (by decide) takesEach_allTexts
  obtain ⟨hid, -⟩ := forms_agree (k := context) (by decide) takesEach_id
  refine ⟨⟨takesEach_nestedTexts, habsent, ?_⟩, ⟨takesEach_allTexts, ?_⟩, takesEach_id, ?_⟩
  · exact (hboth _ _
      ⟨[], _, [], blanks_nil, blanks_nil, .full (.more (item _) (.last (item _))), by decide⟩
      ⟨[], _, [], blanks_nil, blanks_nil, .full hmembers, by decide⟩).1 habsent
  · exact hmore rfl "[\"s\",[\"p\"],null,0]" [] _ "0]".toList blanks_nil
      (.more (item _) (.more (item _) (.last (item _)))) (by decide)
  · obtain ⟨n, f, e, e', hn, -, -, he, he', hm, hm'⟩ :=
      (hid "[null]" "\x7b\"id\":null\x7d"
        ⟨[], _, [], blanks_nil, blanks_nil, .full (.last (item "null".toList)), by decide⟩
        ⟨[], _, [], blanks_nil, blanks_nil,
          .full (.last (Member.spelled_write ("id", "null".toList))), by decide⟩).2
        ⟨.required "name" (.text "a string"), by simp [fields, Context.fields], rfl⟩
    exact ⟨n, f, e, e', hn, he, he', hm, hm'⟩

end Kind
end PipelineCache

import PipelineCache.Proofs.Record.Composed
import PipelineCache.Proofs.Json.CutShort

/-! Where the text of a record ends. Its closing bracket ends it: blanks may follow and nothing else,
and what lacks the bracket is no record, nor said to hold a value that does not fit. -/
namespace PipelineCache
open Json

namespace Json.Format
variable {α : Type} {f : Format α} {t s p q : String} {a : α}

theorem decode_append (hb : Bounded f.reader.run) (h : f.decode t = .ok a) (s : String) :
    f.decode (t ++ s) = if (afterBlanks s.toList).isEmpty then .ok a else .error .malformed := by
  obtain ⟨r, hr, hblanks⟩ := run_of_decode h
  simp only [decode, String.toList_append, hb hr s.toList, afterBlanks_append r _ hblanks]

theorem decode_append_blanks (hb : Bounded f.reader.run) (h : f.decode t = .ok a)
    (hs : Blanks s.toList) : f.decode (t ++ s) = .ok a := by
  rw [decode_append hb h, afterBlanks_blanks hs]
  rfl

theorem decode_append_more (hb : Bounded f.reader.run) (h : f.decode t = .ok a)
    (hs : ¬ Blanks s.toList) : f.decode (t ++ s) = .error .malformed := by
  rw [decode_append hb h, if_neg fun he => hs (blanks_of_afterBlanks he)]

/-- A text that is a record once more than blanks are put behind it was none before, and held
nothing that does not fit. -/
theorem decode_front (hb : Bounded f.reader.run) (hf : f.Firm) (h : f.decode (p ++ q) = .ok a)
    (hq : ¬ Blanks q.toList) : f.decode p = .error .truncated ∨ f.decode p = .error .malformed := by
  cases hp : f.decode p with
  | ok b =>
    rw [decode_append_more hb hp hq] at h
    cases h
  | error e =>
    cases e with
    | malformed => exact .inr rfl
    | truncated => exact .inl rfl
    | misfit c =>
      obtain ⟨⟨e, he⟩, -⟩ := hf.lasts (run_of_misfit hp) q.toList
      rw [decode, String.toList_append, he] at h
      cases h

theorem decode_cut (hf : f.Breaks) (h : f.encode a = p ++ q) (hq : q ≠ "") :
    f.decode p = .error .truncated := by
  have hw : f.write a = p.toList ++ q.toList := by
    rw [← String.toList_append, ← h, encode, String.toList_ofList]
  have hq : q.toList ≠ [] := fun he => hq (String.toList_eq_nil_iff.1 he)
  simp only [decode, hf hw hq]

end Json.Format

namespace Kind

theorem bounded (k : Kind) : Bounded k.format.reader.run := by
  by_cases hk : k = vars
  · subst hk
    exact bounded_check (bounded_listRun (text_steady _).stops) _
  · obtain ⟨ofRow, toRow, -, he⟩ := format_eq_record hk
    rw [he]
    exact bounded_check (bounded_rowRun _ fun f hf => (k.fields_steady f hf).stops) _

theorem breaks (k : Kind) : k.format.Breaks := by
  by_cases hk : k = vars
  · subst hk
    exact (list_breaks (text_follows _).written (text_breaks _).shortens).refine _ _
  · obtain ⟨ofRow, toRow, -, he⟩ := format_eq_record hk
    rw [he]
    have hf := k.fields_composed
    exact (row_breaks _ (Grammars.follow_written (fun f hm => (hf f hm).format.follows)
      fun f hm => (hf f hm).omits) k.nodup_names_fields
      fun f hm => (hf f hm).format.shortens).refine _ _

/-- The text of a record is the same record with blanks behind it and malformed with anything else.
A front of it that lacks its closing bracket, so that more than blanks are missing, is cut short or
malformed, and cut short where the text is the one that is written. -/
theorem self_delimiting (k : Kind) :
    (∀ (t : String) (r : k.Record), k.decode t = .ok r →
      (∀ s : String, Blanks s.toList → k.decode (t ++ s) = .ok r) ∧
      (∀ s : String, ¬ Blanks s.toList → k.decode (t ++ s) = .error .malformed) ∧
      ∀ p q : String, t = p ++ q → ¬ Blanks q.toList →
        k.decode p = .error .truncated ∨ k.decode p = .error .malformed) ∧
    ∀ (r : k.Record) (p q : String), k.encode r = p ++ q → q ≠ "" →
      k.decode p = .error .truncated := by
  refine ⟨fun t r h => ⟨fun s hs => Format.decode_append_blanks k.bounded h hs,
    fun s hs => Format.decode_append_more k.bounded h hs, ?_⟩,
    fun r p q h hq => Format.decode_cut k.breaks h hq⟩
  rintro t q rfl hq
  exact Format.decode_front k.bounded k.composed.firm h hq

def checkedText : String := "\x7b\"checked\":true,\"exists\":false\x7d"

/-- Blanks, a comma and a cut within the second member, and a cut within the name of the first. -/
theorem self_delimiting_image :
    image.decode checkedText = .ok (.made false) ∧
    image.decode (checkedText ++ " \n") = .ok (.made false) ∧
    image.decode (checkedText ++ ",") = .error .malformed ∧
    (image.decode "\x7b\"checked\":true,\"exists\":false" = .error .truncated ∨
      image.decode "\x7b\"checked\":true,\"exists\":false" = .error .malformed) ∧
    image.decode "\x7b\"chec" = .error .truncated := by
  have hw : image.encode (.made false) = checkedText := by decide +kernel
  have hd : image.decode checkedText = .ok (.made false) := by
    rw [← hw]
    exact image.follows.decode_written _
  obtain ⟨hall, hcut⟩ := image.self_delimiting
  obtain ⟨hblanks, hmore, hfront⟩ := hall checkedText _ hd
  refine ⟨hd, hblanks _ ?_, hmore _ ?_, hfront _ "\x7d" ?_ ?_,
    hcut (.made false) _ "ked\":true,\"exists\":false\x7d" ?_ ?_⟩
  · simp [Blanks, isBlank]
  · simp [Blanks, isBlank]
  · decide
  · simp [Blanks, isBlank]
  · rw [hw]
    decide
  · decide

end Kind
end PipelineCache

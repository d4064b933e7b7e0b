import PipelineCache.Store.Basic
import PipelineCache.Proofs.Text.Quoted

/-! Messages of missing entries. Each belongs to one store and one key, and the key brings no
control character into it. -/
namespace PipelineCache.MissingEntry

/-- What stands in front of the quoted key. -/
def opening (m : MissingEntry) : List Char :=
  "no ".toList ++ m.store.toList ++ " entry for key ".toList

theorem getLast?_opening (m : MissingEntry) : m.opening.getLast? = some ' ' := by
  rw [opening, List.getLast?_append]
  rfl

theorem toList_messageWith (hidden : Char → Bool) (m : MissingEntry) :
    (m.messageWith hidden).toList =
      m.opening ++ '"' :: m.key.toList.flatMap (Text.quoteChar hidden) ++ ['"'] := by
  simp only [messageWith, opening, String.toList_append, Text.toList_quote, Text.quoteChars,
    List.append_assoc, List.cons_append]

theorem isControl_quote (hidden : Char → Bool) (s : String) :
    ∀ c ∈ (Text.quote hidden s).toList, Text.isControl c = false := by
  have hq : Text.isControl '"' = false := by decide
  have hs := (Text.shownText_flatMap hidden s.toList).isControl_of_mem
  rw [Text.toList_quote, Text.quoteChars]
  exact List.forall_mem_append.2 ⟨List.forall_mem_cons.2 ⟨hq, hs⟩, List.forall_mem_singleton.2 hq⟩

theorem messageWith_inj {hidden hidden' : Char → Bool} {m m' : MissingEntry}
    (h : m.messageWith hidden = m'.messageWith hidden') : m.store = m'.store ∧ m.key = m'.key := by
  have hshown := Text.shownText_flatMap hidden m.key.toList
  have hshown' := Text.shownText_flatMap hidden' m'.key.toList
  have hlast (m : MissingEntry) : m.opening.getLast? ≠ some '\\' := by
    simp [getLast?_opening]
  have hlist := congrArg String.toList h
  rw [toList_messageWith, toList_messageWith, List.append_cancel_right_eq] at hlist
  obtain ⟨hopening, hkey⟩ := hshown.opening_inj hshown' (hlast m) (hlast m') hlist
  have hstore : m.store = m'.store := by
    rw [opening, opening, List.append_cancel_right_eq, List.append_cancel_left_eq] at hopening
    exact String.toList_inj.1 hopening
  rw [hkey] at hshown
  exact ⟨hstore, String.toList_inj.1 (hshown.inj hshown')⟩

/-- Two messages are the same only for one store and one key, even where other characters are shown
by number in them. The quoted key holds no control character, so that all those of a message come
from the store's name. -/
theorem message_identifies (hidden hidden' : Char → Bool) (m m' : MissingEntry) :
    (m.messageWith hidden = m'.messageWith hidden' → m.store = m'.store ∧ m.key = m'.key) ∧
    (∀ c ∈ (Text.quote hidden m.key).toList, Text.isControl c = false) ∧
    (m.messageWith hidden).toList.filter Text.isControl = m.store.toList.filter Text.isControl := by
  refine ⟨messageWith_inj, isControl_quote hidden m.key, ?_⟩
  have hkey := List.filter_eq_nil_iff.2 fun c hc => by
    simpa using isControl_quote hidden m.key c hc
  have hno : "no ".toList.filter Text.isControl = [] := by decide
  have hentry : " entry for key ".toList.filter Text.isControl = [] := by decide
  simp only [messageWith, String.toList_append, List.filter_append, hkey, hno, hentry,
    List.append_nil, List.nil_append]

/-- The key of one message may look like the rest of another one. -/
theorem message_identifies_nested :
    let m : MissingEntry := ⟨"a", "b entry for key \"c"⟩
    let m' : MissingEntry := ⟨"a entry for key \"b", "c"⟩
    let accent : MissingEntry := ⟨"contexts", "é\n"⟩
    m.message ≠ m'.message ∧
      accent.message = accent.messageWith (fun _ => false) ∧
      (accent.store = "contexts" ∧ accent.key = "é\n") ∧
      accent.message.toList.filter Text.isControl = [] := by
  intro m m' accent
  have hsame : accent.message = accent.messageWith fun _ => false := by decide +kernel
  obtain ⟨hunique, -, hcontrol⟩ :=
    message_identifies Text.isHidden (fun _ => false) accent accent
  refine ⟨fun h => ?_, hsame, hunique hsame, hcontrol.trans (by decide)⟩
  have hstore := ((message_identifies Text.isHidden Text.isHidden m m').1 h).1
  exact absurd hstore (by decide)

end PipelineCache.MissingEntry

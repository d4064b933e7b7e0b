import PipelineCache.Files.Path

/-! Joining paths. A relative part adds its text behind one slash, and its components behind those
of the path; an absolute part replaces the path. -/
namespace PipelineCache.Path

/-- The slash in front of a further step: none where a path is empty or ends with one. -/
def gap (p : Path) : String := if p.isEmpty || p.text.toList.getLast? == some '/' then "" else "/"

theorem ext {p q : Path} (h : p.text.toList = q.text.toList) : p = q := by
  cases p
  cases q
  exact congrArg Path.mk (String.toList_inj.1 h)

theorem isEmpty_eq (p : Path) : p.isEmpty = p.text.toList.isEmpty := by
  rw [Bool.eq_iff_iff, isEmpty, String.isEmpty_iff, List.isEmpty_iff, String.toList_eq_nil_iff]

theorem join_of_isAbsolute {q : String} (p : Path) (h : Path.isAbsolute ⟨q⟩) : p.join q = ⟨q⟩ :=
  ext ((toList_join p q).trans (if_pos h))

section
variable {q : String} (p : Path) (h : Path.isAbsolute ⟨q⟩ = false)
include h

theorem toList_join_of_relative : (p.join q).text.toList =
    p.text.toList ++ p.gap.toList ++ q.toList := by
  rw [toList_join, joinChars, ← isEmpty_eq]
  simp only [isAbsolute] at h
  simp only [h, gap, Bool.false_eq_true, if_false]
  split <;> simp

theorem text_join : (p.join q).text = p.text ++ p.gap ++ q := by
  rw [← String.toList_inj, toList_join_of_relative p h]
  simp

/-- A part that leaves something behind its last slash needs a slash behind it. -/
theorem gap_join (hq : q.toList ≠ []) (hl : q.toList.getLast? ≠ some '/') :
    (p.join q).gap = "/" := by
  simp only [gap, isEmpty_eq, toList_join_of_relative p h]
  simp [List.getLast?_append, hq, hl]

theorem isAbsolute_join (hp : p.isEmpty = false) : (p.join q).isAbsolute = p.isAbsolute := by
  rw [isEmpty_eq, List.isEmpty_eq_false_iff] at hp
  simp only [isAbsolute, startsAtRoot, toList_join_of_relative p h, List.append_assoc]
  obtain ⟨c, t, ht⟩ := List.exists_cons_of_ne_nil hp
  rw [ht, List.cons_append, List.head?_cons, List.head?_cons]

end

theorem componentChars_append_sep (s t : List Char) :
    componentChars (s ++ '/' :: t) =
      componentChars s ++ (Text.pieces '/' t).filter countsInside := by
  simp only [componentChars, Text.pieces_append_sep]
  cases hs : Text.pieces '/' s with
  | nil => exact absurd hs (Text.pieces_ne_nil '/' s)
  | cons c cs => simp

/-- A slash at the end makes no difference. -/
theorem componentChars_append_slash (s : List Char) :
    componentChars (s ++ ['/']) = componentChars s := by
  rw [componentChars_append_sep]
  exact List.append_nil _

theorem componentChars_joinChars {p q : List Char} (hp : p ≠ []) (hq : startsAtRoot q = false) :
    componentChars (joinChars p q) =
      componentChars p ++ (Text.pieces '/' q).filter countsInside := by
  rw [joinChars, hq, if_neg Bool.false_ne_true]
  split
  · next hl =>
    have hl : p.getLast? = some '/' := by simpa [hp] using hl
    obtain ⟨s, rfl⟩ := List.getLast?_eq_some_iff.1 hl
    rw [List.append_assoc, List.singleton_append, componentChars_append_sep,
      componentChars_append_slash]
  · exact componentChars_append_sep p q

/-- The components of a part that stands behind others: a dot at its start does not count. -/
def inner (q : String) : List String :=
  ((Text.pieces '/' q.toList).filter countsInside).map String.ofList

theorem view_join {p : Path} {q : String} (hp : p.isEmpty = false)
    (hq : Path.isAbsolute ⟨q⟩ = false) :
    (p.join q).view = ⟨p.isAbsolute, p.view.components ++ inner q⟩ := by
  have hne : p.text.toList ≠ [] := by
    rwa [isEmpty_eq, List.isEmpty_eq_false_iff] at hp
  simp only [view, isAbsolute_join p hq hp, toList_join, componentChars_joinChars hne hq, inner,
    List.map_append]

/-- A single step that is no dot is one component more. -/
theorem view_join_name (p : Path) {name : String} (hs : '/' ∉ name.toList)
    (hc : countsInside name.toList) :
    (p.join name).view = ⟨p.isAbsolute, p.view.components ++ [name]⟩ := by
  have hne : name.toList ≠ [] := by
    intro he
    simp [countsInside, he] at hc
  have hq : Path.isAbsolute ⟨name⟩ = false := by
    rw [isAbsolute, startsAtRoot, beq_eq_false_iff_ne]
    exact fun hh => hs (List.mem_of_head? hh)
  cases hp : p.isEmpty with
  | false =>
    rw [view_join hp hq, inner, Text.pieces_of_not_mem hs]
    simp [hc]
  | true =>
    have ht : p.text = "" := by simpa [isEmpty] using hp
    have hj : p.join name = ⟨name⟩ := ext (by simp [toList_join_of_relative p hq, gap, hp, ht])
    rw [hj, view, hq]
    simp [view, isAbsolute, startsAtRoot, componentChars, ht, Text.pieces, Text.pieces_of_not_mem hs,
      hne]

theorem view_foldl_join (p : Path) {names : List String}
    (h : ∀ name ∈ names, '/' ∉ name.toList ∧ countsInside name.toList) :
    (names.foldl join p).view = ⟨p.isAbsolute, p.view.components ++ names⟩ := by
  induction names generalizing p with
  | nil => simp [view]
  | cons name names ih =>
    obtain ⟨hs, hc⟩ := h name (.head names)
    have hv := view_join_name p hs hc
    have ha : (p.join name).isAbsolute = p.isAbsolute := congrArg View.absolute hv
    rw [List.foldl_cons, ih (p.join name) fun n hn => h n (.tail name hn), hv, ha]
    simp

/-- The first components of one path are those of the other. -/
def View.IsPrefix (v w : View) : Prop :=
  v.absolute = w.absolute ∧ v.components <+: w.components

theorem isPrefix_view_join {p : Path} {q : String} (hp : p.isEmpty = false)
    (hq : Path.isAbsolute ⟨q⟩ = false) : p.view.IsPrefix (p.join q).view := by
  rw [view_join hp hq]
  exact ⟨rfl, List.prefix_append _ _⟩

end PipelineCache.Path

import PipelineCache.Uri.Basic
import PipelineCache.Proofs.Uri.Reference

/-! Where a text shows that it is no URI reference: at one of its characters. -/
namespace PipelineCache
namespace Uri

variable {α β : Type} {s : Scan α} {p : Char → Bool} {t u r x : List Char} {m : Char}

/-- A scan that stops does so in front of a character of the text. -/
def Within (t : List Char) (s : Scan α) : Prop :=
  ∀ reason r, s = .error (reason, r) → r <:+ t ∧ r ≠ []

namespace Within

theorem ok (a : α) : Within t (.ok a : Scan α) := nofun

theorem error {reason : Reason} (h : r <:+ t) (hr : r ≠ []) :
    Within t (.error (reason, r) : Scan α) := by
  rintro _ _ ⟨⟩
  exact ⟨h, hr⟩

theorem of_suffix (h : Within r s) (hr : r <:+ t) : Within t s :=
  fun reason q hq => ⟨(h reason q hq).1.trans hr, (h reason q hq).2⟩

theorem bind {f : α → Scan β} (hs : Within t s) (hf : ∀ a, s = .ok a → Within t (f a)) :
    Within t (s >>= f) := by
  intro reason r h
  match s, hs, hf with
  | .error e, hs, _ =>
    cases h
    exact hs reason r rfl
  | .ok a, _, hf => exact hf a rfl reason r h

theorem map {f : α → β} (hs : Within t s) : Within t (s.map f) := by
  intro reason r h
  match s, hs with
  | .error e, hs =>
    cases h
    exact hs reason r rfl

end Within

/-! Each scan of a part -/

theorem run_within (p : Char → Bool) (t : List Char) : Within t (run p t) := by
  fun_induction run p t with
  | case2 a b t _ e hs ih =>
    rw [← hs]
    exact ih.of_suffix (List.suffix_append ['%', a, b] t)
  | case6 c t _ _ _ e hs ih =>
    rw [← hs]
    exact ih.of_suffix (List.suffix_cons c t)
  | case4 => exact .error List.suffix_rfl (by simp)
  | case5 => exact .error List.suffix_rfl (by simp)
  | case1 | case3 | case7 | case8 => exact .ok _

theorem behind_within (p : Char → Bool) (t : List Char) : Within t (behind p t) :=
  (run_within p t).map

theorem behind_suffix (h : behind p t = .ok r) : r <:+ t := by
  obtain ⟨x, -, rfl, -⟩ := behind_sound h
  exact List.suffix_append x r

theorem part_within (m : Char) (t : List Char) : Within t (part m t) := by
  cases t with
  | nil => exact .ok _
  | cons c t =>
    rw [part]
    split
    · exact (behind_within isQueryChar t).of_suffix (List.suffix_cons c t)
    · exact .ok _

theorem part_suffix (h : part m t = .ok r) : r <:+ t := by
  obtain ⟨x, -, rfl⟩ := part_sound h
  exact List.suffix_append x r

theorem finish_within (t : List Char) : Within t (finish t) := by
  cases t with
  | nil => exact .ok _
  | cons c t => exact .error List.suffix_rfl (by simp)

theorem ending_within (t : List Char) : Within t (ending t) := by
  refine (part_within '?' t).bind fun r hr => ?_
  refine Within.of_suffix ?_ (part_suffix hr)
  refine (part_within '#' r).bind fun q hq => ?_
  exact (finish_within q).of_suffix (part_suffix hq)

theorem path_within (t : List Char) : Within t (path t) :=
  (behind_within isPathChar t).bind fun r hr => (ending_within r).of_suffix (behind_suffix hr)

theorem rootedPath_within (t : List Char) : Within t (rootedPath t) := by
  refine (run_within isPathChar t).bind fun ⟨x, r⟩ hr => ?_
  obtain ⟨-, rfl, -⟩ := run_sound hr
  dsimp only
  split
  next => exact (ending_within r).of_suffix (List.suffix_append x r)
  next hx =>
    refine .error List.suffix_rfl ?_
    cases x with
    | nil => exact absurd rfl hx
    | cons c x => simp

/-! Authorities -/

theorem behindPort_suffix (t : List Char) : behindPort t <:+ t := by
  obtain ⟨x, -, h⟩ := behindPort_sound t
  exact ⟨x, h.symm⟩

theorem literal_within (t : List Char) : Within ('[' :: t) (literal t) := by
  unfold literal
  split
  · exact .error List.suffix_rfl (by simp)
  · split
    · exact .ok _
    · exact .error List.suffix_rfl (by simp)

theorem host_within (t : List Char) : Within t (host t) := by
  unfold host
  split
  · exact (literal_within _).map
  · exact (behind_within isHostChar _).map

theorem host_suffix (h : host t = .ok r) : r <:+ t := by
  obtain ⟨x, -, rfl⟩ := host_sound h
  exact List.suffix_append x r

theorem fromLastNonDigit_ne_nil (h : ¬ t.all Char.isDigit) : fromLastNonDigit t ≠ [] := by
  have pos : t ≠ [] := by
    rintro rfl
    exact h rfl
  have := List.length_pos_iff.mpr pos
  rw [fromLastNonDigit, ne_eq, List.drop_eq_nil_iff]
  omega

theorem append_suffix (h : x <:+ t) (r : List Char) : x ++ r <:+ t ++ r := by
  obtain ⟨y, rfl⟩ := h
  exact ⟨y, (List.append_assoc y x r).symm⟩

theorem plainHost_within (u r : List Char) : Within (u ++ r) (plainHost u r) := by
  have suffix : u.dropWhile (· != ':') ++ r <:+ u ++ r :=
    append_suffix (List.dropWhile_suffix _) r
  unfold plainHost
  split
  next => exact .ok _
  next c port hu =>
    rw [hu] at suffix
    split
    · exact .error suffix (by simp)
    · split
      · exact .ok _
      next hp =>
        refine .error ?_ (by simp [fromLastNonDigit_ne_nil hp])
        refine List.IsSuffix.trans ?_ suffix
        exact append_suffix ((List.drop_suffix _ _).trans (List.suffix_cons c port)) r

theorem authority_within (t : List Char) : Within t (authority t) := by
  refine (run_within isAuthorityChar t).bind fun ⟨u, r⟩ hr => ?_
  obtain ⟨-, rfl, -⟩ := run_sound hr
  dsimp only
  split
  next r =>
    refine Within.of_suffix ?_ (List.suffix_append u ('@' :: r))
    refine Within.of_suffix ?_ (List.suffix_cons '@' r)
    exact (host_within r).bind fun q hq => (rootedPath_within q).of_suffix (host_suffix hq)
  next r =>
    refine (literal_within r).bind fun q hq => ?_
    obtain ⟨a, -, rfl⟩ := literal_eq_ok.mp hq
    refine (rootedPath_within _).of_suffix ((behindPort_suffix q).trans ?_)
    exact ⟨'[' :: a ++ [']'], by simp⟩
  next =>
    refine (plainHost_within u r).bind fun _ _ => ?_
    exact (rootedPath_within r).of_suffix (List.suffix_append _ r)

/-! References -/

theorem hierarchy_within (t : List Char) : Within t (hierarchy t) := by
  unfold hierarchy
  split
  next u => exact (authority_within u).of_suffix (List.suffix_append ['/', '/'] u)
  next => exact path_within t

theorem relative_within (t : List Char) : Within t (relative t) := by
  refine (behind_within isColonless t).bind fun r hr => ?_
  refine Within.of_suffix ?_ (behind_suffix hr)
  split
  next => exact .error List.suffix_rfl (by simp)
  next => exact path_within r

theorem reference_within (t : List Char) : Within t (reference t) := by
  have split : t.dropWhile isSchemeChar <:+ t := List.dropWhile_suffix _
  unfold reference
  split
  next r hd =>
    rw [hd] at split
    split
    · exact (hierarchy_within r).of_suffix ((List.suffix_cons ':' r).trans split)
    · refine .error List.suffix_rfl ?_
      rintro rfl
      cases hd
  next r _ hd =>
    rw [hd] at split
    exact (authority_within r).of_suffix ((List.suffix_append ['/', '/'] r).trans split)
  next => exact (relative_within _).of_suffix split

/-! The index of a fault -/

theorem byteLength_eq (t : List Char) : Text.byteLength t = (String.ofList t).utf8ByteSize := by
  induction t with
  | nil => rfl
  | cons c t ih => simp [Text.byteLength, ih, String.ofList_cons]

/-- A text is refused at one of its characters. -/
theorem fault_index {v : String} {f : Fault} (h : parse v = .error f) :
    f.index < v.utf8ByteSize ∧ (String.Pos.Raw.mk f.index).IsValid v := by
  unfold parse at h
  split at h
  next => cases h
  next reason rest hr =>
    cases h
    obtain ⟨⟨before, hv⟩, hne⟩ := reference_within _ _ _ hr
    have split : v = String.ofList before ++ String.ofList rest := by
      rw [← String.ofList_append, hv, String.ofList_toList]
    have size : 0 < Text.byteLength rest :=
      Nat.lt_of_lt_of_le (List.length_pos_iff.mpr hne) (Text.length_le_byteLength rest)
    rw [← hv, Text.byteLength_append, Nat.add_sub_cancel]
    refine ⟨?_, ?_⟩ <;> dsimp only
    · rw [split, String.utf8ByteSize_append, ← byteLength_eq, ← byteLength_eq]
      omega
    · refine String.Pos.Raw.isValid_iff_exists_append.mpr ⟨_, _, split, ?_⟩
      rw [byteLength_eq]
      rfl

end Uri
end PipelineCache

import PipelineCache.Text.Quoted

/-! Quoted text can be read in one way only, whichever characters are shown by number, and its
opening quote is found from the end: the quotes inside stand behind a backslash each. -/
namespace PipelineCache.Text

/-- Digits of numbers below 16 are told apart. -/
theorem digitChar_inj {m n : Nat} (hm : m < 16) (hn : n < 16) (h : m.digitChar = n.digitChar) :
    m = n := by
  have hall : ∀ m < 16, ∀ n < 16, m.digitChar = n.digitChar → m = n := by decide
  exact hall m hm n hn h

theorem hexDigits_inj {m n : Nat} (h : hexDigits m = hexDigits n) : m = n := by
  -- Both numbers lose their last digit, until one is left of each.
  induction m using Nat.strongRecOn generalizing n with
  | ind m ih =>
    simp only [hexDigits] at h ih
    rw [Nat.toDigits_eq_if (by decide), Nat.toDigits_eq_if (n := n) (by decide)] at h
    split at h
    · next hm =>
      split at h
      · next hn => exact digitChar_inj hm hn (List.singleton_inj.1 h)
      · exact absurd (List.append_eq_singleton_iff.1 h.symm) (by simp [Nat.toDigits_ne_nil])
    · next hm =>
      split at h
      · exact absurd (List.append_eq_singleton_iff.1 h) (by simp [Nat.toDigits_ne_nil])
      · obtain ⟨hd, hl⟩ := List.append_inj' h rfl
        have hdiv : m / 16 = n / 16 := ih (m / 16) (by omega) hd
        have hmod := digitChar_inj (Nat.mod_lt m (by decide)) (Nat.mod_lt n (by decide))
          (List.singleton_inj.1 hl)
        omega

theorem exists_of_mem_hexDigits {n : Nat} {c : Char} (h : c ∈ hexDigits n) :
    ∃ k < 16, c = k.digitChar := by
  induction n using Nat.strongRecOn with
  | ind n ih =>
    simp only [hexDigits] at h ih
    rw [Nat.toDigits_eq_if (by decide)] at h
    split at h
    · next hn => exact ⟨n, hn, List.mem_singleton.1 h⟩
    · obtain h | h := List.mem_append.1 h
      · exact ih (n / 16) (by omega) h
      · exact ⟨n % 16, Nat.mod_lt n (by decide), List.mem_singleton.1 h⟩

theorem of_mem_hexDigits {n : Nat} {c : Char} (h : c ∈ hexDigits n) :
    c ≠ '}' ∧ c ≠ '"' ∧ isControl c = false := by
  obtain ⟨k, hk, rfl⟩ := exists_of_mem_hexDigits h
  have hall : ∀ k < 16, k.digitChar ≠ '}' ∧ k.digitChar ≠ '"' ∧ isControl k.digitChar = false := by
    decide
  exact hall k hk

/-- The brace behind a number shows where it ends. -/
theorem hexDigits_append_inj {m n : Nat} {u v : List Char}
    (h : hexDigits m ++ '}' :: u = hexDigits n ++ '}' :: v) : m = n ∧ u = v := by
  have digits (n : Nat) (u : List Char) :
      (hexDigits n ++ '}' :: u).takeWhile (· != '}') = hexDigits n := by
    rw [List.takeWhile_append_of_pos fun c hc => by simpa using (of_mem_hexDigits hc).1]
    simp
  have hd : hexDigits m = hexDigits n := by rw [← digits m u, h, digits]
  obtain rfl := hexDigits_inj hd
  exact ⟨rfl, (List.cons.inj (List.append_cancel_left h)).2⟩

/-- Characters with a letter of their own behind a backslash. -/
def shortForms : List (Char × Char) :=
  [('"', '"'), ('\\', '\\'), ('\n', 'n'), ('\r', 'r'), ('\t', 't'), ('\x00', '0')]

/-- The ways in which a character may be shown inside quotes. -/
inductive Shown (c : Char) : List Char → Prop
  | short {e : Char} (h : (c, e) ∈ shortForms) : Shown c ['\\', e]
  | number : Shown c (byNumber c)
  | plain (hq : c ≠ '"') (hb : c ≠ '\\') (hc : isControl c = false) : Shown c [c]

theorem shown_quoteChar (hidden : Char → Bool) (c : Char) : Shown c (quoteChar hidden c) := by
  unfold quoteChar
  split
  · next h =>
    obtain rfl | rfl := h
    · exact .short (by decide)
    · exact .short (by decide)
  · next hq =>
    split
    · next h => exact h ▸ .short (by decide)
    split
    · next h => exact h ▸ .short (by decide)
    split
    · next h => exact h ▸ .short (by decide)
    split
    · next h => exact h ▸ .short (by decide)
    split
    · exact .number
    · next h =>
      rw [not_or] at hq h
      exact .plain hq.1 hq.2 (by simpa using h.1)

namespace Shown
variable {c d : Char} {s t u v : List Char}

theorem ne_nil (h : Shown c s) : s ≠ [] := by
  cases h <;> simp [byNumber]

/-- No way of showing a character is the beginning of a way of showing another one. -/
theorem inj (hc : Shown c s) (hd : Shown d t) (h : s ++ u = t ++ v) : c = d ∧ u = v := by
  have letter {a e : Char} (ha : (a, e) ∈ shortForms) : e ≠ 'u' := by
    have hall : ∀ p ∈ shortForms, p.2 ≠ 'u' := by decide
    exact hall _ ha
  cases hc with
  | @short e hce =>
    cases hd with
    | @short f hdf =>
      simp only [List.cons_append, List.nil_append, List.cons.injEq, true_and] at h
      obtain ⟨rfl, huv⟩ := h
      have hall : ∀ p ∈ shortForms, ∀ q ∈ shortForms, p.2 = q.2 → p.1 = q.1 := by decide
      exact ⟨hall _ hce _ hdf rfl, huv⟩
    | number =>
      simp only [byNumber, List.cons_append, List.nil_append, List.cons.injEq, true_and] at h
      exact absurd h.1 (letter hce)
    | plain _ hb _ =>
      simp only [List.cons_append, List.cons.injEq] at h
      exact absurd h.1.symm hb
  | number =>
    cases hd with
    | short hdf =>
      simp only [byNumber, List.cons_append, List.nil_append, List.cons.injEq, true_and] at h
      exact absurd h.1.symm (letter hdf)
    | number =>
      simp only [byNumber, List.cons_append, List.nil_append, List.append_assoc, List.cons.injEq,
        true_and] at h
      obtain ⟨hn, huv⟩ := hexDigits_append_inj h
      exact ⟨Char.toNat_inj.1 hn, huv⟩
    | plain _ hb _ =>
      simp only [byNumber, List.cons_append, List.cons.injEq] at h
      exact absurd h.1.symm hb
  | plain _ hb _ =>
    cases hd with
    | short _ =>
      simp only [List.cons_append, List.cons.injEq] at h
      exact absurd h.1 hb
    | number =>
      simp only [byNumber, List.cons_append, List.cons.injEq] at h
      exact absurd h.1 hb
    | plain => simpa using h

theorem of_mem_byNumber (h : d ∈ byNumber c) : d ≠ '"' ∧ isControl d = false := by
  simp only [byNumber, List.mem_append, List.mem_cons, List.not_mem_nil, or_false] at h
  obtain (h | h) | rfl := h
  · obtain rfl | rfl | rfl := h <;> decide
  · exact (of_mem_hexDigits h).2
  · decide

/-- A quote is shown behind a backslash. -/
theorem getLast?_of_quote (hc : Shown c (s ++ '"' :: t)) : s.getLast? = some '\\' := by
  generalize hu : s ++ '"' :: t = u at hc
  cases hc with
  | short =>
    cases s with
    | nil => cases hu
    | cons a s =>
      obtain ⟨rfl, hs⟩ := List.cons.inj hu
      obtain rfl : s = [] := by
        have hl := congrArg List.length hs
        simp at hl
        exact List.length_eq_zero_iff.1 (by omega)
      rfl
  | number =>
    have hm : '"' ∈ byNumber c := hu ▸ List.mem_append_right s List.mem_cons_self
    exact absurd rfl (of_mem_byNumber hm).1
  | plain hq =>
    have hm : '"' ∈ [c] := hu ▸ List.mem_append_right s List.mem_cons_self
    exact absurd (List.mem_singleton.1 hm).symm hq

theorem isControl_of_mem (hc : Shown c s) : ∀ d ∈ s, isControl d = false := by
  cases hc with
  | short h =>
    have hall : ∀ p ∈ shortForms, isControl p.2 = false := by decide
    simp [hall _ h, show isControl '\\' = false by decide]
  | number => exact fun d hd => (of_mem_byNumber hd).2
  | plain _ _ hc => simpa using hc

end Shown

/-- A text as it may be shown inside quotes, each of its characters in some way. -/
inductive ShownText : List Char → List Char → Prop
  | nil : ShownText [] []
  | cons {c : Char} {s t u : List Char} (hc : Shown c t) (hs : ShownText s u) :
      ShownText (c :: s) (t ++ u)

theorem shownText_flatMap (hidden : Char → Bool) (s : List Char) :
    ShownText s (s.flatMap (quoteChar hidden)) := by
  induction s with
  | nil => exact .nil
  | cons c s ih => exact .cons (shown_quoteChar hidden c) ih

namespace ShownText
variable {s s' t t' : List Char}

theorem inj (h : ShownText s t) (h' : ShownText s' t) : s = s' := by
  induction h generalizing s' with
  | nil =>
    generalize ht : [] = t at h'
    cases h' with
    | nil => rfl
    | cons hc => exact absurd (List.append_eq_nil_iff.1 ht.symm).1 hc.ne_nil
  | @cons c s t u hc hs ih =>
    generalize ht : t ++ u = w at h'
    cases h' with
    | nil => exact absurd (List.append_eq_nil_iff.1 ht).1 hc.ne_nil
    | cons hd hs' =>
      obtain ⟨rfl, rfl⟩ := hc.inj hd ht
      rw [ih hs']

theorem getLast?_of_quote {u v : List Char} (h : ShownText s (u ++ '"' :: v)) :
    u.getLast? = some '\\' := by
  generalize ht : u ++ '"' :: v = t at h
  induction h generalizing u with
  | nil => simp at ht
  | @cons c s t w hc hs ih =>
    obtain ⟨x, rfl, hv⟩ | ⟨x, rfl, hw⟩ := List.append_eq_append_iff.1 ht
    · cases x with
      | nil =>
        have hnil : ([] : List Char).getLast? = some '\\' := ih hv
        cases hnil
      | cons a x =>
        obtain ⟨rfl, -⟩ := List.cons.inj hv
        exact hc.getLast?_of_quote
    · rw [List.getLast?_append, ih hw.symm]
      rfl

theorem isControl_of_mem (h : ShownText s t) : ∀ d ∈ t, isControl d = false := by
  induction h with
  | nil => simp
  | cons hc _ ih => exact List.forall_mem_append.2 ⟨hc.isControl_of_mem, ih⟩

/-- Where no backslash stands in front of an opening quote, nothing of the shown text can be taken
for one. -/
theorem eq_nil_of_opening {u x : List Char} (h : ShownText s t) (hx : '"' :: t = x ++ '"' :: t')
    (hu : (u ++ x).getLast? ≠ some '\\') : x = [] := by
  cases x with
  | nil => rfl
  | cons a x =>
    obtain ⟨-, rfl⟩ := List.cons.inj hx
    have hl := h.getLast?_of_quote
    rw [List.getLast?_append, List.getLast?_cons, hl] at hu
    exact absurd rfl hu

/-- The opening quote divides a text in one way. -/
theorem opening_inj {u u' : List Char} (h : ShownText s t) (h' : ShownText s' t')
    (hu : u.getLast? ≠ some '\\') (hu' : u'.getLast? ≠ some '\\')
    (heq : u ++ '"' :: t = u' ++ '"' :: t') : u = u' ∧ t = t' := by
  obtain ⟨x, rfl, hx⟩ | ⟨x, rfl, hx⟩ := List.append_eq_append_iff.1 heq
  · obtain rfl := h.eq_nil_of_opening hx hu'
    exact ⟨(List.append_nil u).symm, (List.cons.inj hx).2⟩
  · obtain rfl := h'.eq_nil_of_opening hx hu
    exact ⟨List.append_nil u', (List.cons.inj hx).2.symm⟩

end ShownText

end PipelineCache.Text

import PipelineCache.Json.Text

/-! The spellings of a string: any character may stand for itself or be given by number, some have a
short escape, and what lies beyond 16 bits is given as two surrogates. Each spelling of a string is
read as that string, and the text that is written is one of them. A string that is passed over may
hold surrogates that stand alone. -/
namespace PipelineCache.Json.Text

/-- Four hexadecimal digits in either case, and the number that they give. -/
inductive Digits : List Char → Nat → Prop
  | mk {a b c d : Char} {i j k l : Nat} (ha : hexValue? a = some i) (hb : hexValue? b = some j)
      (hc : hexValue? c = some k) (hd : hexValue? d = some l) :
      Digits [a, b, c, d] (((i * 16 + j) * 16 + k) * 16 + l)

inductive SpelledChar : List Char → Char → Prop
  | raw {c : Char} (hr : isRaw c) (hq : c ≠ '"') (hb : c ≠ '\\') : SpelledChar [c] c
  | short {e c : Char} (h : escaped? e = some c) : SpelledChar ['\\', e] c
  | number {u : List Char} {c : Char} (h : Digits u c.toNat) : SpelledChar ('\\' :: 'u' :: u) c
  | pair {u v : List Char} {lead trail : Nat} {c : Char} (hu : Digits u lead) (hv : Digits v trail)
      (hl : isLeading lead) (ht : isTrailing trail)
      (hc : c.toNat = 0x10000 + (lead - 0xd800) * 0x400 + (trail - 0xdc00)) :
      SpelledChar ('\\' :: 'u' :: (u ++ '\\' :: 'u' :: v)) c

inductive Spelled : List Char → List Char → Prop
  | nil : Spelled [] []
  | cons {t s u : List Char} {c : Char} (h : SpelledChar t c) (hs : Spelled s u) :
      Spelled (t ++ s) (c :: u)

inductive PassedChar : List Char → Prop
  | raw {c : Char} (hr : isRaw c) (hq : c ≠ '"') (hb : c ≠ '\\') : PassedChar [c]
  | short {e c : Char} (h : escaped? e = some c) : PassedChar ['\\', e]
  | number {u : List Char} {n : Nat} (h : Digits u n) : PassedChar ('\\' :: 'u' :: u)

/-- The characters of a string that is passed over. -/
inductive Passed : List Char → Prop
  | nil : Passed []
  | cons {t s : List Char} (h : PassedChar t) (hs : Passed s) : Passed (t ++ s)

theorem codeUnit_digits {u : List Char} {n : Nat} (h : Digits u n) (t : List Char) :
    codeUnit (u ++ t) = .ok (n, t) := by
  cases h with
  | mk ha hb hc hd => simp [codeUnit, ha, hb, hc, hd]

theorem toNat_not_surrogate (c : Char) : c.toNat < 0xd800 ∨ 0xdfff < c.toNat := by
  have h := c.valid
  simp only [UInt32.isValidChar, Nat.isValidChar] at h
  change c.toNat < 0xd800 ∨ (0xdfff < c.toNat ∧ c.toNat < 0x110000) at h
  omega

theorem trailing_digits {v : List Char} {lead trail : Nat} {c : Char} (hv : Digits v trail)
    (ht : isTrailing trail) (hc : c.toNat = 0x10000 + (lead - 0xd800) * 0x400 + (trail - 0xdc00))
    (t : List Char) : trailing lead ('\\' :: 'u' :: (v ++ t)) = .ok (c, t) := by
  have hp : paired lead trail = c := by rw [paired, ← hc, Char.ofNat_toNat]
  simp [trailing, codeUnit_digits hv, ht, hp]

theorem numbered_digits {u : List Char} {c : Char} (h : Digits u c.toNat) (t : List Char) :
    numbered (u ++ t) = .ok (c, t) := by
  have hs := toNat_not_surrogate c
  have hl : isLeading c.toNat = false := by simp [isLeading]; omega
  have ht : isTrailing c.toNat = false := by simp [isTrailing]; omega
  simp [numbered, codeUnit_digits h, hl, ht]

theorem numbered_pair {u v : List Char} {lead trail : Nat} {c : Char} (hu : Digits u lead)
    (hv : Digits v trail) (hl : isLeading lead) (ht : isTrailing trail)
    (hc : c.toNat = 0x10000 + (lead - 0xd800) * 0x400 + (trail - 0xdc00)) (t : List Char) :
    numbered (u ++ '\\' :: 'u' :: (v ++ t)) = .ok (c, t) := by
  have hn : isTrailing lead = false := by
    simp only [isLeading, Bool.and_eq_true, decide_eq_true_eq] at hl
    simp [isTrailing]; omega
  simp only [numbered, codeUnit_digits hu, hn, hl, trailing_digits hv ht hc]
  simp

theorem character_spelled {s : List Char} {c : Char} (h : SpelledChar s c) (t : List Char) :
    character (s ++ t) = .ok (some c, t) := by
  cases h with
  | raw hr hq hb =>
    unfold character
    split <;> simp_all
  | @short e _ h =>
    have hu : e ≠ 'u' := by
      intro he
      subst he
      cases h
    simp [character, h]
  | number h => simp [character, numbered_digits h]
  | pair hu hv hl ht hc => simp [character, numbered_pair hu hv hl ht hc]

theorem gather_spelled {s : List Char} {c : Char} (h : SpelledChar s c) (got t : List Char) :
    (gather got).run (s ++ t) = .ok (.inl (c :: got), t) := by
  have h : (⟨character, length_character⟩ : Reader _).run (s ++ t) = .ok (some c, t) :=
    character_spelled h t
  exact Reader.run_map h

theorem gather_quote (got t : List Char) :
    (gather got).run ('"' :: t) = .ok (.inr (String.ofList got.reverse), t) := by
  have h : (⟨character, length_character⟩ : Reader _).run ('"' :: t) = .ok (none, t) := rfl
  exact Reader.run_map h

theorem repeated_gather_spelled {s u : List Char} (h : Spelled s u) (got t : List Char) :
    repeated gather got (s ++ '"' :: t) = .ok (String.ofList (got.reverse ++ u), t) := by
  induction h generalizing got with
  | nil =>
    rw [List.nil_append, repeated_inr (gather_quote got t), List.append_nil]
  | cons hc hs ih =>
    rw [List.append_assoc, repeated_inl (gather_spelled hc got _), ih]
    simp

/-- Every spelling of a string is read as that string. -/
theorem body_spelled {t : List Char} {s : String} (h : Spelled t s.toList) (r : List Char) :
    body.run (t ++ '"' :: r) = .ok (s, r) := by
  have hr := repeated_gather_spelled h [] r
  rwa [List.reverse_nil, List.nil_append, String.ofList_toList] at hr

theorem passed_passedChar {s : List Char} (h : PassedChar s) (t : List Char) :
    passed (s ++ t) = .ok (false, t) := by
  cases h with
  | raw hr hq hb =>
    unfold passed
    split <;> simp_all
  | @short e _ h =>
    have hu : e ≠ 'u' := by
      intro he
      subst he
      cases h
    simp [passed, h]
  | number h => simp [passed, codeUnit_digits h]

theorem skip_passed {s : List Char} (h : Passed s) (t : List Char) :
    skip.run (s ++ '"' :: t) = .ok ((), t) := by
  induction h with
  | nil =>
    have h : (⟨passed, length_passed⟩ : Reader _).run ('"' :: t) = .ok (true, t) := rfl
    exact repeated_inr (Reader.run_map h)
  | @cons u s hc hs ih =>
    have h : (⟨passed, length_passed⟩ : Reader _).run (u ++ (s ++ '"' :: t)) =
        .ok (false, s ++ '"' :: t) := passed_passedChar hc _
    rw [List.append_assoc]
    exact (repeated_inl (Reader.run_map h)).trans ih

theorem hexValue?_hexDigit : ∀ n < 16, hexValue? (hexDigit n) = some n := by decide

/-- What is written for a character is one of its spellings. -/
theorem spelled_escape (c : Char) : SpelledChar (escape c) c := by
  unfold escape
  split
  · rename_i h
    obtain rfl | rfl := h
    · exact .short rfl
    · exact .short rfl
  split
  · subst_vars; exact .short rfl
  split
  · subst_vars; exact .short rfl
  split
  · subst_vars; exact .short rfl
  split
  · subst_vars; exact .short rfl
  split
  · subst_vars; exact .short rfl
  split
  · rename_i hq _ _ _ _ _ hr
    rw [not_or] at hq
    exact .raw hr hq.1 hq.2
  · rename_i hr
    have hlt : c.toNat < 32 := by
      simpa [isRaw, UInt32.le_iff_toNat_le] using hr
    have hd : Digits ['0', '0', hexDigit (c.toNat / 16), hexDigit (c.toNat % 16)]
        (((0 * 16 + 0) * 16 + c.toNat / 16) * 16 + c.toNat % 16) :=
      .mk rfl rfl (hexValue?_hexDigit _ (by omega)) (hexValue?_hexDigit _ (by omega))
    have hn : ((0 * 16 + 0) * 16 + c.toNat / 16) * 16 + c.toNat % 16 = c.toNat := by omega
    rw [hn] at hd
    exact .number hd

theorem spelled_flatMap_escape (s : List Char) : Spelled (s.flatMap escape) s := by
  induction s with
  | nil => exact .nil
  | cons c s ih => exact .cons (spelled_escape c) ih

end PipelineCache.Json.Text

import PipelineCache.Proofs.Uri.Class

/-! Addresses in square brackets are the ones of the grammar. -/
namespace PipelineCache

theorem Text.pieces_cons_sep {α : Type} [DecidableEq α] {sep : α} {x : List α} (h : sep ∉ x)
    (y : List α) : pieces sep (x ++ sep :: y) = x :: pieces sep y := by
  rw [pieces_append_sep, pieces_of_not_mem h, List.singleton_append]

theorem Text.pieces_split {α : Type} [DecidableEq α] (sep : α) (t : List α) :
    pieces sep t = [t] ∨ ∃ x y, t = x ++ sep :: y ∧ pieces sep t = x :: pieces sep y := by
  by_cases h : sep ∈ t
  · obtain ⟨x, y, rfl, hx⟩ := List.eq_append_cons_of_mem h
    exact .inr ⟨x, y, rfl, pieces_cons_sep hx y⟩
  · exact .inl (pieces_of_not_mem h)

theorem Text.eq_of_pieces {α : Type} [DecidableEq α] {sep : α} {t x : List α}
    (h : pieces sep t = [x]) : t = x := by
  obtain ht | ⟨y, z, -, ht⟩ := pieces_split sep t
  · rw [ht] at h
    exact List.singleton_inj.mp h
  · rw [ht] at h
    exact absurd (List.cons.inj h).2 (pieces_ne_nil sep z)

namespace Uri
open Text (pieces)
open Grammar (one word between optional upTo decOctet ipv4address h16 ls32 ipv6address
  mem_one mem_word mem_word_mul mem_optional)

variable {l : Language Char} {p : Char → Bool} {t x y : List Char} {n : Nat}

/-! Octets and groups -/

theorem mem_decOctet : t ∈ decOctet ↔
    (∃ a, a.isDigit ∧ t = [a]) ∨
    (∃ a, ('1' ≤ a ∧ a ≤ '9') ∧ ∃ b, b.isDigit ∧ [a, b] = t) ∨
    (∃ b, b.isDigit ∧ ∃ c, c.isDigit ∧ ['1', b, c] = t) ∨
    (∃ b, ('0' ≤ b ∧ b ≤ '4') ∧ ∃ c, c.isDigit ∧ ['2', b, c] = t) ∨
    ∃ c, ('0' ≤ c ∧ c ≤ '5') ∧ ['2', '5', c] = t := by
  simp [decOctet, ← one_digit, between, Language.mem_add, Language.mem_mul, mem_one, mem_word,
    pow_two, or_assoc]

theorem isOctet_iff : isOctet t ↔ t ∈ decOctet := by
  have le {c d : Char} : c ≤ d ↔ c.toNat ≤ d.toNat := Iff.rfl
  rw [mem_decOctet]
  -- What is left of a text of one to three characters is arithmetic on their numbers.
  rcases t with _ | ⟨a, _ | ⟨b, _ | ⟨c, _ | ⟨d, t⟩⟩⟩⟩ <;> simp [isOctet, digitsValue]
  all_goals simp only [Char.isDigit_iff_toNat, le, ← Char.toNat_inj, Char.reduceToNat]; omega

theorem mem_one_pow : t ∈ one p ^ n ↔ t.length = n ∧ t.all p := by
  induction n generalizing t with
  | zero => simp +contextual
  | succ n ih =>
    rw [pow_succ', Language.mem_mul]
    constructor
    · rintro ⟨_, ⟨c, hc, rfl⟩, x, hx, rfl⟩
      simpa [hc] using ih.mp hx
    · rintro ⟨hn, hp⟩
      obtain _ | ⟨c, t⟩ := t
      · cases hn
      · rw [List.all_cons, Bool.and_eq_true] at hp
        exact ⟨[c], ⟨c, hp.1, rfl⟩, t, ih.mpr ⟨Nat.succ.inj hn, hp.2⟩, rfl⟩

theorem mem_upTo : t ∈ upTo n l ↔ ∃ i ≤ n, t ∈ l ^ i := by
  induction n generalizing t with
  | zero => simp [upTo]
  | succ n ih =>
    have step : upTo (n + 1) l = optional l * upTo n l := pow_succ' _ _
    rw [step, Language.mem_mul]
    constructor
    · rintro ⟨x, rfl | hx, y, hy, rfl⟩
      · obtain ⟨i, hi, hy⟩ := ih.mp hy
        exact ⟨i, by omega, hy⟩
      · obtain ⟨i, hi, hy⟩ := ih.mp hy
        exact ⟨i + 1, by omega, pow_succ' l i ▸ Language.append_mem_mul hx hy⟩
    · rintro ⟨_ | i, hi, ht⟩
      · exact ⟨[], .inl rfl, t, ih.mpr ⟨0, by omega, ht⟩, rfl⟩
      · rw [pow_succ'] at ht
        obtain ⟨x, hx, y, hy, rfl⟩ := Language.mem_mul.mp ht
        exact ⟨x, .inr hx, y, ih.mpr ⟨i, by omega, hy⟩, rfl⟩

theorem isGroup_iff : isGroup t ↔ t ∈ h16 := by
  simp only [isGroup, h16, ← one_hexDigit, Language.mem_mul, mem_upTo, mem_one_pow, mem_one]
  constructor
  · intro h
    obtain _ | ⟨c, t⟩ := t
    · simp at h
    · simp only [List.all_cons, List.length_cons, Bool.and_eq_true, decide_eq_true_eq] at h
      exact ⟨[c], ⟨c, h.2.1, rfl⟩, t, ⟨t.length, by omega, rfl, h.2.2⟩, rfl⟩
  · rintro ⟨_, ⟨c, hc, rfl⟩, t, ⟨_, hi, rfl, ht⟩, rfl⟩
    simpa [hc, ht] using Nat.lt_succ_of_le hi

theorem ne_nil_of_isGroup (h : isGroup t) : t ≠ [] := by
  rintro rfl
  cases h

theorem isGroup_not_mem (h : isGroup t) {c : Char} (hc : isHexDigit c = false) : c ∉ t := by
  intro ht
  simp only [isGroup, Bool.and_eq_true, List.all_eq_true] at h
  exact absurd (h.2 c ht) (by simp [hc])

theorem isOctet_not_mem (h : isOctet t) {c : Char} (hc : c.isDigit = false) : c ∉ t := by
  intro ht
  simp only [isOctet, Bool.and_eq_true, List.all_eq_true] at h
  exact absurd (h.1.1.2 c ht) (by simp [hc])

/-! Pieces between separators -/

theorem mem_joined {q : List Char → Bool} {c : Char} (hl : ∀ t, q t ↔ t ∈ l)
    (hc : ∀ t, q t → c ∉ t) : t ∈ (l * word (String.singleton c)) ^ n * l ↔
      (pieces c t).length = n + 1 ∧ (pieces c t).all q := by
  induction n generalizing t with
  | zero =>
    rw [pow_zero, one_mul, ← hl]
    obtain h | ⟨x, y, rfl, h⟩ := Text.pieces_split c t
    · simp [h]
    · have hne := Text.pieces_ne_nil c y
      have hq : ¬ q (x ++ c :: y) := fun hq => hc _ hq (by simp)
      simp [h, hne, hq]
  | succ n ih =>
    rw [pow_succ', mul_assoc, mul_assoc, Language.mem_mul]
    constructor
    · rintro ⟨x, hx, z, hz, rfl⟩
      obtain ⟨y, hy, rfl⟩ := mem_word_mul.mp hz
      have hq := (hl x).mpr hx
      rw [String.toList_singleton, List.singleton_append, Text.pieces_cons_sep (hc x hq)]
      simpa [hq] using ih.mp hy
    · rintro ⟨hn, hq⟩
      obtain h | ⟨x, y, rfl, h⟩ := Text.pieces_split c t
      · simp [h] at hn
      · simp only [h, List.length_cons, Nat.add_right_cancel_iff, List.all_cons,
          Bool.and_eq_true] at hn hq
        refine ⟨x, (hl x).mp hq.1, c :: y, mem_word_mul.mpr ⟨y, ih.mpr ⟨hn, hq.2⟩, ?_⟩, rfl⟩
        rw [String.toList_singleton, List.singleton_append]

/-! Dotted addresses -/

theorem ipv4address_eq : ipv4address = (decOctet * word ".") ^ 3 * decOctet := by
  simp only [ipv4address, pow_succ, pow_zero, one_mul, mul_assoc]

theorem isDotted_iff : isDotted t ↔ t ∈ ipv4address := by
  rw [ipv4address_eq, isDotted, Bool.and_eq_true, beq_iff_eq]
  exact (mem_joined (c := '.') (n := 3) (fun _ => isOctet_iff)
    fun _ h => isOctet_not_mem h (by decide)).symm

theorem not_isGroup_of_isDotted (h : isDotted t) : ¬ isGroup t := by
  intro hg
  simp only [isDotted, Bool.and_eq_true, beq_iff_eq] at h
  rw [Text.pieces_of_not_mem (isGroup_not_mem hg (by decide))] at h
  simp at h

/-! Texts without a character -/

def without (c : Char) : Language Char := {t | c ∉ t}

section
variable {c : Char} {m : Language Char}

theorem without_mul (hl : l ≤ without c) (hm : m ≤ without c) : l * m ≤ without c := by
  rintro _ ⟨x, hx, y, hy, rfl⟩
  exact fun h => (List.mem_append.mp h).elim (hl hx) (hm hy)

theorem one_le_without : 1 ≤ without c := by
  rintro _ rfl
  exact List.not_mem_nil

theorem without_pow (hl : l ≤ without c) (n : Nat) : l ^ n ≤ without c := by
  induction n with
  | zero => exact one_le_without
  | succ n ih => exact pow_succ l n ▸ without_mul ih hl

theorem without_optional (hl : l ≤ without c) : optional l ≤ without c :=
  add_le one_le_without hl

theorem without_word {s : String} (h : c ∉ s.toList) : word s ≤ without c := by
  rintro _ rfl
  exact h

theorem without_h16 (hc : isHexDigit c = false) : h16 ≤ without c :=
  fun _ h => isGroup_not_mem (isGroup_iff.mpr h) hc

theorem without_ipv4address (hd : c.isDigit = false) (hc : c ≠ '.') :
    ipv4address ≤ without c := by
  have octet : decOctet ≤ without c := fun _ h => isOctet_not_mem (isOctet_iff.mpr h) hd
  have dot : word "." ≤ without c := without_word (by simpa using hc)
  rw [ipv4address_eq]
  exact without_mul (without_pow (without_mul octet dot) 3) octet

end

/-! Groups -/

/-- The texts that stand for a number of groups. -/
def groups : Nat → Language Char
  | 0 => 1
  | 1 => h16
  | n + 2 => (h16 * word ":") ^ n * ls32

theorem groups_cons (hx : x ∈ h16) (hy : y ∈ groups (n + 1)) : x ++ ':' :: y ∈ groups (n + 2) := by
  have hxy : x ++ ':' :: y ∈ h16 * word ":" * groups (n + 1) := by
    rw [mul_assoc]
    exact Language.append_mem_mul hx (mem_word_mul.mpr ⟨y, hy, rfl⟩)
  cases n with
  | zero =>
    rw [groups, pow_zero, one_mul]
    exact .inl hxy
  | succ n =>
    rw [groups, pow_succ', mul_assoc]
    exact hxy

theorem groupCount?_cons (h : isGroup x) (y : List Char) :
    groupCount? (x :: pieces ':' y) = (groupCount? (pieces ':' y)).map (· + 1) := by
  rw [groupCount?, if_pos h]
  exact Text.pieces_ne_nil ':' y

theorem groups_of_count {ps : List (List Char)} (hp : pieces ':' t = ps)
    (h : groupCount? ps = some n) : ∃ m, n = m + 1 ∧ t ∈ groups n := by
  fun_induction groupCount? ps generalizing t n with
  | case1 => exact absurd hp (Text.pieces_ne_nil ':' t)
  | case2 g hg =>
    cases h
    obtain rfl := Text.eq_of_pieces hp
    exact ⟨0, rfl, isGroup_iff.mp hg⟩
  | case3 g _ hg =>
    cases h
    obtain rfl := Text.eq_of_pieces hp
    refine ⟨1, rfl, ?_⟩
    rw [groups, pow_zero, one_mul]
    exact .inr (isDotted_iff.mp hg)
  | case5 g gs hne hg ih =>
    obtain ⟨k, hk, rfl⟩ := Option.map_eq_some_iff.mp h
    obtain ht | ⟨x, y, rfl, ht⟩ := Text.pieces_split ':' t
    · rw [ht] at hp
      cases hp
      exact absurd rfl hne
    · rw [ht] at hp
      cases hp
      obtain ⟨m, rfl, hy⟩ := ih rfl hk
      exact ⟨m + 1, rfl, groups_cons (isGroup_iff.mp hg) hy⟩
  | case4 | case6 => cases h

theorem count_of_groups (h : t ∈ groups (n + 1)) : groupCount? (pieces ':' t) = some (n + 1) := by
  -- A group and the colon behind it are one piece more.
  have step {x y : List Char} {k : Nat} (hx : x ∈ h16)
      (hy : groupCount? (pieces ':' y) = some k) :
      groupCount? (pieces ':' (x ++ ':' :: y)) = some (k + 1) := by
    have hg := isGroup_iff.mpr hx
    rw [Text.pieces_cons_sep (isGroup_not_mem hg (by decide)), groupCount?_cons hg, hy]
    rfl
  have single {x : List Char} (hx : x ∈ h16) : groupCount? (pieces ':' x) = some 1 := by
    have hg := isGroup_iff.mpr hx
    rw [Text.pieces_of_not_mem (isGroup_not_mem hg (by decide)), groupCount?, if_pos hg]
  cases n with
  | zero => exact single h
  | succ n =>
    rw [groups] at h
    induction n generalizing t with
    | zero =>
      rw [pow_zero, one_mul] at h
      obtain h | h := h
      · rw [mul_assoc] at h
        obtain ⟨x, hx, z, hz, rfl⟩ := Language.mem_mul.mp h
        obtain ⟨y, hy, rfl⟩ := mem_word_mul.mp hz
        exact step hx (single hy)
      · have hd := isDotted_iff.mpr h
        have hc : ':' ∉ t := without_ipv4address (by decide) (by decide) h
        rw [Text.pieces_of_not_mem hc, groupCount?, if_neg (not_isGroup_of_isDotted hd), if_pos hd]
    | succ n ih =>
      rw [pow_succ', mul_assoc, mul_assoc] at h
      obtain ⟨x, hx, z, hz, rfl⟩ := Language.mem_mul.mp h
      obtain ⟨y, hy, rfl⟩ := mem_word_mul.mp hz
      exact step hx (ih hy)

/-! The two sides of a gap -/

/-- The texts that stand for at most so many groups, none of them dotted. -/
def groupsUpTo : Nat → Language Char
  | 0 => 1
  | m + 1 => optional (upTo m (h16 * word ":") * h16)

theorem side_of_ne_nil (h : t ≠ []) : side t = pieces ':' t := by
  rw [side, if_neg (by simpa using h)]

theorem mem_groupsUpTo : t ∈ groupsUpTo n ↔ (side t).all isGroup ∧ (side t).length ≤ n := by
  obtain rfl | ht := eq_or_ne t []
  · have nil : [] ∈ groupsUpTo n := by
      cases n with
      | zero => exact rfl
      | succ n => exact .inl rfl
    simp [nil, side]
  · rw [side_of_ne_nil ht]
    have joined (i) : t ∈ (h16 * word ":") ^ i * h16 ↔
        (pieces ':' t).length = i + 1 ∧ (pieces ':' t).all isGroup :=
      mem_joined (c := ':') (fun _ => isGroup_iff) fun _ h => isGroup_not_mem h (by decide)
    have pos := List.length_pos_iff.mpr (Text.pieces_ne_nil ':' t)
    cases n with
    | zero => simp [groupsUpTo, ht, Nat.ne_of_gt pos]
    | succ n =>
      have expand : t ∈ groupsUpTo (n + 1) ↔ ∃ i ≤ n, t ∈ (h16 * word ":") ^ i * h16 := by
        simp only [groupsUpTo, mem_optional, ht, false_or, Language.mem_mul, mem_upTo]
        constructor
        · rintro ⟨x, ⟨i, hi, hx⟩, y, hy, rfl⟩
          exact ⟨i, hi, x, hx, y, hy, rfl⟩
        · rintro ⟨i, hi, x, hx, y, hy, rfl⟩
          exact ⟨x, ⟨i, hi, hx⟩, y, hy, rfl⟩
      simp only [expand, joined]
      constructor
      · rintro ⟨i, hi, hn, hg⟩
        exact ⟨hg, by omega⟩
      · rintro ⟨hg, hn⟩
        exact ⟨(pieces ':' t).length - 1, by omega, by omega, hg⟩

theorem mem_groups : t ∈ groups n ↔ groupCount? (side t) = some n := by
  obtain rfl | ht := eq_or_ne t []
  · cases n with
    | zero => exact iff_of_true rfl rfl
    | succ n =>
      exact iff_of_false (fun h => nomatch count_of_groups h) (by simp [side, groupCount?])
  · rw [side_of_ne_nil ht]
    constructor
    · cases n with
      | zero => exact fun h => absurd h ht
      | succ n => exact count_of_groups
    · intro h
      obtain ⟨-, -, h⟩ := groups_of_count rfl h
      exact h

theorem ne_nil_of_count {ps : List (List Char)} (h : groupCount? ps = some n) :
    ∀ g ∈ ps, g ≠ [] := by
  fun_induction groupCount? ps generalizing n with
  | case1 => simp
  | case2 g hg => simpa using ne_nil_of_isGroup hg
  | case3 g _ hg =>
    rw [List.forall_mem_singleton]
    rintro rfl
    cases hg
  | case5 g gs _ hg ih =>
    obtain ⟨k, hk, -⟩ := Option.map_eq_some_iff.mp h
    exact List.forall_mem_cons.mpr ⟨ne_nil_of_isGroup hg, ih hk⟩
  | case4 | case6 => cases h

/-! The gap -/

theorem splitGap?_sound (h : splitGap? t = some (x, y)) : t = x ++ ':' :: ':' :: y := by
  fun_induction splitGap? t generalizing x y with
  | case1 => cases h
  | case2 r =>
    cases h
    rfl
  | case3 c t _ ih =>
    obtain ⟨⟨x', y'⟩, h, heq⟩ := Option.map_eq_some_iff.mp h
    cases heq
    exact congrArg (c :: ·) (ih h)

theorem splitGap?_cons {c : Char} (h : c = ':' → t.head? ≠ some ':') :
    splitGap? (c :: t) = (splitGap? t).map fun s => (c :: s.1, s.2) := by
  rw [splitGap?]
  rintro r rfl rfl
  exact h rfl rfl

theorem splitGap?_append_of_not_mem (h : ':' ∉ x) (t : List Char) :
    splitGap? (x ++ t) = (splitGap? t).map fun s => (x ++ s.1, s.2) := by
  induction x with
  | nil =>
    rw [List.nil_append]
    cases splitGap? t <;> rfl
  | cons c x ih =>
    rw [List.mem_cons, not_or] at h
    rw [List.cons_append, splitGap?_cons fun hc => absurd hc.symm h.1, ih h.2]
    cases splitGap? t <;> rfl

/-- The gap is not sought among pieces none of which is empty. -/
theorem splitGap?_append (x : List Char) (h : ∀ g ∈ pieces ':' x, g ≠ []) (t : List Char) :
    splitGap? (x ++ t) = (splitGap? t).map fun s => (x ++ s.1, s.2) := by
  by_cases hc : ':' ∈ x
  · obtain ⟨g, y, hx, hg⟩ := List.eq_append_cons_of_mem hc
    rw [hx, Text.pieces_cons_sep hg, List.forall_mem_cons] at h
    have front : (y ++ t).head? ≠ some ':' := by
      cases y with
      | nil => exact absurd rfl (h.2 [] List.mem_cons_self)
      | cons c y =>
        rintro ⟨⟩
        exact h.2 [] (by simp [pieces]) rfl
    rw [hx, List.append_assoc, splitGap?_append_of_not_mem hg, List.cons_append,
      splitGap?_cons fun _ => front, splitGap?_append y h.2]
    cases splitGap? t <;> simp
  · exact splitGap?_append_of_not_mem hc t
termination_by x.length
decreasing_by simp [hx]; omega

/-! Addresses -/

theorem isAddress_iff_groups :
    isAddress t ↔ t ∈ groups 8 ∨ ∃ n ≤ 7, t ∈ groupsUpTo (7 - n) * word "::" * groups n := by
  constructor
  · intro h
    unfold isAddress at h
    split at h
    next hs =>
      obtain ⟨-, -, h⟩ := groups_of_count rfl (eq_of_beq h)
      exact .inl h
    next l r hs =>
      obtain rfl := splitGap?_sound hs
      simp only [Bool.and_eq_true] at h
      obtain ⟨hl, h⟩ := h
      split at h
      next n hn =>
        rw [decide_eq_true_eq] at h
        refine .inr ⟨n, by omega, ?_⟩
        rw [mul_assoc]
        refine Language.append_mem_mul (mem_groupsUpTo.mpr ⟨hl, by omega⟩) ?_
        exact mem_word_mul.mpr ⟨r, mem_groups.mpr hn, rfl⟩
      next => cases h
  · rintro (h | ⟨n, hn, h⟩)
    · have count := count_of_groups h
      have gap : splitGap? (t ++ []) = none := splitGap?_append t (ne_nil_of_count count) []
      rw [List.append_nil] at gap
      simp [isAddress, gap, count]
    · rw [mul_assoc] at h
      obtain ⟨l, hl, z, hz, rfl⟩ := Language.mem_mul.mp h
      obtain ⟨r, hr, rfl⟩ := mem_word_mul.mp hz
      obtain ⟨hg, hk⟩ := mem_groupsUpTo.mp hl
      have gap : splitGap? (l ++ (':' :: ':' :: r)) = some (l, r) := by
        obtain rfl | hne := eq_or_ne l []
        · rfl
        · rw [side_of_ne_nil hne] at hg
          rw [splitGap?_append l fun g h => ne_nil_of_isGroup (List.all_eq_true.mp hg g h)]
          simp [splitGap?]
      have hn : (side l).length + n ≤ 7 := by omega
      simp [isAddress, gap, hg, mem_groups.mp hr, hn]

theorem ipv6address_eq : ipv6address =
    groups 8 + groupsUpTo 0 * word "::" * groups 7 + groupsUpTo 1 * word "::" * groups 6 +
      groupsUpTo 2 * word "::" * groups 5 + groupsUpTo 3 * word "::" * groups 4 +
      groupsUpTo 4 * word "::" * groups 3 + groupsUpTo 5 * word "::" * groups 2 +
      groupsUpTo 6 * word "::" * groups 1 + groupsUpTo 7 * word "::" * groups 0 := by
  simp only [ipv6address, groups, groupsUpTo, upTo, pow_zero, pow_one, one_mul, mul_one, mul_assoc]

theorem isAddress_iff : isAddress t ↔ t ∈ ipv6address := by
  rw [isAddress_iff_groups, ipv6address_eq]
  simp only [Language.mem_add]
  constructor
  · rintro (h | ⟨n, hn, h⟩)
    · simp only [h, true_or]
    · interval_cases n <;> simp only [h, true_or, or_true]
  · rintro ((((((((h | h) | h) | h) | h) | h) | h) | h) | h)
    · exact .inl h
    · exact .inr ⟨7, by decide, h⟩
    · exact .inr ⟨6, by decide, h⟩
    · exact .inr ⟨5, by decide, h⟩
    · exact .inr ⟨4, by decide, h⟩
    · exact .inr ⟨3, by decide, h⟩
    · exact .inr ⟨2, by decide, h⟩
    · exact .inr ⟨1, by decide, h⟩
    · exact .inr ⟨0, by decide, h⟩

theorem without_ipv6address : ipv6address ≤ without ']' := by
  have h16 : h16 ≤ without ']' := without_h16 (by decide)
  have pair : Grammar.h16 * word ":" ≤ without ']' := without_mul h16 (without_word (by decide))
  have last : ls32 ≤ without ']' :=
    add_le (without_mul pair h16) (without_ipv4address (by decide) (by decide))
  have right (n) : groups n ≤ without ']' := by
    match n with
    | 0 => exact one_le_without
    | 1 => exact h16
    | n + 2 => exact without_mul (without_pow pair n) last
  have left (n) : groupsUpTo n ≤ without ']' := by
    match n with
    | 0 => exact one_le_without
    | n + 1 =>
      exact without_optional (without_mul (without_pow (without_optional pair) n) h16)
  intro t ht
  obtain h | ⟨n, -, h⟩ := isAddress_iff_groups.mp (isAddress_iff.mpr ht)
  · exact right 8 h
  · exact without_mul (without_mul (left _) (without_word (by decide))) (right n) h

end Uri
end PipelineCache

import PipelineCache.Proofs.Uri.Address
import PipelineCache.Proofs.Uri.Scan

/-! The scan of an authority: user information, a host and a port. -/
namespace PipelineCache.Uri
open Grammar (word optional pathAbempty tail ipv4address ipv6address ipLiteral regName port userinfo
  mem_word mem_optional mem_word_mul mem_of_le)

variable {p : Char → Bool} {t u x y r : List Char} {cs : List Char}

/-! The front of a class -/

theorem takeWhile_append_of_stop (hx : ∀ c ∈ x, p c) (hr : ∀ c ∈ r.head?, p c = false) :
    (x ++ r).takeWhile p = x ∧ (x ++ r).dropWhile p = r := by
  rw [List.takeWhile_append_of_pos hx, List.dropWhile_append_of_pos hx]
  cases r with
  | nil => simp
  | cons c r => simp [hr c rfl]

theorem stop_dropWhile (p : Char → Bool) (t : List Char) :
    ∀ c ∈ (t.dropWhile p).head?, p c = false := by
  intro c hc
  have h := List.head?_dropWhile_not p t
  rw [hc] at h
  exact h

theorem mem_one_kstar : t ∈ KStar.kstar (Grammar.one p) ↔ t.all p := by
  simp [Language.kstar_eq_iSup_pow, Language.mem_iSup, mem_one_pow]

theorem Run.mem (h : Run p t) {c : Char} (hc : c ∈ t) : p c ∨ c = '%' ∨ isHexDigit c := by
  induction h with
  | nil => cases hc
  | char hp _ _ ih => 
    obtain rfl | hc := List.mem_cons.mp hc
    · exact .inl hp
    · exact ih hc
  | octet ha hb _ ih => 
    simp only [List.mem_cons] at hc
    obtain rfl | rfl | rfl | hc := hc
    · exact .inr (.inl rfl)
    · exact .inr (.inr ha)
    · exact .inr (.inr hb)
    · exact ih hc

theorem Run.of_all (h : ∀ c ∈ t, p c ∧ c ≠ '%') : Run p t := by
  induction t with
  | nil => exact .nil
  | cons c t ih =>
    rw [List.forall_mem_cons] at h
    exact .char h.1.1 h.1.2 (ih h.2)

/-! Addresses and ports -/

theorem literal_eq_ok : literal t = .ok r ↔ ∃ a ∈ ipv6address, t = a ++ ']' :: r := by
  constructor
  · intro h
    have split := List.takeWhile_append_dropWhile (p := (· != ']')) (l := t)
    have stop := stop_dropWhile (· != ']') t
    unfold literal at h
    split at h
    next => cases h
    next c s hs =>
      split at h
      next ha =>
        cases h
        rw [hs] at split stop
        have hc : c = ']' := by simpa using stop c rfl
        exact ⟨_, isAddress_iff.mp ha, hc ▸ split.symm⟩
      next => cases h
  · rintro ⟨a, ha, rfl⟩
    have closed : ∀ c ∈ a, (c != ']') = true := by
      intro c hc
      rw [bne_iff_ne]
      rintro rfl
      exact without_ipv6address ha hc
    obtain ⟨one, two⟩ := takeWhile_append_of_stop (p := (· != ']')) (r := ']' :: r) closed
      (by simp)
    rw [literal, one, two]
    exact if_pos (isAddress_iff.mpr ha)

theorem behindPort_sound (t : List Char) :
    ∃ x ∈ optional (word ":" * port), t = x ++ behindPort t := by
  unfold behindPort
  split
  next t =>
    refine ⟨':' :: t.takeWhile Char.isDigit, .inr (mem_word_mul.mpr ⟨_, ?_, rfl⟩), ?_⟩
    · exact mem_one_kstar.mpr List.all_takeWhile
    · rw [List.cons_append, List.takeWhile_append_dropWhile]
  next => exact ⟨[], .inl rfl, rfl⟩

/-- What may follow an authority. -/
abbrev Behind (r : List Char) : Prop := Opens ['/', '?', '#'] r

theorem behind_of_mem (h : r ∈ pathAbempty * tail) : Behind r := by
  obtain ⟨x, hx, e, he, rfl⟩ := Language.mem_mul.mp h
  exact (opens_pathAbempty hx).append (opens_tail he)

theorem behindPort_complete (h : x ∈ optional (word ":" * port)) (hr : Behind r) :
    behindPort (x ++ r) = r := by
  obtain rfl | h := mem_optional.mp h
  · rw [List.nil_append]
    unfold behindPort
    split
    next t => exact absurd (hr ':' rfl) (by decide)
    next => rfl
  · obtain ⟨y, hy, rfl⟩ := mem_word_mul.mp h
    refine (takeWhile_append_of_stop (List.all_eq_true.mp (mem_one_kstar.mp hy)) ?_).2
    exact fun c hc => (hr.stops (p := Char.isDigit) (by decide) c hc).1

/-! Hosts -/

theorem hostChar_of_digit {c : Char} (h : c.isDigit) : isHostChar c ∧ c ≠ '%' := by
  refine ⟨by simp [isHostChar, isUnreserved, h], ?_⟩
  rintro rfl
  exact absurd h (by decide)

theorem port_le : port ≤ regName := by
  intro t ht
  rw [← runs_hostChar]
  exact (Run.of_all fun c hc =>
    hostChar_of_digit (List.all_eq_true.mp (mem_one_kstar.mp ht) c hc)).mem_runs

theorem ipv4address_le : ipv4address ≤ regName := by
  intro t ht
  rw [← runs_hostChar]
  refine (Run.of_all fun c hc => ?_).mem_runs
  have hd : c.isDigit ∨ c = '.' := by
    by_contra hn
    rw [not_or, Bool.not_eq_true] at hn
    exact without_ipv4address hn.1 hn.2 ht hc
  obtain hd | rfl := hd
  · exact hostChar_of_digit hd
  · decide

theorem host_eq : Grammar.host = ipLiteral + regName := by
  rw [Grammar.host, add_assoc, (Language.le_iff _ _).mp ipv4address_le]

theorem mem_ipLiteral : t ∈ ipLiteral ↔ ∃ a ∈ ipv6address, t = '[' :: a ++ [']'] := by
  simp only [ipLiteral, Language.mem_mul, mem_word]
  constructor
  · rintro ⟨_, ⟨_, rfl, a, ha, rfl⟩, _, rfl, rfl⟩
    exact ⟨a, ha, rfl⟩
  · rintro ⟨a, ha, rfl⟩
    exact ⟨_, ⟨_, rfl, a, ha, rfl⟩, _, rfl, rfl⟩

theorem host_sound (h : host t = .ok r) :
    ∃ x ∈ Grammar.host * optional (word ":" * port), t = x ++ r := by
  rw [host_eq]
  unfold host at h
  split at h
  next t =>
    obtain ⟨s, hs, rfl⟩ := Scan.map_eq_ok.mp h
    obtain ⟨a, ha, rfl⟩ := literal_eq_ok.mp hs
    obtain ⟨y, hy, hsy⟩ := behindPort_sound s
    refine ⟨'[' :: a ++ [']'] ++ y, Language.append_mem_mul (.inl ?_) hy, ?_⟩
    · exact mem_ipLiteral.mpr ⟨a, ha, rfl⟩
    · simpa using hsy
  next =>
    obtain ⟨s, hs, rfl⟩ := Scan.map_eq_ok.mp h
    obtain ⟨x, hx, rfl, -⟩ := behind_sound hs
    obtain ⟨y, hy, hsy⟩ := behindPort_sound s
    refine ⟨x ++ y, Language.append_mem_mul (.inr (runs_hostChar ▸ hx.mem_runs)) hy, ?_⟩
    rw [List.append_assoc, ← hsy]

theorem opens_port (h : x ∈ optional (word ":" * port)) : Opens [':'] x :=
  opens_optional (m := ':') h

/-- Where no name begins with an opening bracket. -/
theorem not_bracket (hx : Run p x) (hp : p '[' = false) (hr : Opens cs r) (hc : '[' ∉ cs) :
    (x ++ r).head? ≠ some '[' := by
  cases hx with
  | nil => exact fun h => hc (hr '[' h)
  | char hp' =>
    rintro ⟨⟩
    rw [hp] at hp'
    cases hp'
  | octet => simp

theorem host_of_name (hx : Run isHostChar x) (hr : Opens [':', '/', '?', '#'] r) :
    host (x ++ r) = (behind isHostChar (x ++ r)).map behindPort := by
  have front := not_bracket hx (by decide) hr (by decide)
  unfold host
  split
  next t ht =>
    rw [ht] at front
    exact absurd rfl front
  next => rfl

theorem host_complete (h : x ∈ Grammar.host * optional (word ":" * port)) (hr : Behind r) :
    host (x ++ r) = .ok r := by
  rw [host_eq] at h
  obtain ⟨n, hn, y, hy, rfl⟩ := Language.mem_mul.mp h
  rw [List.append_assoc]
  obtain hn | hn := (Language.mem_add _ _ _).mp hn
  · obtain ⟨a, ha, rfl⟩ := mem_ipLiteral.mp hn
    have hs : literal (a ++ ']' :: (y ++ r)) = .ok (y ++ r) := literal_eq_ok.mpr ⟨a, ha, rfl⟩
    simp only [host, List.cons_append, List.append_assoc, List.nil_append, hs, Except.map,
      behindPort_complete hy hr]
  · rw [← runs_hostChar, mem_runs (by decide)] at hn
    have after : Opens [':', '/', '?', '#'] (y ++ r) := (opens_port hy).append hr
    rw [host_of_name hn after, behind_complete hn (after.stops (by decide)), Except.map,
      behindPort_complete hy hr]

/-! Authorities -/

theorem plainHost_eq_ok (hu : Run isAuthorityChar u) :
    plainHost u r = .ok () ↔ u ∈ regName * optional (word ":" * port) := by
  have no_colon {n : List Char} (hn : n ∈ regName) : ∀ c ∈ n, (c != ':') = true := by
    rw [← runs_hostChar, mem_runs (by decide)] at hn
    intro c hc
    rw [bne_iff_ne]
    rintro rfl
    exact absurd (hn.mem hc) (by decide)
  have drop {n k : List Char} (hn : n ∈ regName) (hk : Opens [':'] k) :
      (n ++ k).dropWhile (· != ':') = k :=
    (takeWhile_append_of_stop (no_colon hn) fun c hc => by simpa using hk c hc).2
  constructor
  · intro h
    obtain ⟨n, hn, k, hk, rfl⟩ := Language.mem_mul.mp (runs_authority_split ▸ hu.mem_runs)
    have colon : Opens [':'] k := opens_kstar (m := ':') hk
    refine Language.append_mem_mul hn ?_
    rw [plainHost, drop hn colon] at h
    cases k with
    | nil => exact .inl rfl
    | cons c digits =>
      obtain rfl : c = ':' := by simpa using colon c rfl
      refine .inr (mem_word_mul.mpr ⟨digits, mem_one_kstar.mpr ?_, rfl⟩)
      simp only [] at h
      split at h
      next => cases h
      next =>
        split at h
        next hd => exact hd
        next => cases h
  · intro h
    obtain ⟨n, hn, k, hk, rfl⟩ := Language.mem_mul.mp h
    rw [plainHost, drop hn (opens_port hk)]
    obtain rfl | hk := mem_optional.mp hk
    · rfl
    · obtain ⟨digits, hd, rfl⟩ := mem_word_mul.mp hk
      have hd := mem_one_kstar.mp hd
      have hc : ¬ digits.contains ':' := fun hc =>
        absurd (List.all_eq_true.mp hd ':' (List.contains_iff_mem.mp hc)) (by decide)
      exact (if_neg hc).trans (if_pos hd)

/-- User information, a host with its port, and what follows them. -/
theorem append_mem_authority (hx : x ∈ optional (userinfo * word "@"))
    (hy : y ∈ Grammar.host * optional (word ":" * port)) (hr : rootedPath r = .ok ()) :
    x ++ (y ++ r) ∈ Grammar.authority * (pathAbempty * tail) := by
  rw [Grammar.authority, mul_assoc, mul_assoc]
  refine Language.append_mem_mul hx ?_
  rw [← mul_assoc]
  exact Language.append_mem_mul hy (rootedPath_iff.mp hr)

theorem authority_sound (h : authority t = .ok ()) :
    t ∈ Grammar.authority * (pathAbempty * tail) := by
  rw [authority, Scan.bind_eq_ok] at h
  obtain ⟨⟨u, r⟩, hs, h⟩ := h
  obtain ⟨hu, rfl, -⟩ := run_sound hs
  dsimp only at h
  split at h
  next r =>
    obtain ⟨s, hs, hr⟩ := Scan.bind_eq_ok.mp h
    obtain ⟨y, hy, rfl⟩ := host_sound hs
    have info : u ++ ['@'] ∈ userinfo * word "@" :=
      Language.append_mem_mul (runs_authorityChar ▸ hu.mem_runs) rfl
    simpa using append_mem_authority (.inr info) hy hr
  next r =>
    obtain ⟨s, hs, hr⟩ := Scan.bind_eq_ok.mp h
    have bracket : host ('[' :: r) = .ok (behindPort s) := by
      rw [host, hs]
      rfl
    obtain ⟨y, hy, hyr⟩ := host_sound bracket
    rw [List.nil_append, hyr]
    exact append_mem_authority (.inl rfl) hy hr
  next r _ _ =>
    obtain ⟨_, hp, hr⟩ := Scan.bind_eq_ok.mp h
    have hy := (plainHost_eq_ok hu).mp hp
    refine append_mem_authority (x := []) (.inl rfl) ?_ hr
    rw [host_eq, add_mul]
    exact .inr hy

theorem run_plainHost (h : x ∈ regName * optional (word ":" * port)) (hr : Behind r) :
    run isAuthorityChar (x ++ r) = .ok (x, r) := by
  have hx : x ∈ runs isAuthorityChar := by
    rw [runs_authority_split]
    refine mem_of_le (mul_le_mul' le_rfl (add_le one_le_kstar ?_)) h
    exact (mul_le_mul' le_rfl port_le).trans le_kstar
  exact run_complete ((mem_runs (by decide)).mp hx) (hr.stops (by decide))

theorem authority_complete (h : t ∈ Grammar.authority * (pathAbempty * tail)) :
    authority t = .ok () := by
  rw [Grammar.authority, mul_assoc, mul_assoc, ← mul_assoc Grammar.host] at h
  obtain ⟨x, hx, z, hz, rfl⟩ := Language.mem_mul.mp h
  obtain ⟨y, hy, r, hr, rfl⟩ := Language.mem_mul.mp hz
  have rooted := rootedPath_iff.mpr hr
  have behind := behind_of_mem hr
  have hs := host_complete hy behind
  obtain rfl | hx := mem_optional.mp hx
  · rw [host_eq, add_mul] at hy
    obtain hy | hy := (Language.mem_add _ _ _).mp hy
    · obtain ⟨n, hn, k, -, rfl⟩ := Language.mem_mul.mp hy
      obtain ⟨a, -, rfl⟩ := mem_ipLiteral.mp hn
      obtain ⟨s, hs, rfl⟩ := Scan.map_eq_ok.mp hs
      rw [authority, Scan.bind_eq_ok]
      refine ⟨_, run_of_stops ?_, Scan.bind_eq_ok.mpr ⟨s, hs, rooted⟩⟩
      rintro _ ⟨rfl⟩
      decide
    · rw [List.nil_append, authority, Scan.bind_eq_ok]
      have front := run_plainHost hy behind
      refine ⟨_, front, ?_⟩
      dsimp only
      split
      next => exact absurd (behind '@' rfl) (by decide)
      next => exact absurd (behind '[' rfl) (by decide)
      next =>
        have plain : plainHost y r = .ok () := (plainHost_eq_ok (run_sound front).1).mpr hy
        exact Scan.bind_eq_ok.mpr ⟨(), plain, rooted⟩
  · obtain ⟨u, hu, _, rfl, rfl⟩ := Language.mem_mul.mp hx
    rw [← runs_authorityChar, mem_runs (by decide)] at hu
    have front : run isAuthorityChar (u ++ '@' :: (y ++ r)) = .ok (u, '@' :: (y ++ r)) :=
      run_complete hu (by rintro _ ⟨rfl⟩; decide)
    have split : u ++ "@".toList ++ (y ++ r) = u ++ '@' :: (y ++ r) := by simp
    rw [split, authority, Scan.bind_eq_ok]
    exact ⟨_, front, Scan.bind_eq_ok.mpr ⟨r, hs, rooted⟩⟩

theorem authority_eq_ok :
    authority t = .ok () ↔ t ∈ Grammar.authority * (pathAbempty * tail) :=
  ⟨authority_sound, authority_complete⟩

end PipelineCache.Uri

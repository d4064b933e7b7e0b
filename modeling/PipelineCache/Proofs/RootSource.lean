import PipelineCache.Location

/-! Which part of the environment the cache root depends on. Without an explicit choice it is the
first usable source alone, and an event is logged just when there is none. -/
namespace PipelineCache
namespace Environment

/-- Where a standard root can come from. -/
inductive Source where
  | userCache (dir : String)
  | home (dir : String)
  | account (dir : String)

def Source.root : Source → Path
  | userCache dir => ⟨dir⟩
  | home dir => Path.join ⟨dir⟩ ".cache"
  | account dir => Path.join ⟨dir⟩ ".cache"

def HasUserCache (e : Environment) : Prop := ∃ dir, e.userCache = some dir ∧ Path.isAbsolute ⟨dir⟩

def HasHome (e : Environment) : Prop := ∃ dir, e.home = some dir ∧ dir ≠ ""

def HasAccount (e : Environment) : Prop := ∃ dir, e.account = some dir ∧ dir ≠ ""

/-- The first usable source: a cache directory only counts where it is absolute, and a home where it
is not empty. -/
inductive Uses (e : Environment) : Source → Prop
  | userCache {dir : String} (h : e.userCache = some dir) (ha : Path.isAbsolute ⟨dir⟩) :
      Uses e (.userCache dir)
  | home {dir : String} (hc : ¬ e.HasUserCache) (h : e.home = some dir) (hd : dir ≠ "") :
      Uses e (.home dir)
  | account {dir : String} (hc : ¬ e.HasUserCache) (hh : ¬ e.HasHome) (h : e.account = some dir)
      (hd : dir ≠ "") : Uses e (.account dir)

/-- No source is usable. -/
structure IsBare (e : Environment) : Prop where
  userCache : ¬ e.HasUserCache
  home : ¬ e.HasHome
  account : ¬ e.HasAccount

theorem nonempty?_eq_none {s : Option String} :
    nonempty? s = none ↔ ¬ ∃ dir, s = some dir ∧ dir ≠ "" := by
  simp [nonempty?, Option.filter_eq_none_iff]

theorem nonempty?_of_ne {dir : String} (h : dir ≠ "") : nonempty? (some dir) = some dir := by
  simp [nonempty?, h]

theorem filter_userCache {e : Environment} (h : ¬ e.HasUserCache) :
    (e.userCache.filter fun s => Path.isAbsolute ⟨s⟩) = none := by
  simpa [HasUserCache, Option.filter_eq_none_iff] using h

theorem isBare_or_uses (e : Environment) : e.IsBare ∨ ∃ s, e.Uses s := by
  by_cases hc : e.HasUserCache
  · obtain ⟨dir, h, ha⟩ := hc
    exact .inr ⟨_, .userCache h ha⟩
  by_cases hh : e.HasHome
  · obtain ⟨dir, h, hd⟩ := hh
    exact .inr ⟨_, .home hc h hd⟩
  by_cases hp : e.HasAccount
  · obtain ⟨dir, h, hd⟩ := hp
    exact .inr ⟨_, .account hc hh h hd⟩
  exact .inl ⟨hc, hh, hp⟩

theorem homeFolder?_of_home {e : Environment} {dir : String} (h : e.home = some dir)
    (hd : dir ≠ "") : e.homeFolder? = some ⟨dir⟩ := by
  simp [homeFolder?, h, nonempty?_of_ne hd]

theorem homeFolder?_of_account {e : Environment} {dir : String} (hh : ¬ e.HasHome)
    (h : e.account = some dir) (hd : dir ≠ "") : e.homeFolder? = some ⟨dir⟩ := by
  simp [homeFolder?, nonempty?_eq_none.2 hh, h, nonempty?_of_ne hd]

theorem homeFolder?_of_isBare {e : Environment} (h : e.IsBare) : e.homeFolder? = none := by
  simp [homeFolder?, nonempty?_eq_none.2 h.home, nonempty?_eq_none.2 h.account]

theorem cacheFolder?_of_not_hasUserCache {e : Environment} (h : ¬ e.HasUserCache) :
    e.cacheFolder? = e.homeFolder?.map (·.join ".cache") := by
  rw [cacheFolder?, filter_userCache h]

theorem cacheFolder?_of_uses {e : Environment} {s : Source} (h : e.Uses s) :
    e.cacheFolder? = some s.root := by
  cases h with
  | userCache h ha => simp [cacheFolder?, h, Option.filter_some, ha, Source.root]
  | home hc h hd =>
    rw [cacheFolder?_of_not_hasUserCache hc, homeFolder?_of_home h hd]
    rfl
  | account hc hh h hd =>
    rw [cacheFolder?_of_not_hasUserCache hc, homeFolder?_of_account hh h hd]
    rfl

theorem standardRoot_of_uses {e : Environment} {s : Source} (h : e.Uses s) :
    e.standardRoot = (s.root, []) := by
  rw [standardRoot, cacheFolder?_of_uses h, selectRoot]

theorem standardRoot_of_isBare {e : Environment} (h : e.IsBare) :
    e.standardRoot = (⟨".cache"⟩, [.noCacheDirectory]) := by
  -- The root is looked for in the home again, but without a folder for caches there is none.
  rw [standardRoot, cacheFolder?_of_not_hasUserCache h.userCache, homeFolder?_of_isBare h]
  rfl

/-- The event of a missing source is logged once where no source is usable, and else not at all. -/
theorem events_standardRoot (e : Environment) :
    (e.standardRoot.2 = [.noCacheDirectory] ↔ e.IsBare) ∧
      (e.standardRoot.2 = [] ↔ ¬ e.IsBare) := by
  obtain h | ⟨s, hs⟩ := e.isBare_or_uses
  · simp [standardRoot_of_isBare h, h]
  · have hb : ¬ e.IsBare := by
      intro h
      have heq := (standardRoot_of_isBare h).symm.trans (standardRoot_of_uses hs)
      simp at heq
    simp [standardRoot_of_uses hs, hb]

end Environment

namespace Settings

theorem ofEnvironment_of_ne {e : Environment} {t : String} (h : e.chosenRoot = some t)
    (ht : t ≠ "") : ofEnvironment e = ⟨some ⟨t⟩⟩ := by
  simp [ofEnvironment, h, Environment.nonempty?_of_ne ht]

theorem ofEnvironment_of_unset {e : Environment} (h : ∀ t, e.chosenRoot = some t → t = "") :
    ofEnvironment e = ⟨none⟩ := by
  have hn : Environment.nonempty? e.chosenRoot = none :=
    Environment.nonempty?_eq_none.2 fun ⟨t, ht, hne⟩ => hne (h t ht)
  simp [ofEnvironment, hn]

/-- An explicit choice, an empty one too, settles the root and the path, and so does a choice in the
environment that is not empty. Without one the three ways to a path agree, and what they give
depends on the first usable source alone. Where there is none the root is `.cache`, and just then
each lookup logs that once. -/
theorem orbPath_sources (e e' : Environment) (orb : String) :
    (∀ p : Path,
      ((⟨some p⟩ : Settings).root e = (p, []) ∧ (⟨some p⟩ : Settings).root e' = (p, [])) ∧
        (⟨some p⟩ : Settings).orbPath e orb = (⟨some p⟩ : Settings).orbPath e' orb) ∧
    (∀ t, t ≠ "" → e.chosenRoot = some t → e'.chosenRoot = some t →
      ((ofEnvironment e).root e = (⟨t⟩, []) ∧ (ofEnvironment e').root e' = (⟨t⟩, [])) ∧
        (ofEnvironment e).orbPath e orb = (ofEnvironment e').orbPath e' orb) ∧
    (((⟨none⟩ : Settings).root e = e.standardRoot ∧
        (⟨none⟩ : Settings).orbPath e orb = e.orbPath orb) ∧
      ((∀ t, e.chosenRoot = some t → t = "") →
        (ofEnvironment e).root e = e.standardRoot ∧
          (ofEnvironment e).orbPath e orb = e.orbPath orb)) ∧
    (∀ s, e.Uses s → e'.Uses s →
      (e.standardRoot = (s.root, []) ∧ e'.standardRoot = (s.root, [])) ∧
        e.orbPath orb = e'.orbPath orb) ∧
    ((e.IsBare → e.standardRoot.1 = ⟨".cache"⟩) ∧
      (e.standardRoot.2 = [.noCacheDirectory] ↔ e.IsBare) ∧ (e.standardRoot.2 = [] ↔ ¬ e.IsBare) ∧
      (e.orbPath orb).2 = e.standardRoot.2) := by
  refine ⟨fun p => ⟨⟨rfl, rfl⟩, rfl⟩, fun t ht h h' => ?_, ⟨⟨rfl, rfl⟩, fun h => ?_⟩,
    fun s hs hs' => ?_, fun h => ?_, e.events_standardRoot.1, e.events_standardRoot.2, rfl⟩
  · rw [ofEnvironment_of_ne h ht, ofEnvironment_of_ne h' ht]
    exact ⟨⟨rfl, rfl⟩, rfl⟩
  · rw [ofEnvironment_of_unset h]
    exact ⟨rfl, rfl⟩
  · have hroot := Environment.standardRoot_of_uses hs
    have hroot' := Environment.standardRoot_of_uses hs'
    refine ⟨⟨hroot, hroot'⟩, ?_⟩
    rw [Environment.orbPath, Environment.orbPath, hroot, hroot']
  · rw [Environment.standardRoot_of_isBare h]

/-- A home counts even where it is relative, and a cache directory only where it is absolute. -/
theorem orbPath_sources_home :
    let e : Environment := ⟨some "", some "xdg", some "h", some "/home/u"⟩
    let e' : Environment := ⟨some "/c", none, some "h", none⟩
    let bare : Environment := ⟨none, some "", some "", some ""⟩
    (e.Uses (.home "h") ∧ e'.Uses (.home "h") ∧
      (ofEnvironment e).orbPath e "a" = e'.orbPath "a" ∧
      (e'.orbPath "a").1.text = "h/.cache/cci/orbs/.circleci/a.yml") ∧
    (ofEnvironment e').root e' = (⟨"/c"⟩, []) ∧
    bare.IsBare ∧ bare.standardRoot.1 = ⟨".cache"⟩ := by
  intro e e' bare
  have hs : e.Uses (.home "h") := by
    refine .home ?_ rfl (by decide)
    rintro ⟨dir, h, ha⟩
    cases h
    exact absurd ha (by decide)
  have hs' : e'.Uses (.home "h") := .home (by rintro ⟨dir, h, -⟩; cases h) rfl (by decide)
  have hbare : bare.IsBare := by
    refine ⟨?_, ?_, ?_⟩
    · rintro ⟨dir, h, ha⟩
      cases h
      exact absurd ha (by decide)
    · rintro ⟨dir, h, hd⟩
      cases h
      exact hd rfl
    · rintro ⟨dir, h, hd⟩
      cases h
      exact hd rfl
  have hunset : ∀ t, e.chosenRoot = some t → t = "" := by
    rintro t h
    cases h
    rfl
  obtain ⟨-, -, ⟨-, hpath⟩, hshared, -⟩ := orbPath_sources e e' "a"
  obtain ⟨-, hchosen, -⟩ := orbPath_sources e' e' "a"
  obtain ⟨-, -, -, -, hroot, -⟩ := orbPath_sources bare bare "a"
  obtain ⟨⟨-, hhome⟩, hsame⟩ := hshared _ hs hs'
  refine ⟨⟨hs, hs', (hpath hunset).2.trans hsame, ?_⟩, (hchosen "/c" (by decide) rfl rfl).1.1,
    hbare, hroot hbare⟩
  rw [Environment.orbPath, hhome]
  decide +kernel

end Settings
end PipelineCache

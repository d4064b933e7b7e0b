import PipelineCache.Json.Record
import PipelineCache.Proofs.Json.Grammar

/-! Objects as spellings of records. The members may come in any order, with others of unknown names
among them; what a record's field holds is settled by its one member, or by its default. -/
namespace PipelineCache.Json

/-- The name of a member and the spelling of its value. -/
abbrev Member := String × List Char

inductive Member.Spelled : Grammar Member
  | mk {b n b' c v c' : List Char} {name : String} (hb : Blanks b) (hn : Text.Spelled n name.toList)
      (hb' : Blanks b') (hc : Blanks c) (hc' : Blanks c') :
      Spelled (b ++ '"' :: (n ++ '"' :: (b' ++ ':' :: (c ++ (v ++ c'))))) (name, v)

inductive Object : Grammar (List Member)
  | empty {b : List Char} (hb : Blanks b) : Object ('{' :: (b ++ ['}'])) []
  | full {t : List Char} {ms : List Member} (h : Separated Member.Spelled t ms) :
      Object ('{' :: (t ++ ['}'])) ms

/-- One grammar for each field. -/
def Grammars : List Field → Type
  | [] => Unit
  | f :: fs => Grammar f.Value × Grammars fs

/-- A field's value: what its only member spells, or the default where there is no member. -/
def Field.Given (f : Field) (g : Grammar f.Value) (ms : List Member) (v : f.Value) : Prop :=
  (∃ t, ms.filter (·.1 = f.name) = [(f.name, t)] ∧ g t v) ∨
    ms.filter (·.1 = f.name) = [] ∧ f.absent = some v

def Row.Given : (fs : List Field) → Grammars fs → List Member → Row fs → Prop
  | [], _, _, _ => True
  | f :: fs, (g, gs), ms, (v, row) => f.Given g ms v ∧ Row.Given fs gs ms row

def names (fs : List Field) : List String := fs.map Field.name

/-- The objects that spell a row. Members of other names hold any well-formed values. -/
def Grammar.row (fs : List Field) (gs : Grammars fs) : Grammar (Row fs) := fun t row =>
  ∃ ms, Object t ms ∧ Row.Given fs gs ms row ∧ ∀ m ∈ ms, m.1 ∈ names fs ∨ WellFormed none m.2

/-- A field whose format follows a grammar, and which is omitted only where its default stands for
it. -/
structure Field.Follows (f : Field) (g : Grammar f.Value) : Prop where
  format : f.format.Follows g
  omits : ∀ v, f.omits v → f.absent = some v

def Grammars.Follow : (fs : List Field) → Grammars fs → Prop
  | [], _ => True
  | f :: fs, (g, gs) => f.Follows g ∧ Grammars.Follow fs gs

theorem required_follows {α : Type} {f : Format α} {g : Grammar α} (name : String)
    (h : f.Follows g) : (Field.required name f).Follows g :=
  ⟨h, fun _ hv => by cases hv⟩

theorem withDefault_follows {α : Type} {f : Format α} {g : Grammar α} (name : String) (default : α)
    (h : f.Follows g) : (Field.withDefault name f default).Follows g :=
  ⟨h, fun _ hv => by cases hv⟩

theorem fieldOptional_follows {α : Type} {f : Format α} {g : Grammar α} (name : String)
    (h : f.Follows g) (hn : ∀ {v : List Char} {a : α}, g v a → v.head? ≠ some 'n') :
    (Field.optional name f).Follows g.optional where
  format := optional_follows h hn
  omits
    | none, _ => rfl

/-- What is still to come for a field: nothing once it has been read. -/
def Field.Settled (f : Field) (g : Grammar f.Value) (d : Option f.Value) (ms : List Member)
    (v : f.Value) : Prop :=
  match d with
  | some a => a = v ∧ ms.filter (·.1 = f.name) = []
  | none => f.Given g ms v

/-- The draft and the members to come make up the row. -/
def Draft.Settled : (fs : List Field) → Grammars fs → Draft fs → List Member → Row fs → Prop
  | [], _, _, _, _ => True
  | f :: fs, (g, gs), (d, ds), ms, (v, row) => f.Settled g d ms v ∧ Draft.Settled fs gs ds ms row

theorem Draft.settled_empty {fs : List Field} {gs : Grammars fs} {ms : List Member} {row : Row fs}
    (h : Row.Given fs gs ms row) : Draft.Settled fs gs (Draft.empty fs) ms row := by
  induction fs with
  | nil => trivial
  | cons f fs ih =>
    obtain ⟨g, gs⟩ := gs
    obtain ⟨v, row⟩ := row
    exact ⟨h.1, ih h.2⟩

theorem Draft.complete_settled {fs : List Field} {gs : Grammars fs} {d : Draft fs} {row : Row fs}
    (h : Draft.Settled fs gs d [] row) : Draft.complete fs d = .ok row := by
  induction fs with
  | nil => rfl
  | cons f fs ih =>
    obtain ⟨g, gs⟩ := gs
    obtain ⟨d, ds⟩ := d
    obtain ⟨v, row⟩ := row
    obtain ⟨hv, hr⟩ := h
    have hd : d.or f.absent = some v := by
      cases d with
      | some a => simp [hv.1]
      | none =>
        obtain ⟨t, ht, _⟩ | ⟨_, ha⟩ := hv
        · cases ht
        · exact ha
    simp only [Draft.complete, hd, ih hr]

theorem Field.settled_cons {f : Field} {g : Grammar f.Value} {d : Option f.Value} {m : Member}
    {ms : List Member} {v : f.Value} (hm : m.1 ≠ f.name) :
    f.Settled g d (m :: ms) v ↔ f.Settled g d ms v := by
  cases d <;> simp [Field.Settled, Field.Given, hm]

/-- A member of another name settles nothing. -/
theorem Draft.settled_cons {fs : List Field} {gs : Grammars fs} {d : Draft fs} {m : Member}
    {ms : List Member} {row : Row fs} (hm : m.1 ∉ names fs) :
    Draft.Settled fs gs d (m :: ms) row ↔ Draft.Settled fs gs d ms row := by
  induction fs with
  | nil => exact Iff.rfl
  | cons f fs ih =>
    obtain ⟨g, gs⟩ := gs
    obtain ⟨d, ds⟩ := d
    obtain ⟨v, row⟩ := row
    simp only [names, List.map_cons, List.mem_cons, not_or] at hm
    exact and_congr (Field.settled_cons hm.1) (ih hm.2)

theorem memberValue_append {α : Type} {p : Reader α} {b c v r : List Char} {a : α} (hb : Blanks b)
    (hp : p.run (c ++ (v ++ r)) = .ok (a, r)) :
    memberValue p (b ++ ':' :: (c ++ (v ++ r))) = .ok (a, r) := by
  simp only [memberValue, Place.colon_append hb, hp]

theorem Draft.enter_of_not_mem {fs : List Field} {name : String} (h : name ∉ names fs)
    (d : Draft fs) (t : List Char) : Draft.enter fs d name t = none := by
  induction fs with
  | nil => rfl
  | cons f fs ih =>
    obtain ⟨v, d⟩ := d
    simp only [names, List.map_cons, List.mem_cons, not_or] at h
    simp only [Draft.enter, if_neg h.1, ih h.2]

/-- The member of a field is read into the draft, which still makes up the same row. -/
theorem Draft.enter_settled {fs : List Field} {gs : Grammars fs} (hf : Grammars.Follow fs gs)
    (hn : (names fs).Nodup) {d : Draft fs} {name : String} {v : List Char} {ms : List Member}
    {row : Row fs} (h : Draft.Settled fs gs d ((name, v) :: ms) row) (hm : name ∈ names fs)
    {b c r : List Char} (hb : Blanks b) (hc : Blanks c) (hr : Delimited r) :
    ∃ d', Draft.enter fs d name (b ++ ':' :: (c ++ (v ++ r))) = some (.ok (d', r)) ∧
      Draft.Settled fs gs d' ms row := by
  induction fs with
  | nil => cases hm
  | cons f fs ih =>
    obtain ⟨g, gs⟩ := gs
    obtain ⟨d, ds⟩ := d
    obtain ⟨x, row⟩ := row
    obtain ⟨hx, hrow⟩ := h
    obtain ⟨hfg, hfs⟩ := hf
    simp only [names, List.map_cons, List.nodup_cons] at hn
    by_cases he : name = f.name
    · have hrow := (Draft.settled_cons (by rw [he]; exact hn.1)).1 hrow
      cases d with
      | some a =>
        have hx := hx.2
        simp [he] at hx
      | none =>
        obtain ⟨t, ht, hg⟩ | ⟨hx, _⟩ := hx
        · simp [he] at ht
          obtain ⟨rfl, hms⟩ := ht
          have hv := memberValue_append hb (hfg.format.reads hc hg hr)
          refine ⟨(some x, ds), ?_, ⟨rfl, ?_⟩, hrow⟩
          · simp only [Draft.enter, if_pos he, Option.isSome_none, Bool.false_eq_true, if_false, hv]
          · simpa using hms
        · simp [he] at hx
    · have hm : name ∈ names fs := by
        simpa [names, he] using hm
      obtain ⟨d', hd, hs⟩ := ih hfs hn.2 hrow hm
      refine ⟨(d, d'), ?_, (Field.settled_cons he).1 hx, hs⟩
      simp only [Draft.enter, if_neg he, hd]

theorem nextMember_closing {first : Bool} {b : List Char} (hb : Blanks b) (r : List Char) :
    nextMember first (b ++ '}' :: r) = .ok (.inl r) := by
  rw [nextMember, afterBlanks_cons_of_not hb rfl]
  rfl

theorem nextMember_quote {first : Bool} {l b : List Char} (hl : Comma first l) (hb : Blanks b)
    (r : List Char) : nextMember first (l ++ (b ++ '"' :: r)) = .ok (.inr r) := by
  cases hl with
  | first =>
    rw [List.nil_append, nextMember, afterBlanks_cons_of_not hb rfl]
    rfl
  | next hb' =>
    rw [List.append_assoc, List.cons_append, nextMember, afterBlanks_cons_of_not hb' rfl]
    simp [afterBlanks_cons_of_not hb (rfl : isBlank '"' = false)]

/-- A member is read into its field, or passed over where it has none. -/
theorem membersRun_spelled {fs : List Field} {gs : Grammars fs} (hf : Grammars.Follow fs gs)
    (hn : (names fs).Nodup) {d : Draft fs} {m : Member} {ms : List Member} {row : Row fs}
    (h : Draft.Settled fs gs d (m :: ms) row) (hm : m.1 ∈ names fs ∨ WellFormed none m.2)
    {t : List Char} (ht : Member.Spelled t m) {first : Bool} {l r : List Char} (hl : Comma first l)
    (hr : Delimited r) : ∃ d' b, Blanks b ∧ Draft.Settled fs gs d' ms row ∧
      membersRun fs (d, first) (l ++ (t ++ r)) = .ok (.inl (d', false), b ++ r) := by
  cases ht with
  | @mk b n b' c v c' name hb hs hb' hc hc' =>
    have hd := delimited_append hc' hr
    simp only [List.append_assoc, List.cons_append, membersRun, nextMember_quote hl hb, memberRun,
      Text.body_spelled hs]
    by_cases hk : name ∈ names fs
    · obtain ⟨d', he, hs⟩ := Draft.enter_settled hf hn h hk hb' hc hd
      exact ⟨d', c', hc', hs, by simp only [he]⟩
    · have hv := memberValue_append hb' (skipValue_wellFormed hc (hm.resolve_left hk) hd)
      refine ⟨d, c', hc', (Draft.settled_cons hk).1 h, ?_⟩
      simp only [Draft.enter_of_not_mem hk, hv]

theorem repeated_member_closing {fs : List Field} {first : Bool} {b : List Char} (hb : Blanks b)
    (d : Draft fs) (r : List Char) :
    repeated (fun s => ⟨membersRun fs s, length_membersRun⟩) (d, first) (b ++ '}' :: r) =
      .ok (d, r) := by
  apply repeated_inr
  change membersRun fs (d, first) _ = _
  simp only [membersRun, nextMember_closing hb]

theorem repeated_member_separated {fs : List Field} {gs : Grammars fs} (hf : Grammars.Follow fs gs)
    (hn : (names fs).Nodup) {row : Row fs} {t : List Char} {ms : List Member}
    (ht : Separated Member.Spelled t ms) (hm : ∀ m ∈ ms, m.1 ∈ names fs ∨ WellFormed none m.2)
    {d : Draft fs} (h : Draft.Settled fs gs d ms row) {first : Bool} {l : List Char}
    (hl : Comma first l) (r : List Char) : ∃ d', Draft.Settled fs gs d' [] row ∧
      repeated (fun s => ⟨membersRun fs s, length_membersRun⟩) (d, first) (l ++ (t ++ '}' :: r)) =
        .ok (d', r) := by
  induction ht generalizing d first l with
  | last hs =>
    obtain ⟨d', b, hb, hd, he⟩ := membersRun_spelled hf hn h (hm _ List.mem_cons_self) hs hl
      (Bracket.delimited_closing .curly r)
    refine ⟨d', hd, ?_⟩
    rw [repeated_inl he]
    exact repeated_member_closing hb d' r
  | @more t s m ms hs ht ih =>
    have hc : Delimited (',' :: (s ++ '}' :: r)) := delimited_cons (.inr (.inl rfl))
    obtain ⟨d', b, hb, hd, he⟩ := membersRun_spelled hf hn h (hm _ List.mem_cons_self) hs hl hc
    obtain ⟨d'', hd', he'⟩ := ih (fun m h => hm m (List.mem_cons_of_mem _ h)) hd (.next hb)
    refine ⟨d'', hd', ?_⟩
    rw [List.append_assoc, List.cons_append, repeated_inl he]
    rwa [List.append_assoc, List.cons_append, List.nil_append] at he'

theorem members_object {fs : List Field} {gs : Grammars fs} (hf : Grammars.Follow fs gs)
    (hn : (names fs).Nodup) {t : List Char} {row : Row fs} (h : Grammar.row fs gs t row)
    (r : List Char) : ∃ s d, t ++ r = '{' :: s ∧ (members fs).run s = .ok (d, r) ∧
      d.complete fs = .ok row := by
  obtain ⟨ms, ho, hg, hm⟩ := h
  have hd := Draft.settled_empty hg
  cases ho with
  | @empty b hb =>
    refine ⟨b ++ '}' :: r, _, by simp, ?_, Draft.complete_settled hd⟩
    exact repeated_member_closing hb _ r
  | @full t ms hs =>
    obtain ⟨d, hd, he⟩ := repeated_member_separated hf hn hs hm hd .first r
    exact ⟨t ++ '}' :: r, d, by simp, he, Draft.complete_settled hd⟩

/-- The members that are written for a row. -/
def Row.written : (fs : List Field) → Row fs → List Member
  | [], _ => []
  | f :: fs, (v, row) =>
    if f.omits v then written fs row else (f.name, f.format.write v) :: written fs row

theorem Row.members_written {fs : List Field} (row : Row fs) :
    row.members fs = (Row.written fs row).map fun m => Text.write m.1 ++ ':' :: m.2 := by
  induction fs with
  | nil => rfl
  | cons f fs ih =>
    obtain ⟨v, row⟩ := row
    by_cases ho : f.omits v
    · simp only [Row.members, Row.written, ho, if_true, ih]
    · simp only [Row.members, Row.written, ho, if_false, ih, List.map_cons, Bool.false_eq_true]

theorem Row.names_written {fs : List Field} {row : Row fs} {m : Member}
    (hm : m ∈ Row.written fs row) : m.1 ∈ names fs := by
  induction fs with
  | nil => cases hm
  | cons f fs ih =>
    obtain ⟨v, row⟩ := row
    simp only [names, List.map_cons, List.mem_cons]
    rw [Row.written] at hm
    split at hm
    · exact .inr (ih hm)
    · obtain rfl | hm := List.mem_cons.1 hm
      · exact .inl rfl
      · exact .inr (ih hm)

theorem Row.given_cons {fs : List Field} {gs : Grammars fs} {m : Member} {ms : List Member}
    {row : Row fs} (hm : m.1 ∉ names fs) :
    Row.Given fs gs (m :: ms) row ↔ Row.Given fs gs ms row := by
  induction fs with
  | nil => exact Iff.rfl
  | cons f fs ih =>
    obtain ⟨g, gs⟩ := gs
    obtain ⟨v, row⟩ := row
    simp only [names, List.map_cons, List.mem_cons, not_or] at hm
    have hf : f.Given g (m :: ms) v ↔ f.Given g ms v := by
      simp [Field.Given, hm.1]
    exact and_congr hf (ih hm.2)

theorem Row.given_written {fs : List Field} {gs : Grammars fs} (hf : Grammars.Follow fs gs)
    (hn : (names fs).Nodup) (row : Row fs) : Row.Given fs gs (Row.written fs row) row := by
  induction fs with
  | nil => trivial
  | cons f fs ih =>
    obtain ⟨g, gs⟩ := gs
    obtain ⟨v, row⟩ := row
    simp only [names, List.map_cons, List.nodup_cons] at hn
    have hnot : (Row.written fs row).filter (·.1 = f.name) = [] := by
      rw [List.filter_eq_nil_iff]
      intro m hm he
      exact hn.1 (of_decide_eq_true he ▸ Row.names_written hm)
    have hrow := ih hf.2 hn.2 row
    rw [Row.written]
    split
    · rename_i ho
      exact ⟨.inr ⟨hnot, hf.1.omits v ho⟩, hrow⟩
    · refine ⟨.inl ⟨f.format.write v, ?_, hf.1.format.writes v⟩, (Row.given_cons hn.1).2 hrow⟩
      rw [List.filter_cons, hnot]
      simp

theorem Member.spelled_write (m : Member) : Member.Spelled (Text.write m.1 ++ ':' :: m.2) m := by
  have h := Member.Spelled.mk (v := m.2) blanks_nil (Text.spelled_flatMap_escape m.1.toList)
    blanks_nil blanks_nil blanks_nil
  simpa [Text.write] using h

theorem row_follows {fs : List Field} {gs : Grammars fs} (title : String)
    (hf : Grammars.Follow fs gs) (hn : (names fs).Nodup) :
    (Format.row title fs).Follows (Grammar.row fs gs) where
  opens := by
    rintro v row ⟨ms, _ | _, _⟩ <;> exact ⟨_, _, rfl, rfl, by decide⟩
  reads := by
    intro b v r row hb hv _
    obtain ⟨s, d, he, hd, hc⟩ := members_object hf hn hv r
    change rowRun title fs _ = _
    rw [he, rowRun, afterBlanks_cons_of_not hb rfl]
    simp only [hd, hc]
    rfl
  writes row := by
    refine ⟨Row.written fs row, ?_, Row.given_written hf hn row, fun m hm => ?_⟩
    · change Object ('{' :: (commas (row.members fs) ++ ['}'])) _
      rw [Row.members_written]
      cases hw : Row.written fs row with
      | nil => exact .empty blanks_nil
      | cons m ms =>
        have hs : Separated Member.Spelled
            (commas ((m :: ms).map fun m => Text.write m.1 ++ ':' :: m.2)) ((m :: ms).map id) :=
          separated_commas _ id Member.spelled_write (List.cons_ne_nil m ms)
        rw [List.map_id] at hs
        exact .full hs
    · exact .inl (Row.names_written hm)

/-- A record follows the grammar of its row. -/
theorem record_follows {α : Type} {fs : List Field} {gs : Grammars fs} (title : String)
    {ofRow : Row fs → α} {toRow : α → Row fs} (hf : Grammars.Follow fs gs)
    (hn : (names fs).Nodup) (ho : ∀ a, ofRow (toRow a) = a) :
    (Format.record title fs ofRow toRow).Follows fun t a => Grammar.row fs gs t (toRow a) :=
  (row_follows title hf hn).map (fun hv => ⟨_, hv, ho _⟩) id

end PipelineCache.Json

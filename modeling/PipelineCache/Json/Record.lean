import PipelineCache.Json.Format

/-! Records by their fields. From the list of a record's fields come its object form, with names in
any order, its array form, in the order of the fields, and its written form. -/
namespace PipelineCache.Json

/-- A field that may be left out has a value for that case; it is written unless `omits` says no. -/
structure Field where
  name : String
  Value : Type
  format : Format Value
  absent : Option Value
  omits : Value → Bool

/-- A field that every text has to give. -/
def Field.required {α : Type} (name : String) (format : Format α) : Field :=
  ⟨name, α, format, none, fun _ => false⟩

def Field.withDefault {α : Type} (name : String) (format : Format α) (default : α) : Field :=
  ⟨name, α, format, some default, fun _ => false⟩

/-- A field that is `none` when it is left out or `null`, and left out when it is `none`. -/
def Field.optional {α : Type} (name : String) (format : Format α) : Field :=
  ⟨name, Option α, format.optional, some none, Option.isNone⟩

/-- One value for each field. -/
def Row : List Field → Type
  | [] => Unit
  | f :: fs => f.Value × Row fs

/-- The fields read so far. -/
def Draft : List Field → Type
  | [] => Unit
  | f :: fs => Option f.Value × Draft fs

def Draft.empty : (fs : List Field) → Draft fs
  | [] => ()
  | _ :: fs => (none, Draft.empty fs)

/-- The row of a draft, where the first field that is missing without a default is a fault. -/
def Draft.complete : (fs : List Field) → Draft fs → Except Fault (Row fs)
  | [], _ => .ok ()
  | f :: fs, (v, d) =>
    match v.or f.absent with
    | none => .error (.misfit (.missing f.name))
    | some v =>
      match complete fs d with
      | .error e => .error e
      | .ok row => .ok (v, row)

/-- The value behind the colon of a member. -/
def memberValue {α : Type} (p : Reader α) (t : List Char) : Reading α :=
  match Place.colon t with
  | .error e => .error e
  | .ok r => p.run r

theorem length_memberValue {α : Type} {p : Reader α} {t r : List Char} {a : α}
    (h : memberValue p t = .ok (a, r)) : r.length < t.length := by
  unfold memberValue at h
  split at h
  · cases h
  · rename_i hc
    have := Place.length_colon hc
    have := p.shrinks h
    omega

/-- Reads a member into the field of its name, if there is one. A name that comes again is a fault
before its value is looked at. -/
def Draft.enter : (fs : List Field) → Draft fs → String → List Char → Option (Reading (Draft fs))
  | [], _, _, _ => none
  | f :: fs, (v, d), name, t =>
    if name = f.name then
      if v.isSome then some (.error (.misfit (.duplicate f.name)))
      else
        match memberValue f.format.reader t with
        | .error e => some (.error e)
        | .ok (a, r) => some (.ok ((some a, d), r))
    else
      match enter fs d name t with
      | none => none
      | some (.error e) => some (.error e)
      | some (.ok (d, r)) => some (.ok ((v, d), r))

theorem Draft.length_enter {fs : List Field} {d d' : Draft fs} {name : String} {t r : List Char}
    (h : Draft.enter fs d name t = some (.ok (d', r))) : r.length < t.length := by
  induction fs with
  | nil => cases h
  | cons f fs ih =>
    obtain ⟨v, d⟩ := d
    simp only [Draft.enter] at h
    split at h
    · split at h
      · cases h
      · split at h
        · cases h
        · rename_i hm
          cases h
          exact length_memberValue hm
    · split at h
      · cases h
      · cases h
      · rename_i he
        cases h
        exact ih he

/-- A member from behind the quote that opens its name. -/
def memberRun (fs : List Field) (d : Draft fs) (t : List Char) : Reading (Draft fs) :=
  match Text.body.run t with
  | .error e => .error e
  | .ok (name, r) =>
    match d.enter fs name r with
    | some x => x
    | none =>
      match memberValue skipValue r with
      | .error e => .error e
      | .ok (_, r) => .ok (d, r)

theorem length_memberRun {fs : List Field} {d d' : Draft fs} {t r : List Char}
    (h : memberRun fs d t = .ok (d', r)) : r.length < t.length := by
  unfold memberRun at h
  split at h
  · cases h
  · rename_i hb
    have := Text.body.shrinks hb
    split at h
    · rename_i he
      subst h
      have := Draft.length_enter he
      omega
    · split at h
      · cases h
      · rename_i hm
        cases h
        have := length_memberValue hm
        omega

/-- What comes next in an object: behind its closing brace (`inl`), or behind the quote that opens
a name (`inr`). -/
def nextMember (first : Bool) (t : List Char) : Except Fault (List Char ⊕ List Char) :=
  match afterBlanks t with
  | [] => .error .truncated
  | '}' :: r => .ok (.inl r)
  | '"' :: r => if first then .ok (.inr r) else .error .malformed
  | ',' :: r =>
    if first then .error .malformed
    else
      match afterBlanks r with
      | [] => .error .truncated
      | '"' :: r => .ok (.inr r)
      | _ => .error .malformed
  | _ => .error .malformed

theorem length_nextMember {first : Bool} {t r : List Char} {x : List Char ⊕ List Char}
    (h : nextMember first t = .ok x) (hx : x = .inl r ∨ x = .inr r) : r.length < t.length := by
  unfold nextMember at h
  split at h
  · cases h
  · rename_i hb
    cases h
    rcases hx with hx | hx <;> cases hx
    exact afterBlanks_cons hb
  · rename_i hb
    split at h <;> cases h
    rcases hx with hx | hx <;> cases hx
    exact afterBlanks_cons hb
  · rename_i r' hb
    split at h
    · cases h
    · split at h
      · cases h
      · rename_i hc
        cases h
        rcases hx with hx | hx <;> cases hx
        have := afterBlanks_cons hb
        have := afterBlanks_cons hc
        omega
      · cases h
  · cases h

def membersRun (fs : List Field) (s : Draft fs × Bool) (t : List Char) :
    Reading (Draft fs × Bool ⊕ Draft fs) :=
  match nextMember s.2 t with
  | .error e => .error e
  | .ok (.inl r) => .ok (.inr s.1, r)
  | .ok (.inr t') =>
    match memberRun fs s.1 t' with
    | .error e => .error e
    | .ok (d, r) => .ok (.inl (d, false), r)

theorem length_membersRun {fs : List Field} {s : Draft fs × Bool} {t r : List Char}
    {x : Draft fs × Bool ⊕ Draft fs} (h : membersRun fs s t = .ok (x, r)) :
    r.length < t.length := by
  unfold membersRun at h
  split at h
  · cases h
  · rename_i hn
    cases h
    exact length_nextMember hn (.inl rfl)
  · rename_i hn
    split at h
    · cases h
    · rename_i hm
      cases h
      have := length_nextMember hn (.inr rfl)
      have := length_memberRun hm
      omega

/-- The members of an object from behind its opening brace. -/
def members (fs : List Field) : Reader (Draft fs) :=
  .loop (fun s => ⟨membersRun fs s, length_membersRun⟩) (Draft.empty fs, true)

/-- The defaults of the fields from the `i`-th on, which an array of `i` items leaves out. -/
def defaults (title : String) (arity : Nat) : (fs : List Field) → Nat → Except Fault (Row fs)
  | [], _ => .ok ()
  | f :: fs, i =>
    match f.absent with
    | none => .error (.misfit (.badLength i title arity))
    | some v =>
      match defaults title arity fs (i + 1) with
      | .error e => .error e
      | .ok row => .ok (v, row)

/-- The closing bracket of an array whose fields have all been read. -/
def closing (t : List Char) : Except Fault (List Char) :=
  match afterBlanks t with
  | [] => .error .truncated
  | ']' :: r => .ok r
  | _ => .error .malformed

/-- The array form from the `i`-th field on. -/
def arrayRun (title : String) (arity : Nat) : (fs : List Field) → Nat → List Char → Reading (Row fs)
  | [], _, t => (closing t).map fun r => ((), r)
  | f :: fs, i, t =>
    match nextItem (i == 0) t with
    | .error e => .error e
    | .ok (.inl r) => (defaults title arity (f :: fs) i).map fun row => (row, r)
    | .ok (.inr t') =>
      match f.format.reader.run t' with
      | .error e => .error e
      | .ok (v, r) =>
        match arrayRun title arity fs (i + 1) r with
        | .error e => .error e
        | .ok (row, r) => .ok ((v, row), r)

theorem length_closing {t r : List Char} (h : closing t = .ok r) : r.length < t.length := by
  unfold closing at h
  split at h
  · cases h
  · rename_i hb
    cases h
    exact afterBlanks_cons hb
  · cases h

theorem length_arrayRun {title : String} {arity : Nat} {fs : List Field} {i : Nat}
    {t r : List Char} {row : Row fs} (h : arrayRun title arity fs i t = .ok (row, r)) :
    r.length < t.length := by
  induction fs generalizing i t r with
  | nil =>
    simp only [arrayRun] at h
    cases hc : closing t with
    | error e => simp [hc, Except.map] at h
    | ok r' =>
      simp only [hc, Except.map] at h
      cases h
      exact length_closing hc
  | cons f fs ih =>
    simp only [arrayRun] at h
    split at h
    · cases h
    · rename_i r' hn
      have := length_nextItem_closed hn
      cases hd : defaults title arity (f :: fs) i <;> simp [hd, Except.map] at h
      simp only [← h.2]; assumption
    · rename_i t' hn
      have := length_nextItem_item hn
      split at h
      · cases h
      · rename_i v r' hv
        have := f.format.reader.shrinks hv
        split at h
        · cases h
        · rename_i hr
          cases h
          have := ih hr
          omega

/-- A row in either form. -/
def rowRun (title : String) (fs : List Field) (t : List Char) : Reading (Row fs) :=
  match afterBlanks t with
  | '{' :: r =>
    match (members fs).run r with
    | .error e => .error e
    | .ok (d, r) => (d.complete fs).map fun row => (row, r)
  | '[' :: r => arrayRun title fs.length fs 0 r
  | t => .error (mismatch title t)

theorem length_rowRun {title : String} {fs : List Field} {t r : List Char} {row : Row fs}
    (h : rowRun title fs t = .ok (row, r)) : r.length < t.length := by
  unfold rowRun at h
  split at h
  · rename_i hb
    have := afterBlanks_cons hb
    split at h
    · cases h
    · rename_i d r' hm
      have := (members fs).shrinks hm
      cases hc : d.complete fs <;> simp [hc, Except.map] at h
      simp only [← h.2]; omega
  · rename_i hb
    have := afterBlanks_cons hb
    have := length_arrayRun h
    omega
  · cases h

/-- The members that a row is written with. -/
def Row.members : (fs : List Field) → Row fs → List (List Char)
  | [], _ => []
  | f :: fs, (v, row) =>
    if f.omits v then members fs row
    else (Text.write f.name ++ ':' :: f.format.write v) :: members fs row

def Row.write (fs : List Field) (row : Row fs) : List Char :=
  '{' :: commas (row.members fs) ++ ['}']

def Format.row (title : String) (fs : List Field) : Format (Row fs) :=
  ⟨⟨rowRun title fs, length_rowRun⟩, Row.write fs⟩

/-- The format of a type that is a row in other clothes. -/
def Format.record {α : Type} (title : String) (fs : List Field) (ofRow : Row fs → α)
    (toRow : α → Row fs) : Format α :=
  (Format.row title fs).map ofRow toRow

end PipelineCache.Json

import PipelineCache.Json.Skip

/-! A format reads and writes the values of one type. Here are the formats of single values and of
lists of texts; records are built from them. -/
namespace PipelineCache.Json
variable {α β : Type}

structure Format (α : Type) where
  reader : Reader α
  write : α → List Char

/-- Reads a whole text: one value with blanks around it. -/
def Format.decode (f : Format α) (text : String) : Except Fault α :=
  match f.reader.run text.toList with
  | .error e => .error e
  | .ok (a, r) => if (afterBlanks r).isEmpty then .ok a else .error .malformed

def Format.encode (f : Format α) (a : α) : String := String.ofList (f.write a)

/-- The format of a type whose values are some of the `α`, by a check behind the reading. -/
def Format.refine (f : Format α) (check : α → Except Fault β) (value : β → α) : Format β :=
  ⟨f.reader.check check, fun b => f.write (value b)⟩

def Format.map (f : Format α) (of : α → β) (value : β → α) : Format β :=
  f.refine (fun a => .ok (of a)) value

def found (expected : String) (x : Found) : Fault := .misfit (.wrongType x expected)

def mismatchWord (expected : String) (w t : List Char) (x : Found) : Fault :=
  match afterWord w t with
  | .error e => e
  | .ok _ => found expected x

/-- What is wrong with a value of another type than the expected one. Words, numbers and strings are
read to their end first; lists and objects are not looked into. -/
def mismatch (expected : String) : List Char → Fault
  | [] => .truncated
  | '[' :: _ => found expected .sequence
  | '{' :: _ => found expected .map
  | '"' :: t =>
    match Text.body.run t with
    | .error e => e
    | .ok (s, _) => found expected (.text s)
  | 'n' :: t => mismatchWord expected ['u', 'l', 'l'] t .null
  | 't' :: t => mismatchWord expected ['r', 'u', 'e'] t (.boolean true)
  | 'f' :: t => mismatchWord expected ['a', 'l', 's', 'e'] t (.boolean false)
  | c :: t =>
    if startsNumber c then
      match numberFound (c :: t) with
      | .error e => e
      | .ok (x, _) => found expected x
    else .malformed

def textRun (expected : String) (t : List Char) : Reading String :=
  match afterBlanks t with
  | '"' :: r => Text.body.run r
  | t => .error (mismatch expected t)

theorem length_textRun {expected : String} {t r : List Char} {s : String}
    (h : textRun expected t = .ok (s, r)) : r.length < t.length := by
  unfold textRun at h
  split at h
  · rename_i hb
    have := afterBlanks_cons hb
    have := Text.body.shrinks h
    omega
  · cases h

def textReader (expected : String) : Reader String := ⟨textRun expected, length_textRun⟩

/-- A string, called `expected` in a message. -/
def Format.text (expected : String) : Format String := ⟨textReader expected, Text.write⟩

def flagRun (t : List Char) : Reading Bool :=
  match afterBlanks t with
  | 't' :: r => (afterWord ['r', 'u', 'e'] r).map fun r => (true, r)
  | 'f' :: r => (afterWord ['a', 'l', 's', 'e'] r).map fun r => (false, r)
  | t => .error (mismatch "a boolean" t)

theorem length_flagRun {t r : List Char} {b : Bool} (h : flagRun t = .ok (b, r)) :
    r.length < t.length := by
  unfold flagRun at h
  split at h
  case h_1 t' hb =>
    have := afterBlanks_cons hb
    cases hw : afterWord ['r', 'u', 'e'] t' <;> simp [hw, Except.map] at h
    have := length_afterWord hw
    simp only [← h.2]; omega
  case h_2 t' hb =>
    have := afterBlanks_cons hb
    cases hw : afterWord ['a', 'l', 's', 'e'] t' <;> simp [hw, Except.map] at h
    have := length_afterWord hw
    simp only [← h.2]; omega
  case h_3 => cases h

def Format.flag : Format Bool where
  reader := ⟨flagRun, length_flagRun⟩
  write b := if b then ['t', 'r', 'u', 'e'] else ['f', 'a', 'l', 's', 'e']

/-- A number that has to be whole and fit 32 bits. -/
def int32Of : Found → Except Fault Int32
  | .integer n =>
    if Int32.minValue.toInt ≤ n ∧ n ≤ Int32.maxValue.toInt then .ok (Int32.ofInt n)
    else .error (.misfit (.outOfRange n "i32"))
  | x => .error (found "i32" x)

def int32Run (t : List Char) : Reading Int32 :=
  match afterBlanks t with
  | [] => .error .truncated
  | c :: r =>
    if startsNumber c then
      match numberFound (c :: r) with
      | .error e => .error e
      | .ok (x, r) => (int32Of x).map fun n => (n, r)
    else .error (mismatch "i32" (c :: r))

theorem length_int32Run {t r : List Char} {n : Int32} (h : int32Run t = .ok (n, r)) :
    r.length < t.length := by
  unfold int32Run at h
  split at h
  · cases h
  · rename_i c t' hb
    split at h
    · split at h
      · cases h
      · rename_i x r' hn
        have := length_afterBlanks t
        have := length_numberFound hn
        cases hx : int32Of x <;> simp [hx, Except.map] at h
        rw [hb] at *
        simp only [← h.2]; omega
    · cases h

def Format.int32 : Format Int32 := ⟨⟨int32Run, length_int32Run⟩, fun n => Numeral.write n.toInt⟩

/-- What comes next in a list: behind its closing bracket (`inl`), or at an item (`inr`). -/
def nextItem (first : Bool) (t : List Char) : Except Fault (List Char ⊕ List Char) :=
  match afterBlanks t with
  | [] => .error .truncated
  | ']' :: r => .ok (.inl r)
  | c :: r =>
    if first then .ok (.inr (c :: r))
    else if c = ',' then
      match afterBlanks r with
      | [] => .error .truncated
      | ']' :: _ => .error .malformed
      | r => .ok (.inr r)
    else .error .malformed

theorem length_nextItem_closed {first : Bool} {t r : List Char}
    (h : nextItem first t = .ok (.inl r)) : r.length < t.length := by
  unfold nextItem at h
  split at h
  · cases h
  · rename_i hb
    cases h
    exact afterBlanks_cons hb
  · split at h
    · cases h
    · split at h
      · split at h <;> cases h
      · cases h

theorem length_nextItem_item {first : Bool} {t r : List Char}
    (h : nextItem first t = .ok (.inr r)) : r.length ≤ t.length := by
  have hl := length_afterBlanks t
  unfold nextItem at h
  split at h
  · cases h
  · cases h
  · rename_i c t' _ hb
    rw [hb] at hl
    split at h
    · cases h; exact hl
    · split at h
      · split at h
        · cases h
        · cases h
        · cases h
          have := length_afterBlanks t'
          simp only [List.length_cons] at hl; omega
      · cases h

def itemRun (item : Reader α) (got : List α × Bool) (t : List Char) :
    Reading (List α × Bool ⊕ List α) :=
  match nextItem got.2 t with
  | .error e => .error e
  | .ok (.inl r) => .ok (.inr got.1.reverse, r)
  | .ok (.inr t') =>
    match item.run t' with
    | .error e => .error e
    | .ok (a, r) => .ok (.inl (a :: got.1, false), r)

theorem length_itemRun {item : Reader α} {got : List α × Bool} {t r : List Char}
    {x : List α × Bool ⊕ List α} (h : itemRun item got t = .ok (x, r)) :
    r.length < t.length := by
  unfold itemRun at h
  split at h
  · cases h
  · rename_i hn
    cases h
    exact length_nextItem_closed hn
  · rename_i hn
    split at h
    · cases h
    · rename_i hi
      cases h
      have := length_nextItem_item hn
      have := item.shrinks hi
      omega

/-- The items of a list from behind its opening bracket; what has been read is kept latest first. -/
def items (item : Reader α) : Reader (List α) :=
  .loop (fun got => ⟨itemRun item got, length_itemRun⟩) ([], true)

def commas : List (List Char) → List Char
  | [] => []
  | [x] => x
  | x :: xs => x ++ ',' :: commas xs

def listRun (item : Reader α) (t : List Char) : Reading (List α) :=
  match afterBlanks t with
  | '[' :: r => (items item).run r
  | t => .error (mismatch "a sequence" t)

theorem length_listRun {item : Reader α} {t r : List Char} {xs : List α}
    (h : listRun item t = .ok (xs, r)) : r.length < t.length := by
  unfold listRun at h
  split at h
  · rename_i hb
    have := afterBlanks_cons hb
    have := (items item).shrinks h
    omega
  · cases h

def Format.list (f : Format α) : Format (List α) where
  reader := ⟨listRun f.reader, length_listRun⟩
  write xs := '[' :: commas (xs.map f.write) ++ [']']

def optionalRun (p : Reader α) (t : List Char) : Reading (Option α) :=
  match afterBlanks t with
  | 'n' :: r => (afterWord ['u', 'l', 'l'] r).map fun r => (none, r)
  | _ => (p.map some).run t

theorem length_optionalRun {p : Reader α} {t r : List Char} {x : Option α}
    (h : optionalRun p t = .ok (x, r)) : r.length < t.length := by
  unfold optionalRun at h
  split at h
  case h_1 t' hb =>
    have := afterBlanks_cons hb
    cases hw : afterWord ['u', 'l', 'l'] t' <;> simp [hw, Except.map] at h
    have := length_afterWord hw
    simp only [← h.2]; omega
  case h_2 => exact (p.map some).shrinks h

/-- A value that may be `null`. -/
def Format.optional (f : Format α) : Format (Option α) where
  reader := ⟨optionalRun f.reader, length_optionalRun⟩
  write
    | none => ['n', 'u', 'l', 'l']
    | some a => f.write a

end PipelineCache.Json

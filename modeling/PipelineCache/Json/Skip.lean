import PipelineCache.Json.Text
import PipelineCache.Json.Numeral

/-! Passing over a value that no field takes. The brackets still open are kept on a stack, so a
value of any depth is passed over in one loop. -/
namespace PipelineCache.Json

inductive Bracket where
  | square | curly
  deriving DecidableEq

/-- Where a value that is passed over is being read: at a value, behind an opening bracket, or
behind a value inside a bracket. -/
inductive Place where
  | value (outer : List Bracket)
  | first (inner : Bracket) (outer : List Bracket)
  | next (inner : Bracket) (outer : List Bracket)

namespace Place

/-- Behind a value, given the brackets around it. -/
def after : List Bracket → Place ⊕ Unit
  | [] => .inr ()
  | b :: bs => .inl (.next b bs)

def skipWord (w : List Char) (outer : List Bracket) (t : List Char) : Reading (Place ⊕ Unit) :=
  match afterWord w t with
  | .error e => .error e
  | .ok r => .ok (after outer, r)

/-- A value that starts at the front of the text. -/
def start (outer : List Bracket) : List Char → Reading (Place ⊕ Unit)
  | [] => .error .truncated
  | '[' :: t => .ok (.inl (.first .square outer), t)
  | '{' :: t => .ok (.inl (.first .curly outer), t)
  | '"' :: t =>
    match Text.skip.run t with
    | .error e => .error e
    | .ok (_, r) => .ok (after outer, r)
  | 'n' :: t => skipWord ['u', 'l', 'l'] outer t
  | 't' :: t => skipWord ['r', 'u', 'e'] outer t
  | 'f' :: t => skipWord ['a', 'l', 's', 'e'] outer t
  | c :: t =>
    if startsNumber c then
      match skipNumber (c :: t) with
      | .error e => .error e
      | .ok r => .ok (after outer, r)
    else .error .malformed

/-- The colon between a name and its value. -/
def colon (t : List Char) : Except Fault (List Char) :=
  match afterBlanks t with
  | [] => .error .truncated
  | ':' :: r => .ok r
  | _ => .error .malformed

/-- A name that starts at the front of the text, up to its colon. -/
def name (outer : List Bracket) : List Char → Reading (Place ⊕ Unit)
  | [] => .error .truncated
  | '"' :: t =>
    match Text.skip.run t with
    | .error e => .error e
    | .ok (_, r) =>
      match colon r with
      | .error e => .error e
      | .ok r => .ok (.inl (.value (.curly :: outer)), r)
  | _ => .error .malformed

def stepRun : Place → List Char → Reading (Place ⊕ Unit)
  | .value outer, t => start outer (afterBlanks t)
  | .first .square outer, t =>
    match afterBlanks t with
    | ']' :: r => .ok (after outer, r)
    | t => start (.square :: outer) t
  | .first .curly outer, t =>
    match afterBlanks t with
    | '}' :: r => .ok (after outer, r)
    | t => name outer t
  | .next .square outer, t =>
    match afterBlanks t with
    | [] => .error .truncated
    | ']' :: r => .ok (after outer, r)
    | ',' :: r => .ok (.inl (.value (.square :: outer)), r)
    | _ => .error .malformed
  | .next .curly outer, t =>
    match afterBlanks t with
    | [] => .error .truncated
    | '}' :: r => .ok (after outer, r)
    | ',' :: r => name outer (afterBlanks r)
    | _ => .error .malformed

theorem length_skipWord {w t r : List Char} {outer : List Bracket} {x : Place ⊕ Unit}
    (h : skipWord w outer t = .ok (x, r)) : r.length ≤ t.length := by
  unfold skipWord at h
  split at h
  · cases h
  · rename_i hw
    cases h
    exact length_afterWord hw

theorem length_start {outer : List Bracket} {t r : List Char} {x : Place ⊕ Unit}
    (h : start outer t = .ok (x, r)) : r.length < t.length := by
  unfold start at h
  split at h
  · cases h
  · cases h; simp
  · cases h; simp
  · split at h
    · cases h
    · rename_i hs
      cases h
      have := Text.skip.shrinks hs
      simp only [List.length_cons]; omega
  · have := length_skipWord h
    simp only [List.length_cons]; omega
  · have := length_skipWord h
    simp only [List.length_cons]; omega
  · have := length_skipWord h
    simp only [List.length_cons]; omega
  · split at h
    · split at h
      · cases h
      · rename_i hn
        cases h
        exact length_skipNumber hn
    · cases h

theorem length_colon {t r : List Char} (h : colon t = .ok r) : r.length < t.length := by
  unfold colon at h
  split at h
  · cases h
  · rename_i hb
    cases h
    exact afterBlanks_cons hb
  · cases h

theorem length_name {outer : List Bracket} {t r : List Char} {x : Place ⊕ Unit}
    (h : name outer t = .ok (x, r)) : r.length < t.length := by
  unfold name at h
  split at h
  · cases h
  · split at h
    · cases h
    · rename_i hs
      split at h
      · cases h
      · rename_i hc
        cases h
        have := Text.skip.shrinks hs
        have := length_colon hc
        simp only [List.length_cons]; omega
  · cases h

theorem length_stepRun {p : Place} {t r : List Char} {x : Place ⊕ Unit}
    (h : stepRun p t = .ok (x, r)) : r.length < t.length := by
  have hb := length_afterBlanks t
  unfold stepRun at h
  split at h
  · have := length_start h
    omega
  · split at h
    · rename_i hc
      cases h
      exact afterBlanks_cons hc
    · have := length_start h
      omega
  · split at h
    · rename_i hc
      cases h
      exact afterBlanks_cons hc
    · have := length_name h
      omega
  · split at h
    · cases h
    · rename_i hc
      cases h
      exact afterBlanks_cons hc
    · rename_i hc
      cases h
      exact afterBlanks_cons hc
    · cases h
  · split at h
    · cases h
    · rename_i hc
      cases h
      exact afterBlanks_cons hc
    · rename_i r' hc
      have := afterBlanks_cons hc
      have := length_afterBlanks r'
      have := length_name h
      omega
    · cases h

def step (p : Place) : Reader (Place ⊕ Unit) := ⟨stepRun p, length_stepRun⟩

end Place

/-- A value of any kind, which is not kept. -/
def skipValue : Reader Unit := .loop Place.step (.value [])

end PipelineCache.Json

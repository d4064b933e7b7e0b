import PipelineCache.Uri.Scan
import PipelineCache.Text.Bytes

/-! URI references, kept as they are spelled. -/
namespace PipelineCache

/-- Why a text is no URI reference, and the byte at which that shows. -/
structure Uri.Fault where
  reason : Uri.Reason
  index : Nat
  deriving DecidableEq

def Uri.Fault.message (f : Uri.Fault) : String :=
  (match f.reason with
    | .character => "unexpected character"
    | .octet => "invalid percent-encoded octet"
    | .address => "invalid IP literal") ++ " at index " ++ toString f.index

structure Uri where
  text : String
  valid : Uri.reference text.toList = .ok ()
  deriving DecidableEq

namespace Uri

def parse (s : String) : Except Fault Uri :=
  match h : reference s.toList with
  | .ok () => .ok ⟨s, h⟩
  | .error (reason, rest) => .error ⟨reason, Text.byteLength s.toList - Text.byteLength rest⟩

theorem text_parse {s : String} {u : Uri} (h : parse s = .ok u) : u.text = s := by
  unfold parse at h
  split at h <;> cases h
  rfl

theorem parse_text (u : Uri) : parse u.text = .ok u := by
  unfold parse
  split
  · rfl
  · rename_i h
    rw [u.valid] at h
    cases h

end Uri
end PipelineCache

import PipelineCache.Proofs.Record.Spelling
import PipelineCache.Proofs.Files.Normal

/-! Equality of records against the texts written for them. Two records have one text only where
they are the same field for field, and `==` is coarser only in the file of an orb: it compares the
texts as they are once that file is in its normal form. -/
namespace PipelineCache

deriving instance ReflBEq, LawfulBEq for Context
deriving instance ReflBEq, LawfulBEq for Project
deriving instance ReflBEq, LawfulBEq for OrbInterface
deriving instance ReflBEq, LawfulBEq for ImageCheck
deriving instance ReflBEq, LawfulBEq for Document

theorem NameSet.ofList_eq_ofList {xs ys : List String} (h : ∀ x, x ∈ xs ↔ x ∈ ys) :
    NameSet.ofList xs = NameSet.ofList ys :=
  NameSet.ofList_eq fun x => (h x).trans NameSet.mem_ofList.symm

namespace OrbOrigin

def normal (o : OrbOrigin) : OrbOrigin := { o with file := o.file.normal }

theorem beq_iff_normal {a b : OrbOrigin} : a == b ↔ a.normal = b.normal := by
  change (a.file == b.file && (a.version == b.version && a.description == b.description)) ↔ _
  simp only [Bool.and_eq_true, Path.beq_iff_normal, beq_iff_eq, normal, OrbOrigin.mk.injEq]

end OrbOrigin

namespace Orb

def normal (o : Orb) : Orb := { o with origin := o.origin.normal }

theorem beq_iff_normal {a b : Orb} : a == b ↔ a.normal = b.normal := by
  change (a.source == b.source && (a.origin == b.origin && a.interface == b.interface)) ↔ _
  simp only [Bool.and_eq_true, OrbOrigin.beq_iff_normal, beq_iff_eq, normal, Orb.mk.injEq]

theorem file?_isNone {o : Orb} : o.file?.isNone ↔ o.origin.file.isEmpty := by
  rw [file?]
  split <;> simp_all

/-- Only the empty path is equal to the empty path. -/
theorem file?_isNone_of_beq {a b : Orb} (h : a == b) : a.file?.isNone ↔ b.file?.isNone := by
  have ho : a.origin.normal = b.origin.normal := congrArg Orb.origin (beq_iff_normal.1 h)
  have hf : a.origin.file == b.origin.file :=
    Path.beq_iff_normal.2 (congrArg OrbOrigin.file ho)
  rw [file?_isNone, file?_isNone, Path.isEmpty_iff_view, Path.isEmpty_iff_view,
    Path.beq_iff_view.1 hf]

end Orb

namespace Kind

/-- The record with its file, where it has one, in normal form. -/
def normal : (k : Kind) → k.Record → k.Record
  | orbOrigin => OrbOrigin.normal
  | orb => Orb.normal
  | vars | context | project | orbInterface | image | document => id

theorem same_iff_normal : (k : Kind) → {a b : k.Record} →
    (k.same a b ↔ k.normal a = k.normal b)
  | orbOrigin, _, _ => OrbOrigin.beq_iff_normal
  | orb, _, _ => Orb.beq_iff_normal
  | vars, _, _ | context, _, _ | project, _, _ | orbInterface, _, _ | image, _, _
  | document, _, _ => beq_iff_eq

theorem normal_of_ne {k : Kind} (ho : k ≠ orbOrigin) (hb : k ≠ orb) (r : k.Record) :
    k.normal r = r := by
  cases k <;> simp_all [normal]

theorem encode_inj (k : Kind) {a b : k.Record} : k.encode a = k.encode b ↔ a = b := by
  refine ⟨fun h => ?_, congrArg k.encode⟩
  have hd : (.ok a : Except Json.Fault k.Record) = .ok b := by
    rw [← k.follows.decode_written a, ← k.follows.decode_written b]
    exact congrArg k.decode h
  exact Except.ok.inj hd

theorem same_iff_encode_normal (k : Kind) {a b : k.Record} :
    k.same a b ↔ k.encode (k.normal a) = k.encode (k.normal b) :=
  k.same_iff_normal.trans k.encode_inj.symm

theorem same_equivalence (k : Kind) : Equivalence fun a b => k.same a b = true where
  refl _ := k.same_iff_normal.2 rfl
  symm h := k.same_iff_normal.2 (k.same_iff_normal.1 h).symm
  trans h h' := k.same_iff_normal.2 ((k.same_iff_normal.1 h).trans (k.same_iff_normal.1 h'))

/-- Equality of records is equality of their texts, but for files that have one normal form; it
sees of a set only its elements, and of a list of variables only the first of each. -/
theorem same_matches_encode :
    (∀ (k : Kind) (a b : k.Record),
      (k.encode a = k.encode b → a = b) ∧
      (k ≠ orbOrigin → k ≠ orb → k.same a b → k.encode a = k.encode b) ∧
      (k.same a b ↔ k.encode (k.normal a) = k.encode (k.normal b))) ∧
    (∀ k : Kind, Equivalence fun a b => k.same a b = true) ∧
    (∀ cs cs' js js' es es' ps ps' : List String,
      (∀ x, x ∈ cs ↔ x ∈ cs') → (∀ x, x ∈ js ↔ x ∈ js') →
      (∀ x, x ∈ es ↔ x ∈ es') → (∀ x, x ∈ ps ↔ x ∈ ps') →
      orbInterface.same ⟨.ofList cs, .ofList js, .ofList es, .ofList ps⟩
        ⟨.ofList cs', .ofList js', .ofList es', .ofList ps'⟩ ∧
      ∀ source origin,
        orb.same ⟨source, origin, some ⟨.ofList cs, .ofList js, .ofList es, .ofList ps⟩⟩
          ⟨source, origin, some ⟨.ofList cs', .ofList js', .ofList es', .ofList ps'⟩⟩) ∧
    (∀ xs ys : List String, xs.eraseDups = ys.eraseDups →
      vars.same (.ofList xs) (.ofList ys) ∧
      (∀ id name, context.same ⟨id, name, .ofList xs⟩ ⟨id, name, .ofList ys⟩) ∧
      ∀ slug name, project.same ⟨slug, name, .ofList xs⟩ ⟨slug, name, .ofList ys⟩) ∧
    ∀ a b : Orb, orb.same a b → (a.file?.isNone ↔ b.file?.isNone) := by
  refine ⟨fun k a b => ⟨k.encode_inj.1, fun ho hb h => ?_, k.same_iff_encode_normal⟩,
    same_equivalence, ?_, ?_, fun a b => Orb.file?_isNone_of_beq⟩
  · have hn := k.same_iff_encode_normal.1 h
    rwa [normal_of_ne ho hb, normal_of_ne ho hb] at hn
  · intro cs cs' js js' es es' ps ps' hc hj he hp
    rw [NameSet.ofList_eq_ofList hc, NameSet.ofList_eq_ofList hj, NameSet.ofList_eq_ofList he,
      NameSet.ofList_eq_ofList hp]
    exact ⟨orbInterface.same_equivalence.refl _, fun _ _ => orb.same_equivalence.refl _⟩
  · intro xs ys h
    have hv : Variables.ofList xs = Variables.ofList ys :=
      Variables.ext (by rw [Variables.names_ofList, Variables.names_ofList, h])
    rw [hv]
    exact ⟨vars.same_equivalence.refl _, fun _ _ => context.same_equivalence.refl _,
      fun _ _ => project.same_equivalence.refl _⟩

def dotted : Orb :=
  ⟨"o", ⟨⟨"./a//b/."⟩, "", ""⟩, some ⟨.ofList ["b", "a", "b"], .empty, .empty, .empty⟩⟩

def plain : Orb :=
  ⟨"o", ⟨⟨"./a/b"⟩, "", ""⟩, some ⟨.ofList ["a", "b"], .empty, .empty, .empty⟩⟩

theorem same_dotted : orb.same dotted plain ∧ orb.encode dotted ≠ orb.encode plain ∧
    orb.encode (orb.normal dotted) = orb.encode (orb.normal plain) ∧
    orb.same ⟨"o", plain.origin, some ⟨.ofList ["b", "a", "b"], .empty, .empty, .empty⟩⟩ plain ∧
    vars.same (.ofList ["A", "B", "A"]) (.ofList ["A", "B"]) ∧
    (dotted.file?.isNone ↔ plain.file?.isNone) := by
  obtain ⟨htext, -, hset, hvars, hfile⟩ := same_matches_encode
  have hs : orb.same dotted plain := by decide +kernel
  have hne : dotted.origin.file.text ≠ plain.origin.file.text := by decide
  refine ⟨hs, fun h => hne ?_, (htext orb dotted plain).2.2.1 hs, ?_, ?_, hfile _ _ hs⟩
  · rw [(htext orb dotted plain).1 h]
  · exact (hset ["b", "a", "b"] ["a", "b"] [] [] [] [] [] [] (by simp) (by simp) (by simp)
      (by simp)).2 "o" plain.origin
  · exact (hvars ["A", "B", "A"] ["A", "B"] (by decide)).1

end Kind
end PipelineCache

import PipelineCache.Proofs.Cache.Touch
import PipelineCache.Proofs.Record.Document
import PipelineCache.Proofs.Store.Views
import PipelineCache.Proofs.Uri.Fault

/-! The gate of the documents. A text becomes a URI as the key of a request, by the constructor, or
inside a text that is decoded. It is let in or refused alike at each of these doors, as the grammar
of references says. What is let in stays as it is spelled, so that a document is found under its own
text and under no other. -/
namespace PipelineCache

namespace Uri

/-- The text is let in as the URI `k` at every door, and leaves as it came. -/
structure Admitted (u : String) (k : Uri) : Prop where
  key : Shelf.documents.readKey u = .ok k
  keyText : Shelf.documents.keyText k = u
  built : ∀ language version text,
    Document.build u language version text = .ok ⟨k, language, version, text⟩
  decoded : ∀ t language version text,
    Document.Raw.format.decode t = .ok ⟨u, language, version, text⟩ ↔
      Kind.document.decode t = .ok ⟨k, language, version, text⟩
  received : ∀ t language version text,
    Document.Raw.format.decode t = .ok ⟨u, language, version, text⟩ ↔
      TextDocumentItem.format.decode t = .ok ⟨k, language, version, text⟩
  encoded : ∀ language version text, Document.Raw.format.decode
    (Kind.document.encode ⟨k, language, version, text⟩) = .ok ⟨u, language, version, text⟩
  ofItem : ∀ i : TextDocumentItem, i.uri = k →
    (Document.ofItem i).uri.text = u ∧ (Document.ofItem i).toItem = i
  toItem : ∀ d : Document, d.uri = k → d.toItem.uri.text = u ∧ Document.ofItem d.toItem = d

/-- The text is refused at every door, with the same message. -/
structure Refused (u : String) (f : Uri.Fault) : Prop where
  key : Shelf.documents.readKey u = .error f
  built : ∀ language version text, Document.build u language version text = .error f
  decoded : ∀ t language version text,
    Document.Raw.format.decode t = .ok ⟨u, language, version, text⟩ →
      ∃ e, Kind.document.decode t = .error (.misfit e) ∧ e.message = f.message

variable {u : String} {k : Uri} {f : Uri.Fault}

theorem parse_of_valid (h : reference u.toList = .ok ()) : parse u = .ok ⟨u, h⟩ :=
  parse_text ⟨u, h⟩

theorem mem_of_parse (h : parse u = .ok k) : u.toList ∈ Grammar.uriReference := by
  rw [← text_parse h]
  exact reference_eq_ok.mp k.valid

theorem not_mem_of_fault (h : parse u = .error f) : u.toList ∉ Grammar.uriReference := by
  intro hu
  have accepted := parse_of_valid (reference_eq_ok.mpr hu)
  rw [h] at accepted
  cases accepted

theorem text_eq_iff {v : String} (h : parse v = .ok k) (k' : Uri) : v = k'.text ↔ k = k' := by
  constructor
  · rintro rfl
    exact Except.ok.inj (h.symm.trans k'.parse_text)
  · rintro rfl
    exact (text_parse h).symm

theorem decoded_iff (h : parse u = .ok k) (t language : String) (version : Int32) (text : String) :
    Document.Raw.format.decode t = .ok ⟨u, language, version, text⟩ ↔
      Kind.document.decode t = .ok ⟨k, language, version, text⟩ := by
  constructor
  · exact Document.decode_of_accepted h
  · intro hd
    rw [Document.decode_raw hd, Document.raw, text_parse h]

theorem admitted (h : parse u = .ok k) : Admitted u k where
  key := h
  keyText := text_parse h
  built _ _ _ := by
    rw [Document.build, h]
    rfl
  decoded := decoded_iff h
  received t language version text :=
    (decoded_iff h t language version text).trans (Document.decode_eq_ofItem_iff t ⟨k, _, _, _⟩)
  encoded _ _ _ := by rw [Document.decode_raw_encode, Document.raw, text_parse h]
  ofItem i hi := ⟨(congrArg text hi).trans (text_parse h), rfl⟩
  toItem d hd := ⟨(congrArg text hd).trans (text_parse h), rfl⟩

theorem refused (h : parse u = .error f) : Refused u f where
  key := h
  built _ _ _ := by
    rw [Document.build, h]
    rfl
  decoded _ _ _ _ hd := ⟨_, Document.decode_of_refused h hd, rfl⟩

end Uri

namespace Cache

theorem answer_contains (c : Cache) (s : Shelf) (k : s.Key) :
    (c.perform (.on s (.contains k))).answer =
      some (.on s (.flag (c.stored? s k).isSome)) := by
  simp only [perform, Outcome.map, on, Store.perform, Store.contains, Store.answer_peek]
  rfl

theorem answer_keys (c : Cache) (s : Shelf) :
    (c.perform (.on s .keys)).answer = some (.on s (.keys (c.store s).table.keys)) := by
  simp only [perform, Outcome.map, on, Store.perform, Store.keys, Store.answer_peek]
  rfl

theorem stored?_erase (c : Cache) (s : Shelf) (k j : s.Key) :
    (c.perform (.on s (.erase k))).state.stored? s j = if k = j then none else c.stored? s j := by
  rw [stored?_perform, Op.touch?, Shelf.only_self]
  exact Touch.after_under k .remove j _

theorem stored?_fileDocument (c : Cache) (d : Document) (k : Uri) :
    (c.perform (.fileDocument d)).state.stored? .documents k =
      if d.uri = k then some d else c.stored? .documents k := by
  rw [stored?_perform, Op.touch?, Shelf.only_self]
  exact Touch.after_under d.uri (.set d) k _

theorem stored?_fileDocument_of_key (c : Cache) (d : Document) {v : String} {k : Uri}
    (h : Shelf.documents.readKey v = .ok k) :
    (c.perform (.fileDocument d)).state.stored? .documents k =
      if v = d.uri.text then some d else c.stored? .documents k := by
  rw [stored?_fileDocument]
  exact if_congr (eq_comm.trans (Uri.text_eq_iff h d.uri).symm) rfl rfl

/-- What `c'` tells of its documents is what `c` tells, but for the document `d` under the text `u`.
-/
structure HasFiled (c : Cache) (u : String) (d : Document) (c' : Cache) : Prop where
  get? : ∀ v k, Shelf.documents.readKey v = .ok k →
    (c'.perform (.on .documents (.get? k))).answer =
      some (.on .documents (.found (if v = u then some d else c.stored? .documents k)))
  contains : ∀ v k, Shelf.documents.readKey v = .ok k →
    (c'.perform (.on .documents (.contains k))).answer =
      some (.on .documents (.flag (v = u ∨ (c.stored? .documents k).isSome)))
  keys : ∃ ks, (c'.perform (.on .documents .keys)).answer = some (.on .documents (.keys ks)) ∧
    ∀ v k, Shelf.documents.readKey v = .ok k → (k ∈ ks ↔ v = u ∨ (c.stored? .documents k).isSome)
  erase : ∀ v k, Shelf.documents.readKey v = .ok k → ∀ w j, Shelf.documents.readKey w = .ok j →
    ((c'.perform (.on .documents (.erase k))).state.perform (.on .documents (.get? j))).answer =
      some (.on .documents
        (.found (if w = v then none else if w = u then some d else c.stored? .documents j)))

theorem hasFiled (c : Cache) (d : Document) :
    c.HasFiled d.uri.text d (c.perform (.fileDocument d)).state where
  get? v k h := by rw [answer_get?, c.stored?_fileDocument_of_key d h]
  contains v k h := by
    rw [answer_contains, c.stored?_fileDocument_of_key d h]
    split <;> simp [*]
  keys := by
    refine ⟨_, answer_keys _ _, fun v k h => ?_⟩
    rw [← Table.isSome_get?_iff]
    change ((c.perform (.fileDocument d)).state.stored? .documents k).isSome ↔ _
    rw [c.stored?_fileDocument_of_key d h]
    split <;> simp [*]
  erase v k hv w j hw := by
    rw [answer_get?, stored?_erase, c.stored?_fileDocument_of_key d hw]
    have same : k = j ↔ w = v := by
      rw [← Uri.text_parse hv]
      exact eq_comm.trans (Uri.text_eq_iff hw k).symm
    simp only [same]

end Cache

/-- Every text can be given at every door, and all of them let it in or all refuse it. It is let in
where the grammar derives it, and then a document that is filed under it is found by this text and
no other; else the index in the message is that of one of its characters. -/
theorem document_gate (u : String) :
    (∀ language version text, Document.Raw.format.decode
      (Document.Raw.format.encode ⟨u, language, version, text⟩) =
        .ok ⟨u, language, version, text⟩) ∧
    match Shelf.documents.readKey u with
    | .ok k => u.toList ∈ Uri.Grammar.uriReference ∧ Uri.Admitted u k ∧
        ∀ (c : Cache) (d : Document), d.uri = k →
          c.HasFiled u d (c.perform (.fileDocument d)).state
    | .error f => u.toList ∉ Uri.Grammar.uriReference ∧ Uri.Refused u f ∧
        f.index < u.utf8ByteSize ∧ (String.Pos.Raw.mk f.index).IsValid u := by
  refine ⟨fun _ _ _ => Document.Raw.follows.decode_written _, ?_⟩
  split
  next k h =>
    refine ⟨Uri.mem_of_parse h, Uri.admitted h, ?_⟩
    rintro c d rfl
    rw [← Uri.text_parse h]
    exact c.hasFiled d
  next f h => exact ⟨Uri.not_mem_of_fault h, Uri.refused h, Uri.fault_index h⟩

/-- An escape is another spelling, and an address in a future format is refused. -/
theorem document_gate_spellings :
    (∃ k j, Shelf.documents.readKey "file:///%7Ea" = .ok k ∧
      Shelf.documents.readKey "file:///~a" = .ok j ∧
      let c := (Cache.empty.perform (.fileDocument ⟨k, "yaml", 1, ""⟩)).state
      (c.perform (.on .documents (.get? k))).answer =
          some (.on .documents (.found (some ⟨k, "yaml", 1, ""⟩))) ∧
        (c.perform (.on .documents (.get? j))).answer = some (.on .documents (.found none))) ∧
    ∃ e, Kind.document.decode (Document.Raw.format.encode ⟨"//[v1.a]", "yaml", 1, ""⟩) =
        .error (.misfit e) ∧
      e.message = "invalid IP literal at index 2" := by
  constructor
  · have escaped : Uri.reference "file:///%7Ea".toList = .ok () := by decide
    have plain : Uri.reference "file:///~a".toList = .ok () := by decide
    have hk : Shelf.documents.readKey "file:///%7Ea" = _ := Uri.parse_of_valid escaped
    have hj : Shelf.documents.readKey "file:///~a" = _ := Uri.parse_of_valid plain
    have gate := (document_gate "file:///%7Ea").2
    rw [hk] at gate
    have filed := gate.2.2 .empty ⟨_, "yaml", 1, ""⟩ rfl
    exact ⟨_, _, hk, hj, filed.get? _ _ hk, filed.get? _ _ hj⟩
  · have future : Shelf.documents.readKey "//[v1.a]" = .error ⟨.address, 2⟩ := by rfl
    obtain ⟨given, gate⟩ := document_gate "//[v1.a]"
    rw [future] at gate
    obtain ⟨e, he, message⟩ := gate.2.1.decoded _ _ _ _ (given "yaml" 1 "")
    exact ⟨e, he, message.trans (by decide)⟩

end PipelineCache

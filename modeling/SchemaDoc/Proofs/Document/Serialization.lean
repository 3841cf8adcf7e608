import Mathlib.Data.List.DropRight
import SchemaDoc.Proofs.Document.Splicing

/-!
# Serialized documents

A document that is sent leaves as its bytes, whichever operation sends it. Serialized by itself,
which is to splice it into nothing, it leaves without the blanks that raw bytes may have behind
their value: they say no more with them, but they are not the same bytes.
-/

namespace SchemaDoc

variable {s : Shape}

/-! ## Ends of texts -/

namespace Json

/-- The text has a blank behind it. -/
def EndsBlank (bs : Bytes) : Prop := ∃ h : bs ≠ [], isBlank (bs.getLast h) = true

private theorem rdropWhile_isBlank_eq_self_iff {bs : Bytes} :
    bs.rdropWhile isBlank = bs ↔ ¬EndsBlank bs := by
  rw [List.rdropWhile_eq_self_iff, EndsBlank, not_exists]

private theorem InsideText.closing_suffix {bracket : Bracket} {first : Bool} {t : Bytes}
    (h : InsideText bracket first t) : [bracket.closing] <:+ t := by
  -- Nothing is said of the values that the parts have, so that their motive is trivial.
  apply @InsideText.rec (fun _ _ ↦ True) (fun bracket _ t _ ↦ [bracket.closing] <:+ t)
  · intros
    trivial
  · intros
    trivial
  · intro bracket first pre blank
    exact List.suffix_append _ _
  · intro bracket first sep key pre t after hs hk hp ht ha inner closing
    iterate 4 apply List.suffix_append_of_suffix
    exact closing
  · exact h

private theorem BracketText.rdropWhile_append {bracket : Bracket} {t post : Bytes}
    (h : BracketText bracket t) (hp : Blank post) : (t ++ post).rdropWhile isBlank = t := by
  obtain ⟨inside, rfl, hi⟩ := h
  obtain ⟨before, rfl⟩ := hi.closing_suffix
  have blanks : ∀ b ∈ post.reverse, isBlank b = true := by simpa [Blank] using hp
  have closing : isBlank bracket.closing = false := by cases bracket <;> decide
  rw [List.rdropWhile, List.reverse_append, List.dropWhile_append_of_pos blanks]
  simp [closing]

end Json

/-! ## Documents that are sent -/

/-- What is answered by the operations that hand a document over: the same bytes by each. -/
structure Sent (bytes : Bytes) (encoded marshalled : Except DocumentError Bytes)
    (bound : Except DocumentError Bound) : Prop where
  /-- The document is encoded to the bytes. -/
  encoded : encoded = .ok bytes
  /-- The JSON text of the document is the bytes. -/
  marshalled : marshalled = .ok bytes
  /-- A store gets the bytes. -/
  bound : bound = .ok ⟨bytes⟩

/-- A document is sent as its bytes. -/
theorem Document.sent (d : Document s) :
    Sent d.bytes (encode.run d).answer (marshal.run d).answer (bind.run d).answer :=
  ⟨answer_encode d, answer_encode d, congrArg Prod.fst (result_bind d)⟩

/-- A checked document is sent as the bytes of its document. -/
theorem CheckedDocument.sent (c : CheckedDocument s) :
    Sent c.document.bytes (encode.run c).answer (marshal.run c).answer (bind.run c).answer :=
  c.document.sent

/-! ## Documents that are serialized -/

/-- How the text `t` that a document is serialized to compares with the bytes that it is
sent as. -/
structure Document.Serialized (d : Document s) (t bytes : Bytes) : Prop where
  /-- The blanks behind the bytes are cut off and nothing else. -/
  cut : t = bytes.rdropWhile Json.isBlank
  /-- The text and the bytes are the same unless raw bytes end in a blank. -/
  same : t = bytes ↔ ∀ raw, d.raw? = some raw → ¬Json.EndsBlank raw

private theorem Document.InStep.serialized {d : Document s} (h : d.InStep) {t : Bytes}
    (ht : d.splice = .ok t) : d.Serialized t d.bytes := by
  obtain ⟨whole, -⟩ := h.bracketText (.inl ht)
  cases d with
  | decoded p =>
    obtain rfl := Except.ok.inj ht
    constructor
    · have cut := whole.rdropWhile_append Json.blank_nil
      rw [List.append_nil] at cut
      exact cut.symm
    · refine iff_of_true rfl ?_
      rintro raw ⟨⟩
  | raw bytes | both bytes p =>
    obtain ⟨pre, post, hp, hpost, -, -, he⟩ := Json.textOf_eq_ok_iff.mp ht
    -- Raw bytes start with the bracket, so there are blanks behind the value only.
    obtain rfl : pre = [] := by
      apply hp.eq_nil
      rw [← he]
      exact s.skipBlank_of_head? (h.opening bytes rfl)
    rw [List.nil_append] at he
    have cut : t = bytes.rdropWhile Json.isBlank := by
      rw [he, whole.rdropWhile_append hpost]
    refine ⟨cut, ?_⟩
    change t = bytes ↔ _
    rw [cut, Json.rdropWhile_isBlank_eq_self_iff]
    exact ⟨fun ends raw hr ↦ Option.some.inj hr ▸ ends, fun ends ↦ ends bytes rfl⟩

/-- Encoding, marshalling and binding hand over the same bytes of every document. What it is
serialized to is these bytes without the blanks behind them, and so these bytes themselves unless
raw bytes end in a blank. -/
theorem serialized_is_sent_iff_no_blank_behind :
    (∀ d : Document s, d.Reachable → ∀ t, d.splice = .ok t →
      ∃ bytes, Sent bytes (Document.encode.run d).answer (Document.marshal.run d).answer
        (Document.bind.run d).answer ∧ d.Serialized t bytes) ∧
    ∀ c : CheckedDocument s, c.Reachable → ∀ t, c.document.splice = .ok t →
      ∃ bytes, Sent bytes (CheckedDocument.encode.run c).answer
        (CheckedDocument.marshal.run c).answer (CheckedDocument.bind.run c).answer ∧
        c.document.Serialized t bytes := by
  constructor
  · intro d reached t ht
    exact ⟨_, d.sent, reached.inStep.serialized ht⟩
  · intro c reached t ht
    exact ⟨_, c.sent, reached.inStep.serialized ht⟩

/-- A list with a blank inside it and none behind it. -/
theorem blank_inside_list_is_serialized :
    ∃ d : Document .list, d.splice = .ok (Json.asciiBytes ['[', ' ', '1', ']']) ∧
      (Document.marshal.run d).answer = .ok (Json.asciiBytes ['[', ' ', '1', ']']) := by
  have reached : Document.Reachable
      (.raw (Json.asciiBytes ['[', ' ', '1', ']']) : Document .list) :=
    @Document.Reachable.ofRaw .list (Json.asciiBytes ['[', ' ', '1', ']']) _ (by rfl)
  obtain ⟨bytes, sent, serialized⟩ :=
    (serialized_is_sent_iff_no_blank_behind (s := .list)).1 _ reached _ (by rfl)
  have same := serialized.same.mpr fun raw hr ↦ by
    obtain rfl := Option.some.inj hr
    exact Json.rdropWhile_isBlank_eq_self_iff.mp (by decide)
  exact ⟨_, rfl, same ▸ sent.marshalled⟩

/-- A list with a blank behind it is taken, and is serialized to other bytes than it is marshalled
to. -/
theorem blank_behind_list_is_not_serialized :
    ∃ d : Document .list, d.Reachable ∧
      d.splice = .ok (Json.asciiBytes ['[', '1', ']']) ∧
      (Document.marshal.run d).answer = .ok (Json.asciiBytes ['[', '1', ']', ' ']) ∧
      Json.asciiBytes ['[', '1', ']'] ≠ Json.asciiBytes ['[', '1', ']', ' '] := by
  refine ⟨.raw (Json.asciiBytes ['[', '1', ']', ' ']), ?_, by rfl, by rfl, by decide⟩
  exact @Document.Reachable.ofRaw .list (Json.asciiBytes ['[', '1', ']', ' ']) _ (by rfl)

end SchemaDoc
